import MiniC.CommandLine.Session

/-!
# The program

Sessions on the files of the disk.
-/

set_option autoImplicit false

namespace MiniC.CommandLine

/-- The number that the system gives an error. -/
def systemCode : IO.Error → Option UInt32
  | .alreadyExists _ code _ => some code
  | .otherError code _ => some code
  | .resourceBusy code _ => some code
  | .resourceVanished code _ => some code
  | .unsupportedOperation code _ => some code
  | .hardwareFault code _ => some code
  | .unsatisfiedConstraints code _ => some code
  | .illegalOperation code _ => some code
  | .protocolError code _ => some code
  | .timeExpired code _ => some code
  | .interrupted _ code _ => some code
  | .noFileOrDirectory _ code _ => some code
  | .invalidArgument _ code _ => some code
  | .permissionDenied _ code _ => some code
  | .resourceExhausted _ code _ => some code
  | .inappropriateType _ code _ => some code
  | .noSuchThing _ code _ => some code
  | .unexpectedEof => none
  | .userError _ => none

/-- Why the system refuses a file. -/
def FileError.ofSystem (e : IO.Error) : FileError :=
  match systemCode e with
  | some 2 => .notFound
  | some 13 => .other "Permission denied (os error 13)"
  | some 20 => .notDirectory
  | some 21 => .isDirectory
  | some 36 => .other "File name too long (os error 36)"
  | _ => .other (toString e)

/-- The files of the disk, and the terminal. -/
def disk : Host IO where
  read path := do
    try
      let bytes ← IO.FS.readBinFile path
      match String.fromUTF8? bytes with
      | some text => return .ok text
      | none => return .error .notText
    catch e => return .error (.ofSystem e)
  write path content := do
    try
      IO.FS.writeFile path content
      return .ok ()
    catch e => return .error (.ofSystem e)
  print text := IO.print text

end MiniC.CommandLine

def main (words : List String) : IO UInt32 := do
  let outcome ← MiniC.CommandLine.session MiniC.CommandLine.disk words
  IO.eprint outcome.report
  return outcome.code.toUInt32
