import MiniC.Ast.Json
import MiniC.CommandLine.Help
import MiniC.CommandLine.Path
import MiniC.Compile
import MiniC.PrintRoutines

/-!
# Sessions

What a command does: which files it reads and writes, what it prints, and how it ends. Files are
reached through a `Host`, so that a session can be run on the disk or on a directory held in memory.
-/

set_option autoImplicit false

namespace MiniC.CommandLine

/-- Why a file cannot be read or written. -/
inductive FileError where
  | notFound
  | isDirectory
  | notDirectory
  | notText
  /-- Any other reason the system gives. -/
  | other (reason : String)
deriving DecidableEq, Repr, Inhabited

def FileError.text : FileError → String
  | notFound => "No such file or directory (os error 2)"
  | isDirectory => "Is a directory (os error 21)"
  | notDirectory => "Not a directory (os error 20)"
  | notText => "stream did not contain valid UTF-8"
  | other reason => reason

/-- The system that a session runs on. -/
structure Host (m : Type → Type) where
  read : String → m (Except FileError String)
  write : String → String → m (Except FileError Unit)
  print : String → m Unit

/-- Why a session fails. -/
inductive Failure where
  /-- What was being done cannot be done, for a reason. -/
  | reported (context cause : String)
  /-- The compiler itself stopped. -/
  | crash (message : String)
deriving DecidableEq, Repr, Inhabited

namespace Failure

/-- What is reported: the reason is set in from the margin, on every line. -/
def text : Failure → String
  | reported context cause =>
    "Error: " ++ context ++ "\n\nCaused by:\n    " ++ cause.replace "\n" "\n    " ++ "\n"
  | crash message => message ++ "\n"

/-- The code that the session ends with. -/
def code : Failure → Nat
  | reported .. => 1
  | crash _ => 101

/-- The failure of a stage of compilation. -/
def ofDiagnostic : Diagnostic → Failure
  | .overflow => crash Diagnostic.overflow.text
  | d => reported (d.stage ++ " failed") d.text

end Failure

/-- How a session ends. -/
structure Outcome where
  code : Nat
  /-- What is reported when it fails. -/
  report : String := ""
deriving DecidableEq, Repr, Inhabited

/-- The session of words that make no sense. -/
def Outcome.usage : Outcome := ⟨2, "error: see --help for the commands\n"⟩

def versionText : String := "xcc 0.1.0\n"

section

variable {m : Type → Type} [Monad m] (host : Host m)

/-- Read a source file. -/
def readSource (input : String) : ExceptT Failure m String := do
  match ← host.read input with
  | .ok source => return source
  | .error e => throw (.reported ("Failed to read " ++ input) e.text)

/-- Write a file; `what` says in words what is being written. -/
def writeOutput (what path content : String) : ExceptT Failure m Unit := do
  match ← host.write path content with
  | .ok () => return ()
  | .error e => throw (.reported ("Failed to write " ++ what ++ path) e.text)

/-- A token with its place, as the list of tokens shows it. -/
def tokenLine (t : Token) : String := t.span.start.text ++ ": " ++ t.kind.text ++ "\n"

/-- Print the tokens of a source file. Nothing is printed if it cannot be read to its end. -/
def printTokens (input : String) : ExceptT Failure m Unit := do
  let source ← readSource host input
  match (tokenize source input {}).1 with
  | .error e => throw (.ofDiagnostic e.diagnostic)
  | .ok tokens => host.print (String.join (tokens.map tokenLine))

/-- Compile a source file. The tree is written before the program is checked. -/
def compileFile (r : CompileRequest) : ExceptT Failure m Unit := do
  if r.printTokens then printTokens host r.input
  let source ← readSource host r.input
  let (parsed, pool) := parse source r.input {}
  match parsed with
  | .error d => throw (.ofDiagnostic d)
  | .ok program =>
    match r.emitAst with
    | some path => writeOutput host "AST to " path (program.toJson .full).text
    | none => pure ()
    match compileProgram ⟨pool, !r.lenientRegisters⟩ program with
    | .error d => throw (.ofDiagnostic d)
    | .ok assembly =>
      writeOutput host "" (r.output.getD (withExtension r.input "s")) assembly

/-- Carry out a command. -/
def Command.perform : Command → ExceptT Failure m Unit
  | compile request => compileFile host request
  | tokens input => printTokens host input
  | routines (some path) => writeOutput host "runtime to " path printRoutines
  | routines none => host.print printRoutines
  | version => host.print versionText
  | help topic => host.print topic.text

/-- Run the session that the words on the command line ask for. -/
def session (words : List String) : m Outcome := do
  match Command.parse? words with
  | none => return .usage
  | some command =>
    match ← (command.perform host).run with
    | .ok () => return ⟨0, ""⟩
    | .error f => return ⟨f.code, f.text⟩

end

end MiniC.CommandLine
