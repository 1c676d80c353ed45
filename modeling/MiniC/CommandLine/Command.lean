/-!
# Commands

What the words on the command line ask for. Options may stand before or after the file, a value may
follow its option as the next word, after `=` or, for a one-letter option, directly, and one-letter
options may share a dash. After `--` every word is a file. An option is given at most once.
-/

set_option autoImplicit false

namespace MiniC.CommandLine

/-- What is done with a source file. That the session should be verbose is not kept: it asks for a
log of the work, which is no part of what a session does. -/
structure CompileRequest where
  input : String
  /-- Where the assembly file goes, if not beside the source. -/
  output : Option String := none
  lenientRegisters : Bool := false
  /-- Where the tree of the program goes, if anywhere. -/
  emitAst : Option String := none
  printTokens : Bool := false
deriving DecidableEq, Repr, Inhabited

/-- What there is help about. -/
inductive Topic where
  | overview
  | compile
  | tokens
  | routines
  | help
deriving DecidableEq, Repr, Inhabited

/-- What the user asks for. -/
inductive Command where
  | compile (request : CompileRequest)
  | tokens (input : String)
  /-- The routines that compiled programs print with, to a file or to the terminal. -/
  | routines (output : Option String)
  | version
  | help (topic : Topic)
deriving DecidableEq, Repr, Inhabited

/-- An option that a command takes. -/
structure Flag where
  long : String
  short : Option Char := none
  takesValue : Bool := false
deriving DecidableEq, Repr, Inhabited

/-- The option that asks for help, which every command has. -/
def Flag.help : Flag := { long := "help", short := some 'h' }

/-- What a command accepts: its options, and at most so many files. -/
structure Accepted where
  flags : List Flag
  files : Nat
deriving DecidableEq, Repr, Inhabited

/-- Words sorted into options, with their values if they take one, and files. -/
structure Sorted where
  options : List (String × String) := []
  files : List String := []
deriving DecidableEq, Repr, Inhabited

namespace Sorted

def has (s : Sorted) (long : String) : Bool := (s.options.lookup long).isSome

def value? (s : Sorted) (long : String) : Option String := s.options.lookup long

/-- Add an option, which must be new. -/
def addOption (s : Sorted) (long value : String) : Option Sorted :=
  if s.has long then none else some { s with options := s.options ++ [(long, value)] }

/-- Add the value of an option; the empty word names no file. -/
def addValue (s : Sorted) (flag : Flag) (value : String) : Option Sorted :=
  if value = "" then none else s.addOption flag.long value

/-- Add a file, if there is room for it; the empty word names none. -/
def addFile (s : Sorted) (room : Nat) (word : String) : Option Sorted :=
  if word = "" ∨ room ≤ s.files.length then none
  else some { s with files := s.files ++ [word] }

end Sorted

/-- What came of sorting: help was asked for before anything was wrong, or all is sorted. -/
inductive Sorting where
  | help
  | sorted (s : Sorted)
deriving DecidableEq, Repr, Inhabited

/-- Whether a word is an option; a dash alone is a file. -/
def isOption (word : String) : Bool :=
  match word.toList with
  | '-' :: _ :: _ => true
  | _ => false

/-- Options that share a dash, up to one that takes a value: that one, with the letters after it. -/
inductive Letters where
  | help
  | flags (s : Sorted)
  | value (s : Sorted) (flag : Flag) (rest : List Char)

/-- Read the letters after a dash. -/
def readLetters (flags : List Flag) (s : Sorted) : List Char → Option Letters
  | [] => some (.flags s)
  | c :: cs =>
    match flags.find? fun f => f.short == some c with
    | none => none
    | some f =>
      if f = .help then some .help
      else if f.takesValue then some (.value s f cs)
      else
        match s.addOption f.long "" with
        | none => none
        | some s => readLetters flags s cs

/-- The value that follows a letter directly. -/
def attached : List Char → String
  | '=' :: cs => String.ofList cs
  | cs => String.ofList cs

/-- Split a word at the first `=`. -/
def splitValue (word : List Char) : String × Option String :=
  match word.dropWhile (· != '=') with
  | [] => (String.ofList word, none)
  | _ :: value => (String.ofList (word.takeWhile (· != '=')), some (String.ofList value))

/-- Sort words that are all files. -/
def sortFiles (room : Nat) (s : Sorted) : List String → Option Sorting
  | [] => some (.sorted s)
  | word :: words => do
    let s ← s.addFile room word
    sortFiles room s words

/-- Sort words into options and files. `pending` is an option that still waits for its value. -/
def sort (accepted : Accepted) (pending : Option Flag) (s : Sorted) :
    List String → Option Sorting
  | [] => if pending.isSome then none else some (.sorted s)
  | word :: words =>
    match pending with
    | some flag =>
      if isOption word then none
      else do
        let s ← s.addValue flag word
        sort accepted none s words
    | none =>
      match word.toList with
      | ['-', '-'] => sortFiles accepted.files s words
      | '-' :: '-' :: name =>
        let (name, value) := splitValue name
        match accepted.flags.find? fun f => f.long == name, value with
        | none, _ => none
        | some f, none =>
          if f = .help then some .help
          else if f.takesValue then sort accepted (some f) s words
          else do
            let s ← s.addOption f.long ""
            sort accepted none s words
        | some f, some value =>
          if f.takesValue then do
            let s ← s.addValue f value
            sort accepted none s words
          else none
      | '-' :: c :: cs =>
        match readLetters accepted.flags s (c :: cs) with
        | none => none
        | some .help => some .help
        | some (.flags s) => sort accepted none s words
        | some (.value s f []) => sort accepted (some f) s words
        | some (.value s f rest) => do
          let s ← s.addValue f (attached rest)
          sort accepted none s words
      | _ => do
        let s ← s.addFile accepted.files word
        sort accepted none s words

/-- Where a command writes to. -/
def outputFlag : Flag := { long := "output", short := some 'o', takesValue := true }

def compileWords : Accepted where
  flags :=
    [.help, outputFlag, { long := "lenient-registers" }, { long := "emit-ast", takesValue := true },
      { long := "print-tokens" }, { long := "verbose", short := some 'v' }]
  files := 1

def tokensWords : Accepted := ⟨[.help], 1⟩

def routinesWords : Accepted := ⟨[.help, outputFlag], 0⟩

/-- A command that takes options and files: what it makes of them, or help about it. -/
def withWords (topic : Topic) (accepted : Accepted) (words : List String)
    (make : Sorted → Option Command) : Option Command :=
  match sort accepted none {} words with
  | none => none
  | some .help => some (.help topic)
  | some (.sorted s) => make s

/-- The options that stand in place of a command. The first letter behind a dash decides. -/
def Command.ofOption? (word : String) : Option Command :=
  match word.toList with
  | '-' :: 'h' :: _ => some (.help .overview)
  | '-' :: 'V' :: _ => some .version
  | _ =>
    if word = "--help" then some (.help .overview)
    else if word = "--version" then some .version
    else none

/-- The command that the words ask for, if they make sense. -/
def Command.parse? : List String → Option Command
  | "compile" :: words =>
    withWords .compile compileWords words fun s =>
      match s.files with
      | [input] =>
        some (.compile
          { input
            output := s.value? "output"
            lenientRegisters := s.has "lenient-registers"
            emitAst := s.value? "emit-ast"
            printTokens := s.has "print-tokens" })
      | _ => none
  | "tokens" :: words =>
    withWords .tokens tokensWords words fun s =>
      match s.files with
      | [input] => some (.tokens input)
      | _ => none
  | "runtime" :: words =>
    withWords .routines routinesWords words fun s =>
      match s.files with
      | [] => some (.routines (s.value? "output"))
      | _ => none
  | ["help"] => some (.help .overview)
  | ["help", "compile"] => some (.help .compile)
  | ["help", "tokens"] => some (.help .tokens)
  | ["help", "runtime"] => some (.help .routines)
  | ["help", "help"] => some (.help .help)
  | word :: _ => Command.ofOption? word
  | [] => none

end MiniC.CommandLine
