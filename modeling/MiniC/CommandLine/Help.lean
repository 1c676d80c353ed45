import MiniC.CommandLine.Command

/-!
# Help

What is printed when help is asked for: what the command does, how it is written, and its arguments
and options in a table with the explanations in one column.
-/

set_option autoImplicit false

namespace MiniC.CommandLine

/-- A part of a help text: what can be written, each with its explanation. -/
structure HelpSection where
  title : String
  entries : List (String × String)

/-- The help of a command. -/
structure HelpText where
  about : String
  usage : String
  sections : List HelpSection

namespace HelpSection

/-- The width of the column before the explanations. -/
def column (s : HelpSection) : Nat :=
  s.entries.foldl (fun width entry => max width entry.1.length) 0

/-- A word with blanks after it up to a width. -/
def padded (width : Nat) (word : String) : String :=
  word ++ String.ofList (List.replicate (width - word.length) ' ')

def text (s : HelpSection) : String :=
  "\n" ++ s.title ++ ":\n" ++
    String.join (s.entries.map fun (word, meaning) =>
      "  " ++ padded s.column word ++ "  " ++ meaning ++ "\n")

end HelpSection

def HelpText.text (h : HelpText) : String :=
  h.about ++ "\n\nUsage: " ++ h.usage ++ "\n" ++ String.join (h.sections.map HelpSection.text)

namespace Topic

def about : Topic → String
  | overview => "x86-64 compiler for a small C subset"
  | compile => "Compile a source file to assembly"
  | tokens => "Print the token stream of a source file"
  | routines => "Write the C runtime the generated code links against"
  | help => "Print this message or the help of the given subcommand(s)"

/-- How the command is written. -/
def usage : Topic → String
  | overview => "xcc <COMMAND>"
  | compile => "xcc compile [OPTIONS] <INPUT>"
  | tokens => "xcc tokens <INPUT>"
  | routines => "xcc runtime [OPTIONS]"
  | help => "xcc help [COMMAND]..."

/-- What can follow the command. -/
def sections : Topic → List HelpSection
  | overview =>
    [⟨"Commands",
      [("compile", compile.about), ("tokens", tokens.about), ("runtime", routines.about),
        ("help", help.about)]⟩,
      ⟨"Options", [("-h, --help", "Print help"), ("-V, --version", "Print version")]⟩]
  | compile =>
    [⟨"Arguments", [("<INPUT>", "Input source file")]⟩,
      ⟨"Options",
        [("-o, --output <OUTPUT>",
            "Output assembly file (defaults to the input with a .s extension)"),
          ("    --lenient-registers", "Reclaim registers leaked by a function instead of failing"),
          ("    --emit-ast <PATH>", "Write the parsed AST as JSON to this path"),
          ("    --print-tokens", "Print the token stream before compiling"),
          ("-v, --verbose", "Verbose output"),
          ("-h, --help", "Print help")]⟩]
  | tokens =>
    [⟨"Arguments", [("<INPUT>", "Input source file")]⟩,
      ⟨"Options", [("-h, --help", "Print help")]⟩]
  | routines =>
    [⟨"Options",
      [("-o, --output <OUTPUT>", "Output path (defaults to stdout)"),
        ("-h, --help", "Print help")]⟩]
  | help => [⟨"Arguments", [("[COMMAND]...", "Print help for the subcommand(s)")]⟩]

/-- What is printed about a topic. -/
def text (t : Topic) : String := HelpText.text ⟨t.about, t.usage, t.sections⟩

end Topic

end MiniC.CommandLine
