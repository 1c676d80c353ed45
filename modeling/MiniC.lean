import MiniC.CommandLine.Directory
import MiniC.Main
import MiniC.Proofs.Lower.FunctionRun
import MiniC.Proofs.Lower.Safety
import MiniC.Proofs.Typing.Soundness
import MiniC.Proofs.Emit.Level
import MiniC.Proofs.Lower.StackLevel
import MiniC.Proofs.Lower.StackDiscipline
import MiniC.Proofs.X86.Parts
import MiniC.Proofs.Emit.Same
import MiniC.Proofs.Emit.BankRun
import MiniC.Proofs.Emit.Calls
import MiniC.Proofs.Emit.CallLevel
import MiniC.Proofs.Lower.FileLines
import MiniC.Proofs.Lower.FrameSafety
import MiniC.Proofs.Lower.Labels
import MiniC.Proofs.Typing.Globals
import MiniC.Proofs.X86.Pushed
import MiniC.Proofs.Ast.RoundTrip
import MiniC.Proofs.Ast.Ranges
import MiniC.Proofs.Ast.Progress
import MiniC.Proofs.Layout
import MiniC.Proofs.Typing.Session
import MiniC.Proofs.Lower.Prologue
import MiniC.Proofs.Typed.Within
import MiniC.Proofs.Typing.Scoping
import MiniC.Proofs.Token.Display
import MiniC.Proofs.Token.Interning
import MiniC.Proofs.Lower.Arguments
import MiniC.Proofs.Lower.Ownership
import MiniC.Proofs.Lower.Extension
import MiniC.Proofs.Lower.Need
import MiniC.Proofs.Emit.Storage
import MiniC.Proofs.Typing.Folding
import MiniC.Proofs.Lower.Unfolded
import MiniC.Proofs.Lower.ArrayInit
import MiniC.Proofs.Text.StringConstant
import MiniC.Proofs.Ast.IntegerLiteral
import MiniC.Proofs.Typing.Decay
import MiniC.Proofs.Emit.Refusal
