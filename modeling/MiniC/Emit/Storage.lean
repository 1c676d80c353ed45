import MiniC.Emit.Basic

/-!
# The data section

The constants of the pools, and the storage of global objects: what an initializer gives, one
directive for each element, and zeros for the rest.
-/

set_option autoImplicit false

namespace MiniC.Emit

open MiniC.X86 (Line Directive Width)

/-- Append lines to the data section. -/
def dataLines (lines : List Line) : Emit Unit :=
  modify fun e => { e with data := e.data ++ lines }

/-- The lines of the constant pools. -/
def poolLines (pool : Pool) : List Line :=
  (pool.floats.entries.flatMap fun (x, label) =>
    [.directive (.balign 8), .label label, .directive (.double x)]) ++
  pool.strings.entries.flatMap fun (s, label) => [.label label, .directive (.string s)]

/-- Begin a file: nothing is taken, and the data section starts with the constants. -/
def preamble : Emit Unit := do
  freeAll
  modify fun e => { e with pushed := 0 }
  let pool := (← read).pool
  dataLines (.directive .data :: poolLines pool)

/-- The width at which an integer of a scalar type is stored. -/
def dataWidth : Scalar → Width
  | .char => .byte
  | .int => .long
  | .long => .quad
  | .float => .quad

/-- The directive that stores a constant into an object of a type. -/
def dataDirective (pool : Pool) (slot : CType) (value : Value) : Except Error Directive :=
  let invalid := .error (.unsupported (.initializer slot value))
  match slot with
  | .scalar .float =>
    match value.convert? .float with
    | some (.float x) => .ok (.double x)
    | _ => invalid
  | .scalar s =>
    match (value.convert? s).bind Value.integer? with
    | some n => .ok (.integer (dataWidth s) n)
    | none => invalid
  | .pointer _ =>
    match value with
    | .str s =>
      match pool.stringLabel? s with
      | some label => .ok (.address label)
      | none => .error (.misuse (.stringNotPooled s))
    | other =>
      match other.integer? with
      | some n => .ok (.integer .quad n)
      | none => invalid
  | .array _ _ => invalid
  | .void => invalid

/-- The elements of an object: their type and their number. A single object is its own element. -/
def elements? : CType → Option (CType × Nat)
  | .void => none
  | .array element length => some (.scalar element, length)
  | type => some (type, 1)

/-- The directives that store constants one after the other. -/
def dataDirectives (pool : Pool) (slot : CType) : List Value → Except Error (List Directive)
  | [] => .ok []
  | v :: vs => do
    let d ← dataDirective pool slot v
    let ds ← dataDirectives pool slot vs
    return d :: ds

/-- The lines of a global object. -/
def globalLines (pool : Pool) (s : Symbol) (init : Option Constant) : Except Error (List Line) :=
  if s.isGlobal then
    match elements? s.type with
    | none => .error (.unsupportedType "global declaration" s.type)
    | some (element, capacity) => do
      let values := (init.map Constant.flatten).getD []
      if capacity < values.length then
        throw (.unsupported (.tooManyInitializers values.length s.name capacity))
      else
        let stored ← dataDirectives pool element values
        let rest := capacity - values.length
        let zeros : List Directive := if 0 < rest then [.zero (rest * element.size)] else []
        return [.directive (.globl s.name), .directive (.balign s.type.align), .label s.name] ++
          (stored ++ zeros).map .directive
  else .error (.misuse (.notInData s))

/-- Reserve storage for a global object. -/
def declareGlobal (s : Symbol) (init : Option Constant) : Emit Unit := do
  let pool := (← read).pool
  let lines ← ofExcept (globalLines pool s init)
  dataLines lines

/-- End a file. -/
def postamble : Emit Unit := do
  releaseLeaks "the program"
  freeAll
  directive .plainStack

end MiniC.Emit

/-- The whole file: the data section and then the text. -/
def MiniC.Emitter.output (e : Emitter) : String :=
  X86.listing (e.data.toList ++ .directive .text :: e.text.toList)
