import MiniC.Typing.Error

/-!
# Constant initializers

A global object lies in the data section, so its initializer has to be known when the program is
compiled: literals, with signs and casts in front, converted to the type of the object.
-/

set_option autoImplicit false

namespace MiniC.Ast

/-- The value of a constant expression, or `none` if the expression is not one. -/
def Expr.fold? : Expr → Option Value
  | literal v _ => some v
  | unary .minus e _ => e.fold?.bind Value.negate?
  | unary .plus e _ => e.fold?
  | cast t e _ =>
    match t.resolve? with
    | some (.scalar s) => e.fold?.bind fun v => v.convert? s
    | _ => none
  | _ => none

mutual

/-- The expressions of an initializer in the order they are written; nested lists are read as one. -/
def Initializer.leaves : Initializer → List Expr
  | .expr e => [e]
  | .list items _ => leavesOfAll items

/-- The expressions of a list of initializers. -/
def leavesOfAll : List Initializer → List Expr
  | [] => []
  | item :: items => item.leaves ++ leavesOfAll items

end

end MiniC.Ast

namespace MiniC.Typing

/-- Whether a constant is an integer zero, which stands for the null pointer. -/
def isNull (v : Value) : Bool := v.integer? == some 0

/-- The value of a constant expression as an object of a scalar or pointer type. -/
def constantOf (name : String) (type : CType) (e : Ast.Expr) : Except Error Value :=
  match e.fold? with
  | none => refuse (.notConstant name) e.span
  | some v =>
    let mismatch : Except Error Value := refuse (.typeMismatch type v.type) e.span
    match type, v with
    | .pointer .char, .str s => .ok (.str s)
    | .pointer _, v => if isNull v then .ok (.long 0) else mismatch
    | .scalar s, v =>
      match v.convert? s with
      | some converted => .ok converted
      | none => mismatch
    | _, _ => mismatch

/-- The characters that a string gives to an array: the null byte is dropped when the string
fills the array exactly. -/
def arrayChars (s : String) (length : Nat) : List Value :=
  let chars := Value.ofStringBytes s
  if chars.length = length + 1 then chars.dropLast else chars

/-- An array takes no more initializers than it has elements. -/
def withinLength {α : Type} (name : String) (length : Nat) (span : Span) (values : List α) :
    Except Error (List α) :=
  if length < values.length then
    refuse (.tooManyInitializers name length values.length) span
  else .ok values

/-- The data of a global array. -/
def arrayConstants (name : String) (element : Scalar) (length : Nat) (init : Ast.Initializer) :
    Except Error (List Value) := do
  match element, init with
  | .char, .expr (.literal (.str s) _) =>
    withinLength name length init.span (arrayChars s length)
  | _, .expr e =>
    let found := (e.fold?.map Value.type).getD .void
    refuse (.typeMismatch (.array element length) found) e.span
  | _, .list .. =>
    let values ← init.leaves.mapM (constantOf name (.scalar element))
    withinLength name length init.span values

/-- The data of a global object. -/
def globalInit (name : String) (type : CType) (init : Ast.Initializer) :
    Except Error Constant := do
  match type, init with
  | .array element length, init =>
    let values ← arrayConstants name element length init
    return .list (values.map .value)
  | type, .expr e => return .value (← constantOf name type e)
  | _, .list _ span => refuse (.unsupported (.listForNonArray name)) span

end MiniC.Typing
