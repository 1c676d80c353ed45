import MiniC.Typed
import MiniC.Typing.Constant
import MiniC.Typing.Scope

/-!
# Checking expressions

An expression is checked against the objects and functions in scope. Operands of arithmetic are
converted to their common type, what is stored or passed is converted to the type it is stored or
passed as, and arrays count as pointers wherever their value is used.
-/

set_option autoImplicit false

namespace MiniC.Typing

open Typed (Place)

/-- What names mean. -/
structure Env where
  scopes : Scopes
  functions : Signatures

def Env.object (env : Env) (name : String) (span : Span) : Except Error Symbol :=
  match env.scopes.lookup? name with
  | some symbol => .ok symbol
  | none => refuse (.undefinedVariable name) span

def Env.function (env : Env) (name : String) (span : Span) : Except Error Signature :=
  match env.functions.find? name with
  | some signature => .ok signature
  | none => refuse (.undefinedFunction name) span

/-- Convert a value between scalar types. A literal that becomes an integer stays a literal; one that
becomes a float does not, for the new constant might not be in the pool. -/
def convert (e : Typed.Expr) (source target : Scalar) : Typed.Expr :=
  if source = target then e
  else
    match e with
    | .literal v =>
      match target.isInteger, v.convert? target with
      | true, some converted => .literal converted
      | _, _ => .convert e source target
    | e => .convert e source target

/-- Whether an expression is the literal null pointer. -/
def isNullLiteral : Typed.Expr → Bool
  | .literal v => isNull v
  | _ => false

/-- Convert a value to the type of the object it is stored in. -/
def coerce (e : Typed.Expr) (target : CType) (span : Span) : Except Error Typed.Expr :=
  if e.valueType = target then .ok e
  else
    let mismatch : Except Error Typed.Expr := refuse (.typeMismatch target e.type) span
    match e.valueType, target with
    | .scalar source, .scalar target => .ok (convert e source target)
    | _, .pointer _ => if isNullLiteral e then .ok (.literal (.long 0)) else mismatch
    | _, _ => mismatch

/-- A value may not be `void`. -/
def nonVoid (span : Span) (e : Typed.Expr) : Except Error Typed.Expr :=
  if e.type.isVoid then refuse .voidValue span else .ok e

/-- Move a pointer by an integer. -/
def pointerOffset (pointer count : Typed.Expr) (countType element : Scalar) (subtract : Bool) :
    Typed.Expr :=
  .offset pointer (convert count countType .long) element subtract

/-- Arithmetic or comparison of two numbers, in their common type. -/
def scalarBinary (op : BinaryOp) (left right : Typed.Expr) (a b : Scalar) (span : Span) :
    Except Error Typed.Expr :=
  let common := a.common b
  if common = .float ∧ op.isIntegerOnly then refuse (.invalidOperation op.text .float) span
  else
    let type := if op.isRelational then .long else .scalar common
    .ok (.binary op (convert left a common) (convert right b common) type)

/-- The distance of two pointers, in elements. -/
def pointerDistance (left right : Typed.Expr) (element : Scalar) : Typed.Expr :=
  let bytes := Typed.Expr.binary .sub left right .long
  .binary .div bytes (.literal (.long (Int64.ofNat element.size))) .long

/-- A binary operation on two checked operands. A pointer can be moved by an integer, compared and
subtracted with a pointer of its own type, and compared with the null pointer. -/
def binary (op : BinaryOp) (left right : Typed.Expr) (span : Span) : Except Error Typed.Expr :=
  let invalid (type : CType) : Except Error Typed.Expr :=
    refuse (.invalidOperation op.text type) span
  if op.isLogical then .ok (.logical op left right)
  else
    match left.valueType, right.valueType with
    | .scalar a, .scalar b => scalarBinary op left right a b span
    | .pointer element, .scalar s =>
      if s.isInteger ∧ (op = .add ∨ op = .sub) then
        .ok (pointerOffset left right s element (op == .sub))
      else if op.isRelational ∧ isNullLiteral right then
        .ok (.binary op left (.literal (.long 0)) .long)
      else invalid left.type
    | .scalar s, .pointer element =>
      if s.isInteger ∧ op = .add then .ok (pointerOffset right left s element false)
      else if op.isRelational ∧ isNullLiteral left then
        .ok (.binary op (.literal (.long 0)) right .long)
      else invalid right.type
    | .pointer a, .pointer b =>
      if a = b ∧ op = .sub then .ok (pointerDistance left right a)
      else if a = b ∧ op.isRelational then .ok (.binary op left right .long)
      else invalid left.type
    | .pointer _, _ => invalid left.type
    | _, _ => invalid right.type

/-- A sign or a complement of a checked operand; a narrow operand is widened first. The sign of an
integer literal becomes part of it. -/
def arithmeticUnary (op : UnaryOp) (operand : Typed.Expr) (span : Span) :
    Except Error Typed.Expr :=
  match operand.valueType with
  | .scalar s =>
    if op = .bitNot ∧ s = .float then refuse (.invalidOperation op.text .float) span
    else
      let promoted := s.common .int
      let value := convert operand s promoted
      if op = .plus then .ok value
      else
        match value with
        | .literal v =>
          match op, promoted.isInteger, v.negate? with
          | .minus, true, some negated => .ok (.literal negated)
          | _, _, _ => .ok (.unary op value (.scalar promoted))
        | value => .ok (.unary op value (.scalar promoted))
  | _ => refuse (.invalidOperation op.text operand.type) span

/-- The place that a checked pointer points to. -/
def dereference (address : Typed.Expr) (span : Span) : Except Error Place :=
  if address.valueType.isPointer then .ok (.pointee address address.valueType)
  else refuse (.invalidOperation "dereference" address.type) span

/-- The place of an element, from a checked array or pointer and a checked index. -/
def element (base index : Typed.Expr) (span : Span) : Except Error Place :=
  match base.valueType with
  | .pointer element =>
    match index.valueType with
    | .scalar s =>
      if s.isInteger then
        .ok (.pointee (pointerOffset base index s element false) (.pointer element))
      else refuse (.invalidOperation "array index" (.scalar s)) span
    | other => refuse (.invalidOperation "array index" other) span
  | _ => refuse (.invalidOperation "subscript" base.type) span

/-- The address of a variable. -/
def variableAddress (symbol : Symbol) (span : Span) : Except Error Typed.Expr :=
  match symbol.type with
  | .scalar s => .ok (.addressOf symbol (.pointer s))
  | .array s _ => .ok (.addressOf symbol (.pointer s))
  | other => refuse (.unsupported (.addressOf other symbol.name)) span

/-- The address of a place: of a variable its own, of anything else the pointer it was reached by. -/
def placeAddress (place : Place) (span : Span) : Except Error Typed.Expr :=
  match place with
  | .object symbol => variableAddress symbol span
  | .pointee address _ => .ok address

/-- A step of a variable that holds an integer or a pointer. -/
def step (env : Env) (operand : Ast.Expr) (increment after : Bool) (span : Span) :
    Except Error Typed.Expr := do
  match operand with
  | .name name _ =>
    let symbol ← env.object name span
    if symbol.type.isInteger ∨ symbol.type.isPointer then return .step symbol increment after
    else refuse (.invalidOperation (if increment then "++" else "--") symbol.type) span
  | _ => refuse (.unsupported .stepOfNonVariable) span

/-- The value that a compound assignment stores, from its place and its checked right operand. -/
def compoundValue (op : BinaryOp) (symbol : Symbol) (operand : Typed.Expr) (span : Span) :
    Except Error Typed.Expr :=
  binary op (.load (.object symbol)) operand span

mutual

/-- Check an expression; it may be `void`, as a call at the start of a statement can be. -/
def expr (env : Env) : Ast.Expr → Except Error Typed.Expr
  | .literal v _ => .ok (.literal v)
  | .name name span => do return .load (.object (← env.object name span))
  | .binary op left right span => do
    let left ← expr env left >>= nonVoid left.span
    let right ← expr env right >>= nonVoid right.span
    binary op left right span
  | .unary op operand span => do
    match op with
    | .plus => arithmeticUnary .plus (← expr env operand >>= nonVoid operand.span) span
    | .minus => arithmeticUnary .minus (← expr env operand >>= nonVoid operand.span) span
    | .bitNot => arithmeticUnary .bitNot (← expr env operand >>= nonVoid operand.span) span
    | .logicalNot =>
      return .unary .logicalNot (← expr env operand >>= nonVoid operand.span) .long
    | .dereference =>
      return .load (← dereference (← expr env operand >>= nonVoid operand.span) span)
    | .addressOf => addressOf env operand span
    | .preIncrement => step env operand true false span
    | .postIncrement => step env operand true true span
    | .preDecrement => step env operand false false span
    | .postDecrement => step env operand false true span
  | .assign op target value span => do
    let target ← place env target
    match op, target with
    | .assign, target =>
      let value ← expr env value >>= nonVoid value.span
      return .assign target (← coerce value target.type span)
    | .compound op, .object symbol =>
      let operand ← expr env value >>= nonVoid value.span
      let result ← compoundValue op symbol operand span
      return .assign (.object symbol) (← coerce result symbol.type span)
    | .compound op, .pointee _ _ =>
      refuse (.unsupported (.compoundThroughPointer (.compound op))) span
  | .call name args span => do
    let signature ← env.function name span
    if args.length ≠ signature.parameters.length then
      refuse (.argumentCount name signature.parameters.length args.length) span
    else
      let values ← arguments env args signature.parameters
      return .call name values signature.result
  | .index array index span => do
    let base ← expr env array >>= nonVoid array.span
    let index ← expr env index >>= nonVoid index.span
    return .load (← element base index span)
  | .cast type operand span => do
    let target ← type.resolve span
    let value ← expr env operand >>= nonVoid operand.span
    match value.valueType, target with
    | .scalar source, .scalar target => return convert value source target
    | source, target =>
      if source = target then return value
      else refuse (.unsupported (.cast source target)) span

/-- Check the target of an assignment. -/
def place (env : Env) : Ast.Expr → Except Error Place
  | .name name span => do
    let symbol ← env.object name span
    if symbol.type.isArray then refuse .notAssignable span else return .object symbol
  | .unary .dereference operand span => do
    dereference (← expr env operand >>= nonVoid operand.span) span
  | .index array index span => do
    let base ← expr env array >>= nonVoid array.span
    let index ← expr env index >>= nonVoid index.span
    element base index span
  | e => refuse .notAssignable e.span

/-- Check the operand of `&`. -/
def addressOf (env : Env) (operand : Ast.Expr) (span : Span) : Except Error Typed.Expr :=
  match operand with
  | .name name _ => do variableAddress (← env.object name span) span
  | .unary .dereference pointer _ => do
    let address ← expr env pointer >>= nonVoid pointer.span
    placeAddress (← dereference address span) span
  | .index array index _ => do
    let base ← expr env array >>= nonVoid array.span
    let index ← expr env index >>= nonVoid index.span
    placeAddress (← element base index span) span
  | _ => refuse .notAssignable span

/-- Check arguments and convert each to the type of its parameter. -/
def arguments (env : Env) : List Ast.Expr → List CType → Except Error (List Typed.Expr)
  | arg :: args, type :: types => do
    let value ← expr env arg >>= nonVoid arg.span
    let value ← coerce value type arg.span
    let values ← arguments env args types
    return value :: values
  | _, _ => .ok []

end

/-- Check an expression that is used for its value. -/
def value (env : Env) (e : Ast.Expr) : Except Error Typed.Expr :=
  expr env e >>= nonVoid e.span

end MiniC.Typing
