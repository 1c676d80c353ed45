import MiniC.Emit.Compute
import MiniC.Emit.Linkage
import MiniC.Typed

/-!
# Code of expressions

The code of an expression leaves its value in a register that was free before, and changes no other
register that is taken. Operands are computed from left to right, the left one staying in its
register while the right one is computed.

| expression | code |
| --- | --- |
| `a op b` | `a`; `b`; the operation |
| `a && b` | `a`; if zero to `short`; `b`; if zero to `short`; 1; to `end`; `short:` 0; `end:` |
| `x = a` | `a`; store into `x` |
| `*p = a` | `a`; `p`; store |
| `f(a)` | `a` into its argument register; call |
| `f(a, b)` | `a`; push; `b`; push; pop both; call |
-/

set_option autoImplicit false

namespace MiniC.Lower

open Emit

/-- How a logical operator ends early: by a test of an operand against zero, with a value. -/
structure ShortCircuit where
  /-- The kind of its labels. -/
  kind : String
  /-- How an operand that decides compares with zero. -/
  test : Relation
  /-- The value when an operand decides. -/
  value : Int64

/-- How a logical operator ends early. -/
def shortCircuit? : BinaryOp → Option ShortCircuit
  | .logicalAnd => some ⟨"and", .eq, 0⟩
  | .logicalOr => some ⟨"or", .ne, 1⟩
  | _ => none

/-- Combine two operands. -/
def combine (op : BinaryOp) (left right : Reg) : Emit Reg :=
  match op.relation?, op.arith? with
  | some relation, _ => compare relation left right
  | none, some op => binary op left right
  | none, none => throw (.unsupported (.notArithmetic op))

mutual

/-- Compute an expression into a register. -/
def expr : Typed.Expr → Emit Reg
  | .literal value => loadImmediate value
  | .load (.object s) => loadSymbol s
  | .load (.pointee address type) => do
    let r ← expr address
    dereference r type
  | .addressOf s _ => addressOf s
  | .unary op operand _ =>
    match op.value? with
    | none => throw (.unsupported (.notValue op))
    | some op => do
      let r ← expr operand
      unary op r
  | .binary op left right _ => do
    let l ← expr left
    let r ← expr right
    combine op l r
  | .logical op left right =>
    match shortCircuit? op with
    | none => throw (.unsupported (.notLogical op))
    | some s => do
      let id ← freshId s.kind
      let short := controlLabel s.kind id "short"
      let stop := controlLabel s.kind id "end"
      let l ← expr left
      testAndJump s.test l short
      let r ← expr right
      testAndJump s.test r short
      let result ← loadImmediate (.long (1 - s.value))
      jump stop
      label short
      moveImmediate result s.value
      label stop
      return result
  | .assign (.object s) value => do
    let r ← expr value
    storeSymbol r s
    return r
  | .assign (.pointee address type) value => do
    let r ← expr value
    let a ← expr address
    storeIndirect r a type
    return r
  | .step s increment after => step s increment after
  | .call name arguments type => do
    match ← call name type arguments with
    | some r => return r
    | none => throw (.misuse (.voidValue name))
  | .convert operand source target => do
    let r ← expr operand
    convert r source target
  | .offset pointer count element subtract => do
    let base ← expr pointer
    let index ← expr count
    let index ← if subtract then unary .negate index else pure index
    elementAddress base index element

/-- Call a function. The result is in a register unless it is `void`. -/
def call (name : String) (type : CType) : List Typed.Expr → Emit (Option Reg)
  | [] => callFunction name none type
  | [argument] => do
    let r ← expr argument
    callFunction name (some r) type
  | first :: others => do
    let r ← expr first
    pushArgument r
    let views ← pushAll others
    callPushed name (r.view :: views) type

/-- Compute and push arguments, and give the types they are held as. -/
def pushAll : List Typed.Expr → Emit (List Scalar)
  | [] => return []
  | argument :: arguments => do
    let r ← expr argument
    pushArgument r
    let views ← pushAll arguments
    return r.view :: views

end

/-- Compute an expression and drop its value. -/
def discard (e : Typed.Expr) : Emit Unit := do
  match e with
  | .call name arguments type =>
    match ← call name type arguments with
    | some r => free r
    | none => pure ()
  | e => free (← expr e)

/-- Jump to `target` if a condition does not hold, and go on otherwise. Comparisons decide the jump
without a value of their own. The negation of a float comparison is no comparison, because of NaNs,
so such a condition jumps over a jump to `target`. -/
def condition (e : Typed.Expr) (target : String) : Emit Unit :=
  match e with
  | .binary op left right type =>
    match op.relation? with
    | none => do
      let r ← expr (.binary op left right type)
      jumpIfZero r target
    | some relation =>
      if left.type.isFloat then do
        let id ← freshId "fcmp"
        let taken := controlLabel "fcmp" id "true"
        let l ← expr left
        let r ← expr right
        compareAndJump relation l r taken
        jump target
        label taken
      else do
        let l ← expr left
        let r ← expr right
        compareAndJump relation.negate l r target
  | .logical .logicalAnd left right => do
    condition left target
    condition right target
  | .logical .logicalOr left right => do
    let id ← freshId "or"
    let taken := controlLabel "or" id "true"
    let l ← expr left
    jumpIfNotZero l taken
    condition right target
    label taken
  | e => do
    let r ← expr e
    jumpIfZero r target

end MiniC.Lower
