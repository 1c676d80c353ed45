import MiniC.Ast
import MiniC.Ast.Parser.Basic

/-!
# Parsing expressions

Binary operators have ten levels of precedence, one to ten, and associate to the left; they are read
by climbing: an operator of level `p` takes as its right operand what binds tighter than `p`.
Assignment binds more loosely than all of them and associates to the right. The target of an
assignment can be any expression here; whether it can be assigned to is checked later.
-/

set_option autoImplicit false

namespace MiniC.Parser

open Ast

variable {n : Nat}

/-- The level and the operator of a token between two operands. A higher level binds tighter. -/
def binaryOperator? : TokenKind → Option (Nat × BinaryOp)
  | .punct .pipePipe => some (1, .logicalOr)
  | .punct .ampersandAmpersand => some (2, .logicalAnd)
  | .punct .pipe => some (3, .bitOr)
  | .punct .caret => some (4, .bitXor)
  | .punct .ampersand => some (5, .bitAnd)
  | .punct .equalEqual => some (6, .equal)
  | .punct .bangEqual => some (6, .notEqual)
  | .punct .less => some (7, .less)
  | .punct .lessEqual => some (7, .lessEqual)
  | .punct .greater => some (7, .greater)
  | .punct .greaterEqual => some (7, .greaterEqual)
  | .punct .leftShift => some (8, .leftShift)
  | .punct .rightShift => some (8, .rightShift)
  | .punct .plus => some (9, .add)
  | .punct .minus => some (9, .sub)
  | .punct .star => some (10, .mul)
  | .punct .slash => some (10, .div)
  | .punct .percent => some (10, .mod)
  | _ => none

/-- The operator of a token between a target and a value. -/
def assignOperator? : TokenKind → Option AssignOp
  | .punct .equal => some .assign
  | .punct .plusEqual => some (.compound .add)
  | .punct .minusEqual => some (.compound .sub)
  | .punct .starEqual => some (.compound .mul)
  | .punct .slashEqual => some (.compound .div)
  | .punct .percentEqual => some (.compound .mod)
  | _ => none

/-- The operator of a token in front of its operand. -/
def unaryOperator? : TokenKind → Option UnaryOp
  | .punct .plus => some .plus
  | .punct .minus => some .minus
  | .punct .bang => some .logicalNot
  | .punct .tilde => some .bitNot
  | .punct .star => some .dereference
  | .punct .ampersand => some .addressOf
  | .punct .plusPlus => some .preIncrement
  | .punct .minusMinus => some .preDecrement
  | _ => none

/-- The operator of a token after its operand. -/
def stepOperator? : TokenKind → Option UnaryOp
  | .punct .plusPlus => some .postIncrement
  | .punct .minusMinus => some .postDecrement
  | _ => none

/-- The constant of a literal token. -/
def literal? : TokenKind → Option Value
  | .intLit v => some (.int v.toInt32)
  | .longLit v => some (.long v)
  | .floatLit v => some (.float v)
  | .charLit c => some (.char c)
  | .stringLit s => some (.str s)
  | _ => none

/-- The type that a keyword names. -/
def baseType? : TokenKind → Option BaseType
  | .keyword .void => some .void
  | .keyword .char => some .char
  | .keyword .int => some .int
  | .keyword .long => some .long
  | .keyword .float => some .float
  | .keyword .double => some .float
  | _ => none

/-- Take a type keyword, which must come next. -/
def baseType : Parser n BaseType := do
  match baseType? (← peek).kind with
  | some base =>
    let _ ← advance
    return base
  | none => unexpected .typeName

/-- One level of pointers more. The depth is kept in a byte, and going past it is an overflow. -/
def deepen (depth : Nat) : Parser n Nat :=
  if depth + 1 < UInt8.size then return depth + 1 else throw .overflow

/-- Take the stars that come next, with so many counted before. -/
def starsFrom (depth : Nat) : (n : Nat) → Parser n Nat
  | 0 => return depth
  | n + 1 => do
    if ← at? .star then
      take fun _ => do
        let depth ← deepen depth
        starsFrom depth n
    else return depth

/-- Take the stars of a type, which are as many as there are. -/
def stars (n : Nat) : Parser n Nat := starsFrom 0 n

mutual

/-- An expression, assignments included. -/
def expr (n : Nat) : Parser n Expr := do
  let target ← binary n 1
  assignment n target
termination_by (n, 5)

/-- The rest of an assignment, once its target is read; without an assignment operator the target
is all there is. -/
def assignment : (n : Nat) → Expr → Parser n Expr
  | 0, target => return target
  | n + 1, target => do
    match assignOperator? (← peek).kind with
    | none => return target
    | some op =>
      take fun _ => do
        let value ← expr n
        return .assign op target value (target.span.extend value.span)
termination_by n => (n, 0)

/-- Operands joined by operators of at least the level `least`. -/
def binary (n : Nat) (least : Nat) : Parser n Expr := do
  let left ← unary n
  climb n least left
termination_by (n, 4)

/-- Go on an operand with operators of at least the level `least`. -/
def climb : (n : Nat) → Nat → Expr → Parser n Expr
  | 0, _, left => return left
  | n + 1, least, left => do
    match binaryOperator? (← peek).kind with
    | none => return left
    | some (level, op) =>
      if level < least then return left
      else
        take fun _ => do
          let right ← binary n (level + 1)
          climb n least (.binary op left right (left.span.extend right.span))
termination_by n => (n, 0)

/-- An operand with the operators and casts in front of it. A parenthesis begins a cast when a type
keyword follows it. -/
def unary : (n : Nat) → Parser n Expr
  | 0 => unexpected .expression
  | n + 1 => do
    let first ← peek
    match unaryOperator? first.kind with
    | some op =>
      take fun _ => do
        let operand ← unary n
        return .unary op operand (first.span.extend operand.span)
    | none =>
      if first.kind.isPunct .leftParen && (← peekSecond).kind.isTypeKeyword then
        take fun _ => do
          let base ← baseType
          let depth ← stars n
          let _ ← expect .rightParen "cast"
          let operand ← unary n
          return .cast ⟨base, depth, none⟩ operand (first.span.extend operand.span)
      else do
        let operand ← primary (n + 1)
        suffixes (n + 1) operand
termination_by n => (n, 3)

/-- Go on an operand with indices and steps. -/
def suffixes : (n : Nat) → Expr → Parser n Expr
  | 0, operand => return operand
  | n + 1, operand => do
    let first ← peek
    if first.kind.isPunct .leftBracket then
      take fun _ => do
        let index ← expr n
        let close ← expect .rightBracket "array index"
        suffixes n (.index operand index (operand.span.extend close.span))
    else
      match stepOperator? first.kind with
      | some op => take fun _ => suffixes n (.unary op operand (operand.span.extend first.span))
      | none => return operand
termination_by n => (n, 0)

/-- A literal, a name, a call, or an expression in parentheses. -/
def primary : (n : Nat) → Parser n Expr
  | 0 => unexpected .expression
  | n + 1 => do
    let first ← peek
    match literal? first.kind, first.kind with
    | some value, _ => take fun _ => return .literal value first.span
    | none, .identifier name => take fun _ => named n name first.span
    | none, .punct .leftParen =>
      take fun _ => do
        let inner ← expr n
        let close ← expect .rightParen "parenthesized expression"
        return inner.withSpan (first.span.extend close.span)
    | none, _ => unexpected .expression
termination_by n => (n, 2)

/-- A name that has been read: a call if a parenthesis follows. -/
def named : (n : Nat) → String → Span → Parser n Expr
  | 0, name, span => return .name name span
  | n + 1, name, span => do
    if ← at? .leftParen then
      take fun _ => do
        let arguments ← if ← at? .rightParen then pure [] else arguments n
        let close ← expect .rightParen "function call"
        return .call name arguments (span.extend close.span)
    else return .name name span
termination_by n => (n, 0)

/-- One or more arguments. -/
def arguments (n : Nat) : Parser n (List Expr) := do
  let first ← expr n
  moreArguments n first
termination_by (n, 6)

/-- The arguments after one that has been read. -/
def moreArguments : (n : Nat) → Expr → Parser n (List Expr)
  | 0, first => return [first]
  | n + 1, first => do
    if ← at? .comma then
      take fun _ => do
        let others ← arguments n
        return first :: others
    else return [first]
termination_by n => (n, 0)

end

end MiniC.Parser
