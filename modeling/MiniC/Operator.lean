/-!
# Operators

The operators of the language as the source writes them.
-/

set_option autoImplicit false

namespace MiniC

/-- Operators with two operands. -/
inductive BinaryOp where
  | add
  | sub
  | mul
  | div
  | mod
  | bitAnd
  | bitOr
  | bitXor
  | leftShift
  | rightShift
  | logicalAnd
  | logicalOr
  | equal
  | notEqual
  | less
  | greater
  | lessEqual
  | greaterEqual
deriving DecidableEq, Repr, Inhabited

namespace BinaryOp

/-- Whether the operator compares its operands. -/
def isRelational : BinaryOp → Bool
  | equal | notEqual | less | greater | lessEqual | greaterEqual => true
  | _ => false

/-- Whether the operator may leave its right operand unevaluated. -/
def isLogical : BinaryOp → Bool
  | logicalAnd | logicalOr => true
  | _ => false

/-- Whether the operator is defined on integers only. -/
def isIntegerOnly : BinaryOp → Bool
  | mod | bitAnd | bitOr | bitXor | leftShift | rightShift => true
  | _ => false

def text : BinaryOp → String
  | add => "+"
  | sub => "-"
  | mul => "*"
  | div => "/"
  | mod => "%"
  | bitAnd => "&"
  | bitOr => "|"
  | bitXor => "^"
  | leftShift => "<<"
  | rightShift => ">>"
  | logicalAnd => "&&"
  | logicalOr => "||"
  | equal => "=="
  | notEqual => "!="
  | less => "<"
  | greater => ">"
  | lessEqual => "<="
  | greaterEqual => ">="

end BinaryOp

/-- Operators whose value is computed from both operands. -/
inductive ArithOp where
  | add
  | sub
  | mul
  | div
  | mod
  | bitAnd
  | bitOr
  | bitXor
  | shl
  | shr
deriving DecidableEq, Repr, Inhabited

/-- What the operation is called in words. -/
def ArithOp.name : ArithOp → String
  | add => "add"
  | sub => "subtract"
  | mul => "multiply"
  | div => "divide"
  | mod => "modulo"
  | bitAnd => "and"
  | bitOr => "or"
  | bitXor => "xor"
  | shl => "shift-left"
  | shr => "shift-right"

/-- The operation of an operator, unless it compares or is logical. -/
def BinaryOp.arith? : BinaryOp → Option ArithOp
  | add => some .add
  | sub => some .sub
  | mul => some .mul
  | div => some .div
  | mod => some .mod
  | bitAnd => some .bitAnd
  | bitOr => some .bitOr
  | bitXor => some .bitXor
  | leftShift => some .shl
  | rightShift => some .shr
  | _ => none

/-- How two numbers may compare. -/
inductive Relation where
  | eq
  | ne
  | lt
  | le
  | gt
  | ge
deriving DecidableEq, Repr, Inhabited

/-- The relation of two integers that holds when this one does not. -/
def Relation.negate : Relation → Relation
  | eq => ne
  | ne => eq
  | lt => ge
  | ge => lt
  | le => gt
  | gt => le

/-- The relation that an operator asks about, if it compares. -/
def BinaryOp.relation? : BinaryOp → Option Relation
  | equal => some .eq
  | notEqual => some .ne
  | less => some .lt
  | lessEqual => some .le
  | greater => some .gt
  | greaterEqual => some .ge
  | _ => none

/-- Operators with one operand, before or after it. -/
inductive UnaryOp where
  | plus
  | minus
  | bitNot
  | logicalNot
  | dereference
  | addressOf
  | preIncrement
  | postIncrement
  | preDecrement
  | postDecrement
deriving DecidableEq, Repr, Inhabited

def UnaryOp.text : UnaryOp → String
  | plus => "+"
  | minus => "-"
  | bitNot => "~"
  | logicalNot => "!"
  | dereference => "*"
  | addressOf => "&"
  | preIncrement => "++"
  | postIncrement => "++"
  | preDecrement => "--"
  | postDecrement => "--"

/-- Operators whose value is computed from their one operand. -/
inductive ValueOp where
  | negate
  /-- The complement of every bit. -/
  | invert
  /-- Whether the operand is zero, as a zero or a one. -/
  | not
deriving DecidableEq, Repr, Inhabited

/-- The computation of an operator, if it only computes. -/
def UnaryOp.value? : UnaryOp → Option ValueOp
  | minus => some .negate
  | bitNot => some .invert
  | logicalNot => some .not
  | _ => none

/-- Assignment, plain or combined with an operator. -/
inductive AssignOp where
  | assign
  | compound (op : BinaryOp)
deriving DecidableEq, Repr, Inhabited

def AssignOp.text : AssignOp → String
  | assign => "="
  | compound op => op.text ++ "="

end MiniC
