import MiniC.Location
import MiniC.Operator
import MiniC.Symbol
import MiniC.Value

/-!
# Programs with types

The tree that checking builds and code is generated from. Every name is resolved to an object with
its storage, every conversion is a node of its own, and pointer arithmetic is scaled explicitly.
Statements keep the place they came from, for diagnostics.
-/

set_option autoImplicit false

namespace MiniC.Typed

mutual

/-- An object that an expression reads or writes. -/
inductive Place where
  | object (symbol : Symbol)
  /-- The object at `address`, a value of type `pointer`. -/
  | pointee (address : Expr) (pointer : CType)

/-- An expression with its type, given or computed by `Expr.type`. -/
inductive Expr where
  | literal (value : Value)
  /-- The value of an object. Reading an array gives its address, but the node keeps the array
  type, so that the length can still be seen. -/
  | load (source : Place)
  | addressOf (target : Symbol) (type : CType)
  | unary (op : UnaryOp) (operand : Expr) (type : CType)
  /-- An operation on two operands of one type. -/
  | binary (op : BinaryOp) (left right : Expr) (type : CType)
  /-- `&&` or `||`, a `long` that is zero or one. -/
  | logical (op : BinaryOp) (left right : Expr)
  /-- The value is the one stored. -/
  | assign (target : Place) (value : Expr)
  /-- `++` or `--`; the value is the one after the step unless `after` says that the operator
  stands after the operand, when it is the one before. -/
  | step (target : Symbol) (increment after : Bool)
  | call (name : String) (arguments : List Expr) (type : CType)
  | convert (operand : Expr) (source target : Scalar)
  /-- A pointer moved by a number of elements, a `long`. -/
  | offset (pointer count : Expr) (element : Scalar) (subtract : Bool)

end

instance : Inhabited Expr := ⟨.literal default⟩

/-- The type of the object. -/
def Place.type : Place → CType
  | object s => s.type
  | pointee _ pointer =>
    match pointer.element? with
    | some e => .scalar e
    | none => .void

namespace Expr

/-- The type of the expression. -/
def type : Expr → CType
  | literal v => v.type
  | load p => p.type
  | addressOf _ t => t
  | unary _ _ t => t
  | binary _ _ _ t => t
  | logical _ _ _ => .long
  | assign p _ => p.type
  | step s _ _ => s.type
  | call _ _ t => t
  | convert _ _ target => .scalar target
  | offset _ _ e _ => .pointer e

/-- The type of the expression as a value: an array counts as a pointer. -/
def valueType (e : Expr) : CType := e.type.decay

end Expr

/-- What a local object is initialized with. -/
inductive LocalInit where
  | scalar (value : Expr)
  /-- The leading elements of an array; the others are zero. -/
  | elements (values : List Expr)

inductive Stmt where
  | block (body : List Stmt)
  | print (value : Expr) (place : Location)
  | declare (symbol : Symbol) (init : Option LocalInit) (place : Location)
  | expr (e : Expr) (place : Location)
  | cond (condition : Expr) (thenBranch : Stmt) (elseBranch : Option Stmt) (place : Location)
  | whileLoop (condition : Expr) (body : Stmt) (place : Location)
  | forLoop (init : Option Stmt) (condition update : Option Expr) (body : Stmt) (place : Location)
  | ret (value : Option Expr) (place : Location)
  | empty

instance : Inhabited Stmt := ⟨.empty⟩

/-- An object of the data section. -/
structure Global where
  symbol : Symbol
  init : Option Constant
  place : Location

/-- A function with a body. -/
structure Function where
  routine : Routine
  parameters : List Symbol
  body : List Stmt
  place : Location

/-- Global objects in the order of their declarations, and functions in the order of their
definitions. -/
structure Program where
  globals : List Global := []
  functions : List Function := []

end MiniC.Typed
