import MiniC.Location
import MiniC.Operator
import MiniC.Value

/-!
# Programs as they are written

The tree that the parser builds. Names are not resolved and nothing has a type yet; every node
carries the range of source it was read from. Parentheses leave no node: they only widen the range
of the expression inside.
-/

set_option autoImplicit false

namespace MiniC.Ast

/-- The keyword at the start of a type. `double` is another spelling of `float`. -/
inductive BaseType where
  | void
  | char
  | int
  | long
  | float
deriving DecidableEq, Repr, Inhabited

def BaseType.text : BaseType → String
  | void => "void"
  | char => "char"
  | int => "int"
  | long => "long"
  | float => "float"

/-- A type as written: a keyword, stars, and the length of an array. -/
structure TypeName where
  base : BaseType
  pointerDepth : Nat := 0
  arrayLength : Option Nat := none
deriving DecidableEq, Repr, Inhabited

def TypeName.text (t : TypeName) : String :=
  let stars := String.ofList (List.replicate t.pointerDepth '*')
  match t.arrayLength with
  | none => t.base.text ++ stars
  | some n => t.base.text ++ stars ++ "[" ++ toString n ++ "]"

inductive Expr where
  | literal (value : Value) (span : Span)
  | name (name : String) (span : Span)
  | binary (op : BinaryOp) (left right : Expr) (span : Span)
  | unary (op : UnaryOp) (operand : Expr) (span : Span)
  | assign (op : AssignOp) (target value : Expr) (span : Span)
  | call (function : String) (arguments : List Expr) (span : Span)
  | index (array index : Expr) (span : Span)
  | cast (type : TypeName) (operand : Expr) (span : Span)
deriving Repr, Inhabited

namespace Expr

def span : Expr → Span
  | literal _ s => s
  | name _ s => s
  | binary _ _ _ s => s
  | unary _ _ s => s
  | assign _ _ _ s => s
  | call _ _ s => s
  | index _ _ s => s
  | cast _ _ s => s

/-- The same expression read from another range, as when parentheses surround it. -/
def withSpan (s : Span) : Expr → Expr
  | literal v _ => literal v s
  | name n _ => name n s
  | binary op l r _ => binary op l r s
  | unary op e _ => unary op e s
  | assign op t v _ => assign op t v s
  | call f args _ => call f args s
  | index a i _ => index a i s
  | cast t e _ => cast t e s

end Expr

/-- What an object is initialized with: an expression, or a list in braces. -/
inductive Initializer where
  | expr (e : Expr)
  | list (items : List Initializer) (span : Span)
deriving Repr, Inhabited

def Initializer.span : Initializer → Span
  | expr e => e.span
  | list _ s => s

/-- One declared object. -/
structure Declaration where
  name : String
  type : TypeName
  init : Option Initializer
  span : Span
deriving Repr, Inhabited

inductive Stmt where
  | expr (e : Expr) (span : Span)
  | block (body : List Stmt) (span : Span)
  /-- A statement may declare several objects. -/
  | declare (declarations : List Declaration) (span : Span)
  | print (e : Expr) (span : Span)
  | cond (condition : Expr) (thenBranch : Stmt) (elseBranch : Option Stmt) (span : Span)
  | whileLoop (condition : Expr) (body : Stmt) (span : Span)
  | forLoop (init : Option Stmt) (condition update : Option Expr) (body : Stmt) (span : Span)
  | ret (value : Option Expr) (span : Span)
  | empty (span : Span)
deriving Repr, Inhabited

def Stmt.span : Stmt → Span
  | expr _ s => s
  | block _ s => s
  | declare _ s => s
  | print _ s => s
  | cond _ _ _ s => s
  | whileLoop _ _ s => s
  | forLoop _ _ _ _ s => s
  | ret _ s => s
  | empty s => s

structure Parameter where
  name : String
  type : TypeName
  span : Span
deriving Repr, Inhabited

/-- A function definition, or only its prototype when it has no body. -/
structure Function where
  name : String
  result : TypeName
  parameters : List Parameter
  body : Option Stmt
  span : Span
deriving Repr, Inhabited

/-- What stands at the top level of a file. -/
inductive Item where
  | function (f : Function)
  | declare (declarations : List Declaration)
deriving Repr, Inhabited

/-- A whole source file. -/
structure Program where
  items : List Item
  span : Span
deriving Repr, Inhabited

end MiniC.Ast
