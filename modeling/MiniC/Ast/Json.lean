import MiniC.Ast
import MiniC.Json

/-!
# Programs as JSON

The tree of a program as a JSON value, for tools that read it. A node is a record of its kind and
its range of source; a kind with parts is its name over a record of them.
-/

set_option autoImplicit false

namespace MiniC

/-- How the leaves of a tree are written. -/
structure TreeStyle where
  span : Span → Json
  float : Float → Json

/-- The file, line and column of a place. -/
def Location.toJson (l : Location) : Json :=
  .record [("filename", .str l.file), ("line", .int l.line), ("column", .int l.column)]

/-- Ranges with both places in full, and floats as numbers. -/
def TreeStyle.full : TreeStyle where
  span s := .record [("start", s.start.toJson), ("end", s.stop.toJson)]
  float x := .float x

/-- A constant under the name of its type. -/
def Value.toJson (style : TreeStyle) : Value → Json
  | int v => .tagged "Int" (.int v.toInt)
  | char v => .tagged "Char" (.int v.toNat)
  | long v => .tagged "Long" (.int v.toInt)
  | float x => .tagged "Float" (style.float x)
  | str s => .tagged "Str" (.str s)

def BinaryOp.treeName : BinaryOp → String
  | add => "Add"
  | sub => "Sub"
  | mul => "Mul"
  | div => "Div"
  | mod => "Mod"
  | bitAnd => "BitAnd"
  | bitOr => "BitOr"
  | bitXor => "BitXor"
  | leftShift => "LeftShift"
  | rightShift => "RightShift"
  | logicalAnd => "LogicalAnd"
  | logicalOr => "LogicalOr"
  | equal => "Equal"
  | notEqual => "NotEqual"
  | less => "Less"
  | greater => "Greater"
  | lessEqual => "LessEqual"
  | greaterEqual => "GreaterEqual"

def UnaryOp.treeName : UnaryOp → String
  | plus => "Plus"
  | minus => "Minus"
  | bitNot => "BitNot"
  | logicalNot => "LogicalNot"
  | dereference => "Dereference"
  | addressOf => "AddressOf"
  | preIncrement => "PreIncrement"
  | postIncrement => "PostIncrement"
  | preDecrement => "PreDecrement"
  | postDecrement => "PostDecrement"

def AssignOp.toJson : AssignOp → Json
  | assign => .str "Assign"
  | compound op => .tagged "Compound" (.str op.treeName)

namespace Ast

def BaseType.treeName : BaseType → String
  | void => "Void"
  | char => "Char"
  | int => "Int"
  | long => "Long"
  | float => "Float"

def TypeName.toJson (t : TypeName) : Json :=
  .record [("base", .str t.base.treeName), ("pointer_depth", .int t.pointerDepth),
    ("array_length", .optional (fun n => .int (n : Nat)) t.arrayLength)]

/-- A node of a kind that has parts. -/
def node (style : TreeStyle) (kind : String) (parts : Json) (s : Span) : Json :=
  .record [("kind", .tagged kind parts), ("span", style.span s)]

mutual

def Expr.toJson (style : TreeStyle) : Expr → Json
  | .literal v s => node style "Literal" (v.toJson style) s
  | .name n s => node style "Identifier" (.str n) s
  | .binary op l r s =>
    node style "Binary" (.record
      [("op", .str op.treeName), ("left", l.toJson style), ("right", r.toJson style)]) s
  | .unary op e s =>
    node style "Unary" (.record [("op", .str op.treeName), ("operand", e.toJson style)]) s
  | .assign op t v s =>
    node style "Assignment" (.record
      [("op", op.toJson), ("target", t.toJson style), ("value", v.toJson style)]) s
  | .call f args s =>
    node style "Call" (.record
      [("function", .str f), ("arguments", .list (exprsToJson style args))]) s
  | .index a i s =>
    node style "Index" (.record [("array", a.toJson style), ("index", i.toJson style)]) s
  | .cast t e s =>
    node style "Cast" (.record [("target_type", t.toJson), ("operand", e.toJson style)]) s

/-- Each of some expressions. -/
def exprsToJson (style : TreeStyle) : List Expr → List Json
  | [] => []
  | e :: es => e.toJson style :: exprsToJson style es

end

mutual

def Initializer.toJson (style : TreeStyle) : Initializer → Json
  | .expr e => .tagged "Expression" (e.toJson style)
  | .list items s =>
    .tagged "List" (.record
      [("items", .list (initializersToJson style items)), ("span", style.span s)])

/-- Each of some initializers. -/
def initializersToJson (style : TreeStyle) : List Initializer → List Json
  | [] => []
  | i :: is => i.toJson style :: initializersToJson style is

end

def Declaration.toJson (style : TreeStyle) (d : Declaration) : Json :=
  .record [("name", .str d.name), ("decl_type", d.type.toJson),
    ("initializer", .optional (·.toJson style) d.init), ("span", style.span d.span)]

/-- Each of some declarations. -/
def declarationsToJson (style : TreeStyle) (ds : List Declaration) : Json :=
  .list (ds.map (·.toJson style))

mutual

def Stmt.toJson (style : TreeStyle) : Stmt → Json
  | .expr e s => node style "Expression" (e.toJson style) s
  | .block body s => node style "Compound" (.list (stmtsToJson style body)) s
  | .declare ds s => node style "Declaration" (declarationsToJson style ds) s
  | .print e s => node style "Print" (e.toJson style) s
  | .cond c t e s =>
    node style "If" (.record
      [("condition", c.toJson style), ("then_stmt", t.toJson style),
        ("else_stmt", optionalStmtToJson style e)]) s
  | .whileLoop c b s =>
    node style "While" (.record [("condition", c.toJson style), ("body", b.toJson style)]) s
  | .forLoop i c u b s =>
    node style "For" (.record
      [("init", optionalStmtToJson style i), ("condition", .optional (·.toJson style) c),
        ("update", .optional (·.toJson style) u), ("body", b.toJson style)]) s
  | .ret v s => node style "Return" (.optional (·.toJson style) v) s
  | .empty s => .record [("kind", .str "Empty"), ("span", style.span s)]

/-- Each of some statements. -/
def stmtsToJson (style : TreeStyle) : List Stmt → List Json
  | [] => []
  | s :: ss => s.toJson style :: stmtsToJson style ss

/-- A statement that may be missing. -/
def optionalStmtToJson (style : TreeStyle) : Option Stmt → Json
  | none => .null
  | some s => s.toJson style

end

def Parameter.toJson (style : TreeStyle) (p : Parameter) : Json :=
  .record [("name", .str p.name), ("param_type", p.type.toJson), ("span", style.span p.span)]

def Function.toJson (style : TreeStyle) (f : Function) : Json :=
  .record [("name", .str f.name), ("return_type", f.result.toJson),
    ("parameters", .list (f.parameters.map (·.toJson style))),
    ("body", .optional (·.toJson style) f.body), ("span", style.span f.span)]

def Item.toJson (style : TreeStyle) : Item → Json
  | function f => .tagged "Function" (f.toJson style)
  | declare ds => .tagged "Declaration" (declarationsToJson style ds)

def Program.toJson (style : TreeStyle) (p : Program) : Json :=
  .record [("items", .list (p.items.map (·.toJson style))), ("span", style.span p.span)]

end Ast

end MiniC
