import MiniC.Ast
import MiniC.Token
import Mathlib

/-!
# Programs written out

`tokens` writes a tree as tokens. Every operand that is not a literal, a name or a call is put in
parentheses, so no precedence is relied on; everything else is written in the one way that the
language has for it, and a function without parameters with `void`.

Not every tree is one that tokens can spell: `Concrete` says which are.
-/

set_option autoImplicit false

namespace MiniC

/-! ### Words -/

def BinaryOp.punct : BinaryOp → Punct
  | add => .plus
  | sub => .minus
  | mul => .star
  | div => .slash
  | mod => .percent
  | bitAnd => .ampersand
  | bitOr => .pipe
  | bitXor => .caret
  | leftShift => .leftShift
  | rightShift => .rightShift
  | logicalAnd => .ampersandAmpersand
  | logicalOr => .pipePipe
  | equal => .equalEqual
  | notEqual => .bangEqual
  | less => .less
  | greater => .greater
  | lessEqual => .lessEqual
  | greaterEqual => .greaterEqual

def UnaryOp.punct : UnaryOp → Punct
  | plus => .plus
  | minus => .minus
  | bitNot => .tilde
  | logicalNot => .bang
  | dereference => .star
  | addressOf => .ampersand
  | preIncrement => .plusPlus
  | postIncrement => .plusPlus
  | preDecrement => .minusMinus
  | postDecrement => .minusMinus

/-- Whether the operator stands after its operand. -/
def UnaryOp.isAfter : UnaryOp → Bool
  | postIncrement | postDecrement => true
  | _ => false

/-- The word for an assignment; only five operators can be combined with one. -/
def AssignOp.punct? : AssignOp → Option Punct
  | assign => some .equal
  | compound .add => some .plusEqual
  | compound .sub => some .minusEqual
  | compound .mul => some .starEqual
  | compound .div => some .slashEqual
  | compound .mod => some .percentEqual
  | compound _ => none

/-- The literal of a constant. -/
def Value.token : Value → TokenKind
  | int v => .intLit v.toInt64
  | char v => .charLit v
  | long v => .longLit v
  | float v => .floatLit v
  | str s => .stringLit s

namespace Ast

def BaseType.keyword : BaseType → Keyword
  | void => .void
  | char => .char
  | int => .int
  | long => .long
  | float => .float

/-- The stars of a type. -/
def TypeName.stars (t : TypeName) : List TokenKind := List.replicate t.pointerDepth (.punct .star)

/-! ### Expressions -/

/-- Whether an expression needs no parentheses as an operand. -/
def Expr.isPrimary : Expr → Bool
  | literal .. | name .. | call .. => true
  | _ => false

/-- The tokens of an expression as those of an operand. -/
def Expr.wrap (e : Expr) (ts : List TokenKind) : List TokenKind :=
  if e.isPrimary then ts else .punct .leftParen :: (ts ++ [.punct .rightParen])

mutual

def Expr.tokens : Expr → List TokenKind
  | literal v _ => [v.token]
  | name n _ => [.identifier n]
  | binary op l r _ => l.wrap l.tokens ++ .punct op.punct :: r.wrap r.tokens
  | unary op e _ =>
    if op.isAfter then e.wrap e.tokens ++ [.punct op.punct]
    else .punct op.punct :: e.wrap e.tokens
  | assign op t v _ =>
    t.wrap t.tokens ++ .punct (op.punct?.getD .equal) :: v.wrap v.tokens
  | call f args _ =>
    .identifier f :: .punct .leftParen :: (Expr.argumentTokens args ++ [.punct .rightParen])
  | index a i _ =>
    a.wrap a.tokens ++ .punct .leftBracket :: (i.wrap i.tokens ++ [.punct .rightBracket])
  | cast t e _ =>
    .punct .leftParen :: .keyword t.base.keyword ::
      (t.stars ++ .punct .rightParen :: e.wrap e.tokens)

/-- Arguments with commas between them. -/
def Expr.argumentTokens : List Expr → List TokenKind
  | [] => []
  | [e] => e.wrap e.tokens
  | e :: e' :: es => e.wrap e.tokens ++ .punct .comma :: Expr.argumentTokens (e' :: es)

end

/-- A type that can be written without a length: a byte counts its stars. -/
structure TypeName.Plain (t : TypeName) : Prop where
  depth : t.pointerDepth ≤ 255
  single : t.arrayLength = none

inductive Expr.Concrete : Expr → Prop
  | literal (v : Value) (span : Span) : Concrete (.literal v span)
  | name (n : String) (span : Span) : Concrete (.name n span)
  | binary (op : BinaryOp) {l r : Expr} (span : Span) (hl : Concrete l) (hr : Concrete r) :
    Concrete (.binary op l r span)
  | unary (op : UnaryOp) {e : Expr} (span : Span) (he : Concrete e) : Concrete (.unary op e span)
  | assign {op : AssignOp} {t v : Expr} (span : Span) (hop : op.punct?.isSome) (ht : Concrete t)
    (hv : Concrete v) : Concrete (.assign op t v span)
  | call (f : String) {args : List Expr} (span : Span) (ha : ∀ a ∈ args, Concrete a) :
    Concrete (.call f args span)
  | index {a i : Expr} (span : Span) (ha : Concrete a) (hi : Concrete i) : Concrete (.index a i span)
  | cast {t : TypeName} {e : Expr} (span : Span) (ht : t.Plain) (he : Concrete e) :
    Concrete (.cast t e span)

/-! ### Declarations -/

mutual

def Initializer.tokens : Initializer → List TokenKind
  | expr e => e.tokens
  | list items _ => .punct .leftBrace :: (Initializer.itemTokens items ++ [.punct .rightBrace])

/-- Initializers with commas between them. -/
def Initializer.itemTokens : List Initializer → List TokenKind
  | [] => []
  | [i] => i.tokens
  | i :: i' :: is => i.tokens ++ .punct .comma :: Initializer.itemTokens (i' :: is)

end

/-- The length of an array in brackets. -/
def TypeName.lengthTokens (t : TypeName) : List TokenKind :=
  match t.arrayLength with
  | none => []
  | some n => [.punct .leftBracket, .intLit (Int64.ofNat n), .punct .rightBracket]

/-- What follows the name in a declaration. -/
def Declaration.tailTokens (d : Declaration) : List TokenKind :=
  d.type.lengthTokens ++
    match d.init with
    | none => []
    | some i => .punct .equal :: i.tokens

/-- A declared object without the word for its type. -/
def Declaration.tokens (d : Declaration) : List TokenKind :=
  d.type.stars ++ .identifier d.name :: d.tailTokens

/-- The declarations after the first one, with the semicolon that ends them. -/
def furtherTokens (ds : List Declaration) : List TokenKind :=
  ds.flatMap (fun d => .punct .comma :: d.tokens) ++ [.punct .semicolon]

/-- The declarations of one statement; their first one gives the word for their type. -/
def declarationTokens : List Declaration → List TokenKind
  | [] => []
  | d :: ds => .keyword d.type.base.keyword :: (d.tokens ++ furtherTokens ds)

inductive Initializer.Concrete : Initializer → Prop
  | expr {e : Expr} (he : e.Concrete) : Concrete (.expr e)
  | list {items : List Initializer} (span : Span) (hi : ∀ i ∈ items, Concrete i) :
    Concrete (.list items span)

structure Declaration.Concrete (d : Declaration) : Prop where
  depth : d.type.pointerDepth ≤ 255
  length : ∀ n ∈ d.type.arrayLength, 1 ≤ n ∧ n ≤ 0x7fffffff
  init : ∀ i ∈ d.init, i.Concrete

/-- Declarations that share the word for their type. -/
structure Declared (ds : List Declaration) : Prop where
  nonempty : ds ≠ []
  shared : ∀ d ∈ ds, ∀ d' ∈ ds, d.type.base = d'.type.base
  each : ∀ d ∈ ds, d.Concrete

/-! ### Statements -/

/-- The tokens of an expression, if there is one. -/
def optionTokens (e : Option Expr) : List TokenKind := (e.map Expr.tokens).getD []

mutual

def Stmt.tokens : Stmt → List TokenKind
  | expr e _ => e.tokens ++ [.punct .semicolon]
  | block body _ => .punct .leftBrace :: (Stmt.bodyTokens body ++ [.punct .rightBrace])
  | declare ds _ => declarationTokens ds
  | print e _ => .keyword .print :: (e.tokens ++ [.punct .semicolon])
  | cond c t e _ =>
    .keyword .if_ :: .punct .leftParen ::
      (c.tokens ++ .punct .rightParen :: (t.tokens ++ Stmt.elseTokens e))
  | whileLoop c b _ =>
    .keyword .while_ :: .punct .leftParen :: (c.tokens ++ .punct .rightParen :: b.tokens)
  | forLoop i c u b _ =>
    .keyword .for_ :: .punct .leftParen :: (Stmt.initTokens i ++ (optionTokens c ++
      .punct .semicolon :: (optionTokens u ++ .punct .rightParen :: b.tokens)))
  | ret v _ => .keyword .return_ :: (optionTokens v ++ [.punct .semicolon])
  | empty _ => [.punct .semicolon]

/-- Statements one after the other. -/
def Stmt.bodyTokens : List Stmt → List TokenKind
  | [] => []
  | s :: ss => s.tokens ++ Stmt.bodyTokens ss

/-- The `else` branch, if there is one. -/
def Stmt.elseTokens : Option Stmt → List TokenKind
  | none => []
  | some s => .keyword .else_ :: s.tokens

/-- The first clause of a `for`; the semicolon stands there without it, too. -/
def Stmt.initTokens : Option Stmt → List TokenKind
  | none => [.punct .semicolon]
  | some s => s.tokens

end

/-- Whether a statement ends in an `if` without an `else`, to which an `else` after it would belong. -/
def Stmt.endsOpen : Stmt → Bool
  | cond _ _ none _ => true
  | cond _ _ (some s) _ => s.endsOpen
  | whileLoop _ b _ => b.endsOpen
  | forLoop _ _ _ b _ => b.endsOpen
  | _ => false

/-- A statement that can be the first clause of a `for`. -/
def Stmt.isClause : Stmt → Bool
  | expr .. | declare .. => true
  | _ => false

inductive Stmt.Concrete : Stmt → Prop
  | expr {e : Expr} (span : Span) (he : e.Concrete) : Concrete (.expr e span)
  | block {body : List Stmt} (span : Span) (hb : ∀ s ∈ body, Concrete s) : Concrete (.block body span)
  | declare {ds : List Declaration} (span : Span) (hd : Declared ds) : Concrete (.declare ds span)
  | print {e : Expr} (span : Span) (he : e.Concrete) : Concrete (.print e span)
  | cond {c : Expr} {t : Stmt} {e : Option Stmt} (span : Span) (hc : c.Concrete) (ht : Concrete t)
    (he : ∀ s ∈ e, Concrete s) (hopen : e.isSome → t.endsOpen = false) : Concrete (.cond c t e span)
  | whileLoop {c : Expr} {b : Stmt} (span : Span) (hc : c.Concrete) (hb : Concrete b) :
    Concrete (.whileLoop c b span)
  | forLoop {i : Option Stmt} {c u : Option Expr} {b : Stmt} (span : Span)
    (hclause : ∀ s ∈ i, s.isClause) (hi : ∀ s ∈ i, Concrete s) (hc : ∀ e ∈ c, e.Concrete)
    (hu : ∀ e ∈ u, e.Concrete) (hb : Concrete b) : Concrete (.forLoop i c u b span)
  | ret {v : Option Expr} (span : Span) (hv : ∀ e ∈ v, e.Concrete) : Concrete (.ret v span)
  | empty (span : Span) : Concrete (.empty span)

/-! ### Files -/

def Parameter.tokens (p : Parameter) : List TokenKind :=
  .keyword p.type.base.keyword :: (p.type.stars ++ [.identifier p.name])

/-- Parameters with commas between them. -/
def parameterTokens : List Parameter → List TokenKind
  | [] => [.keyword .void]
  | p :: ps => p.tokens ++ ps.flatMap fun p' => .punct .comma :: p'.tokens

def Function.tokens (f : Function) : List TokenKind :=
  .keyword f.result.base.keyword :: (f.result.stars ++ .identifier f.name :: .punct .leftParen ::
    (parameterTokens f.parameters ++ .punct .rightParen ::
      match f.body with
      | none => [.punct .semicolon]
      | some s => s.tokens))

def Item.tokens : Item → List TokenKind
  | function f => f.tokens
  | declare ds => declarationTokens ds

/-- A program written out. -/
def Program.tokens (p : Program) : List TokenKind := p.items.flatMap Item.tokens

structure Function.Concrete (f : Function) : Prop where
  result : f.result.Plain
  parameters : ∀ p ∈ f.parameters, p.type.Plain
  body : ∀ s ∈ f.body, s.Concrete ∧ ∃ body span, s = .block body span

def Item.Concrete : Item → Prop
  | function f => f.Concrete
  | declare ds => Declared ds

/-- A program that tokens can spell. -/
def Program.Concrete (p : Program) : Prop := ∀ item ∈ p.items, item.Concrete

end Ast

end MiniC
