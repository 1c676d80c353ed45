import MiniC.Ast.Parser.Program
import Mathlib

/-!
# Programs spelled from a lexicon

A tree that was read from tokens has no constant and no name that is not in one of them. `Spelled`
says so of a tree, for the constants and names of a `Lexicon`; it also says the one thing about types
that the grammar decides, that the type of a parameter has no length.

`Expr.induct`, `Initializer.induct` and `Stmt.induct` are the induction principles of the trees.
-/

set_option autoImplicit false

namespace MiniC.Ast

/-! ### Induction -/

section Induction

variable {motive : Expr → Prop}
  (literal : ∀ v span, motive (.literal v span))
  (name : ∀ n span, motive (.name n span))
  (binary : ∀ op l r span, motive l → motive r → motive (.binary op l r span))
  (unary : ∀ op e span, motive e → motive (.unary op e span))
  (assign : ∀ op t v span, motive t → motive v → motive (.assign op t v span))
  (call : ∀ f args span, (∀ a ∈ args, motive a) → motive (.call f args span))
  (index : ∀ a i span, motive a → motive i → motive (.index a i span))
  (cast : ∀ type e span, motive e → motive (.cast type e span))

include literal name binary unary assign call index cast

/-- Induction over expressions; of a call's arguments the hypothesis holds one by one. -/
@[elab_as_elim]
theorem Expr.induct (e : Expr) : motive e := by
  refine @Expr.rec motive (fun es => ∀ e ∈ es, motive e) literal name binary unary assign call index
    cast ?_ ?_ e
  · simp
  · intro e es he hes
    exact List.forall_mem_cons.mpr ⟨he, hes⟩

end Induction

section Induction

variable {motive : Initializer → Prop} (expr : ∀ e, motive (.expr e))
  (list : ∀ items span, (∀ i ∈ items, motive i) → motive (.list items span))

include expr list

@[elab_as_elim]
theorem Initializer.induct (i : Initializer) : motive i := by
  refine @Initializer.rec motive (fun is => ∀ i ∈ is, motive i) expr list ?_ ?_ i
  · simp
  · intro i is hi his
    exact List.forall_mem_cons.mpr ⟨hi, his⟩

end Induction

section Induction

variable {motive : Stmt → Prop}
  (expr : ∀ e span, motive (.expr e span))
  (block : ∀ body span, (∀ s ∈ body, motive s) → motive (.block body span))
  (declare : ∀ ds span, motive (.declare ds span))
  (print : ∀ e span, motive (.print e span))
  (cond : ∀ c thenBranch elseBranch span, motive thenBranch → (∀ s ∈ elseBranch, motive s) →
    motive (.cond c thenBranch elseBranch span))
  (whileLoop : ∀ c body span, motive body → motive (.whileLoop c body span))
  (forLoop : ∀ init c update body span, (∀ s ∈ init, motive s) → motive body →
    motive (.forLoop init c update body span))
  (ret : ∀ value span, motive (.ret value span))
  (empty : ∀ span, motive (.empty span))

include expr block declare print cond whileLoop forLoop ret empty

@[elab_as_elim]
theorem Stmt.induct (s : Stmt) : motive s := by
  refine @Stmt.rec motive (fun body => ∀ s ∈ body, motive s) (fun branch => ∀ s ∈ branch, motive s)
    expr block declare print cond whileLoop forLoop ret empty ?_ ?_ ?_ ?_ s
  · simp
  · intro s body hs hbody
    exact List.forall_mem_cons.mpr ⟨hs, hbody⟩
  · simp
  · intro s hs
    simpa using hs

end Induction

/-! ### Trees over a lexicon -/

/-- The constants and names that tokens can stand for. -/
structure Lexicon where
  constants : Value → Prop
  names : String → Prop

/-- The lexicon of all constants and names. -/
def Lexicon.all : Lexicon := ⟨fun _ => True, fun _ => True⟩

inductive Expr.Spelled (L : Lexicon) : Expr → Prop
  | literal {v : Value} {span : Span} (hv : L.constants v) : Spelled L (.literal v span)
  | name {n : String} {span : Span} : Spelled L (.name n span)
  | binary {op : BinaryOp} {l r : Expr} {span : Span} (hl : Spelled L l) (hr : Spelled L r) :
    Spelled L (.binary op l r span)
  | unary {op : UnaryOp} {e : Expr} {span : Span} (he : Spelled L e) : Spelled L (.unary op e span)
  | assign {op : AssignOp} {t v : Expr} {span : Span} (ht : Spelled L t) (hv : Spelled L v) :
    Spelled L (.assign op t v span)
  | call {f : String} {args : List Expr} {span : Span} (ha : ∀ a ∈ args, Spelled L a) :
    Spelled L (.call f args span)
  | index {a i : Expr} {span : Span} (ha : Spelled L a) (hi : Spelled L i) :
    Spelled L (.index a i span)
  | cast {type : TypeName} {e : Expr} {span : Span} (he : Spelled L e) :
    Spelled L (.cast type e span)

inductive Initializer.Spelled (L : Lexicon) : Initializer → Prop
  | expr {e : Expr} (he : e.Spelled L) : Spelled L (.expr e)
  | list {items : List Initializer} {span : Span} (hi : ∀ i ∈ items, Spelled L i) :
    Spelled L (.list items span)

structure Declaration.Spelled (L : Lexicon) (d : Declaration) : Prop where
  name : L.names d.name
  init : ∀ i ∈ d.init, i.Spelled L

inductive Stmt.Spelled (L : Lexicon) : Stmt → Prop
  | expr {e : Expr} {span : Span} (he : e.Spelled L) : Spelled L (.expr e span)
  | block {body : List Stmt} {span : Span} (hb : ∀ s ∈ body, Spelled L s) :
    Spelled L (.block body span)
  | declare {ds : List Declaration} {span : Span} (hd : ∀ d ∈ ds, d.Spelled L) :
    Spelled L (.declare ds span)
  | print {e : Expr} {span : Span} (he : e.Spelled L) : Spelled L (.print e span)
  | cond {c : Expr} {thenBranch : Stmt} {elseBranch : Option Stmt} {span : Span}
    (hc : c.Spelled L) (ht : Spelled L thenBranch) (he : ∀ s ∈ elseBranch, Spelled L s) :
    Spelled L (.cond c thenBranch elseBranch span)
  | whileLoop {c : Expr} {body : Stmt} {span : Span} (hc : c.Spelled L) (hb : Spelled L body) :
    Spelled L (.whileLoop c body span)
  | forLoop {init : Option Stmt} {c update : Option Expr} {body : Stmt} {span : Span}
    (hi : ∀ s ∈ init, Spelled L s) (hc : ∀ e ∈ c, e.Spelled L) (hu : ∀ e ∈ update, e.Spelled L)
    (hb : Spelled L body) : Spelled L (.forLoop init c update body span)
  | ret {value : Option Expr} {span : Span} (hv : ∀ e ∈ value, e.Spelled L) :
    Spelled L (.ret value span)
  | empty {span : Span} : Spelled L (.empty span)

structure Parameter.Spelled (L : Lexicon) (p : Parameter) : Prop where
  name : L.names p.name
  single : p.type.arrayLength = none

structure Function.Spelled (L : Lexicon) (f : Function) : Prop where
  name : L.names f.name
  parameters : ∀ p ∈ f.parameters, p.Spelled L
  body : ∀ s ∈ f.body, s.Spelled L

def Item.Spelled (L : Lexicon) : Item → Prop
  | function f => f.Spelled L
  | declare ds => ∀ d ∈ ds, d.Spelled L

def Program.Spelled (L : Lexicon) (p : Program) : Prop := ∀ item ∈ p.items, item.Spelled L

theorem Expr.Spelled.withSpan {L : Lexicon} {e : Expr} (h : e.Spelled L) (s : Span) :
    (e.withSpan s).Spelled L := by
  cases h with
  | literal hv => exact .literal hv
  | name => exact .name
  | binary hl hr => exact .binary hl hr
  | unary he => exact .unary he
  | assign ht hv => exact .assign ht hv
  | call ha => exact .call ha
  | index ha hi => exact .index ha hi
  | cast he => exact .cast he

end MiniC.Ast
