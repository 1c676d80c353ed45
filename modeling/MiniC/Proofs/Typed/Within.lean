import MiniC.Proofs.Typed.WellTyped

/-!
# Expressions inside others

Which expressions stand in an expression, in a statement and in a function. What stands in a well-typed
function is well typed (`Function.Mentions.wellTyped`), over the same vocabulary.
-/

set_option autoImplicit false

namespace MiniC.Typed

/-- The expressions that an expression is made of. -/
def Expr.children : Expr → List Expr
  | .literal _ | .load (.object _) | .addressOf _ _ | .step _ _ _ => []
  | .load (.pointee a _) | .unary _ a _ | .convert a _ _ | .assign (.object _) a => [a]
  | .binary _ l r _ | .logical _ l r => [l, r]
  | .assign (.pointee a _) v => [a, v]
  | .call _ args _ => args
  | .offset p c _ _ => [p, c]

/-- An expression is another one or stands in it. -/
inductive Expr.Within (x : Expr) : Expr → Prop
  | refl : Within x x
  | child {c t : Expr} (hc : c ∈ t.children) (h : Within x c) : Within x t

/-- The expressions that an object is initialized with. -/
def LocalInit.exprs : LocalInit → List Expr
  | .scalar e => [e]
  | .elements es => es

/-- The expressions of a statement that are not in a statement inside it. -/
def Stmt.exprs : Stmt → List Expr
  | .print e _ | .expr e _ | .cond e _ _ _ | .whileLoop e _ _ => [e]
  | .declare _ init _ => (init.map LocalInit.exprs).getD []
  | .forLoop _ c update _ _ => c.toList ++ update.toList
  | .ret value _ => value.toList
  | .block _ | .empty => []

/-- The statements that a statement is made of. -/
def Stmt.children : Stmt → List Stmt
  | .block body => body
  | .cond _ thenBranch elseBranch _ => thenBranch :: elseBranch.toList
  | .whileLoop _ body _ => [body]
  | .forLoop init _ _ body _ => init.toList ++ [body]
  | .print _ _ | .declare _ _ _ | .expr _ _ | .ret _ _ | .empty => []

/-- An expression stands in a statement. -/
inductive Stmt.Mentions (x : Expr) : Stmt → Prop
  | own {e : Expr} {s : Stmt} (he : e ∈ s.exprs) (h : x.Within e) : Mentions x s
  | child {c s : Stmt} (hc : c ∈ s.children) (h : Mentions x c) : Mentions x s

/-- An expression stands in the body of a function. -/
def Function.Mentions (f : Function) (x : Expr) : Prop := ∃ s ∈ f.body, s.Mentions x

variable {V : Vocabulary} {x t : Expr}

theorem Expr.WellTyped.children (h : t.WellTyped V) : ∀ c ∈ t.children, c.WellTyped V := by
  cases h with
  | call _ ha _ => exact ha
  | _ => simp_all [Expr.children]

theorem Expr.Within.wellTyped (h : x.Within t) (ht : t.WellTyped V) : x.WellTyped V := by
  induction h with
  | refl => exact ht
  | child hc _ ih => exact ih (ht.children _ hc)

theorem LocalInit.WellTyped.exprs {type : CType} {i : LocalInit} (h : i.WellTyped V type) :
    ∀ e ∈ i.exprs, e.WellTyped V := by
  cases h with
  | scalar _ he _ => exact List.forall_mem_singleton.mpr he
  | elements _ _ he _ => exact he

theorem Stmt.WellTyped.exprs {result : CType} {s : Stmt} (h : s.WellTyped V result) :
    ∀ e ∈ s.exprs, e.WellTyped V := by
  cases h with
  | @declare _ init _ _ _ _ hi =>
    cases init with
    | none => exact fun e he => absurd he List.not_mem_nil
    | some i => exact (hi i rfl).exprs
  | forLoop _ hc hu _ =>
    intro e he
    rcases List.mem_append.mp he with he | he
    · exact (hc e (Option.mem_toList.mp he)).1
    · exact hu e (Option.mem_toList.mp he)
  | _ => simp_all [Stmt.exprs]

theorem Stmt.WellTyped.children {result : CType} {s : Stmt} (h : s.WellTyped V result) :
    ∀ c ∈ s.children, c.WellTyped V result := by
  cases h with
  | cond _ _ hthen helse =>
    exact List.forall_mem_cons.mpr ⟨hthen, fun s hs => helse s (Option.mem_toList.mp hs)⟩
  | forLoop hi _ _ hb =>
    exact List.forall_mem_append.mpr
      ⟨fun s hs => hi s (Option.mem_toList.mp hs), List.forall_mem_singleton.mpr hb⟩
  | block hb => exact hb
  | _ => simp_all [Stmt.children]

theorem Stmt.Mentions.wellTyped {result : CType} {s : Stmt} (h : s.Mentions x)
    (hs : s.WellTyped V result) : x.WellTyped V := by
  induction h with
  | own he h => exact h.wellTyped (hs.exprs _ he)
  | child hc _ ih => exact ih (hs.children _ hc)

theorem Function.Mentions.wellTyped {f : Function} (h : f.Mentions x) {result : CType}
    (hbody : ∀ s ∈ f.body, s.WellTyped V result) : x.WellTyped V := by
  obtain ⟨s, hs, hx⟩ := h
  exact hx.wellTyped (hbody s hs)

end MiniC.Typed
