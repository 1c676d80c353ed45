import MiniC.Proofs.Typing.Stmt

/-!
# The objects that a tree mentions

An expression mentions the objects that it reads, writes, counts or takes the address of, and a statement
also those that it declares. In a tree that obeys the typing rules all of them are in its vocabulary
(`Expr.WellTyped.objects`, `Stmt.WellTyped.objects`).
-/

set_option autoImplicit false

namespace MiniC.Typed

mutual

/-- The objects in a place. -/
def Place.symbols : Place → List Symbol
  | .object o => [o]
  | .pointee address _ => address.symbols

/-- The objects that an expression mentions. -/
def Expr.symbols : Expr → List Symbol
  | .literal _ => []
  | .load source => source.symbols
  | .addressOf o _ => [o]
  | .unary _ operand _ => operand.symbols
  | .binary _ left right _ => left.symbols ++ right.symbols
  | .logical _ left right => left.symbols ++ right.symbols
  | .assign target value => target.symbols ++ value.symbols
  | .step o _ _ => [o]
  | .call _ arguments _ => symbolsAll arguments
  | .convert operand _ _ => operand.symbols
  | .offset pointer count _ _ => pointer.symbols ++ count.symbols

/-- The objects that expressions mention. -/
def symbolsAll : List Expr → List Symbol
  | [] => []
  | e :: es => e.symbols ++ symbolsAll es

end

/-- The objects that an initializer mentions. -/
def LocalInit.symbols : LocalInit → List Symbol
  | .scalar value => value.symbols
  | .elements values => symbolsAll values

/-- The objects that an expression mentions, if there is one. -/
def symbolsOption (e : Option Expr) : List Symbol := symbolsAll e.toList

mutual

/-- The objects that a statement mentions. -/
def Stmt.symbols : Stmt → List Symbol
  | .block body => stmtSymbols body
  | .print value _ => value.symbols
  | .declare o init _ => o :: (init.map LocalInit.symbols).getD []
  | .expr e _ => e.symbols
  | .cond c thenBranch elseBranch _ => c.symbols ++ thenBranch.symbols ++ stmtSymbolsOption elseBranch
  | .whileLoop c body _ => c.symbols ++ body.symbols
  | .forLoop init c update body _ =>
    stmtSymbolsOption init ++ symbolsOption c ++ symbolsOption update ++ body.symbols
  | .ret value _ => symbolsOption value
  | .empty => []

/-- The objects that statements mention. -/
def stmtSymbols : List Stmt → List Symbol
  | [] => []
  | s :: rest => s.symbols ++ stmtSymbols rest

/-- The objects that a statement mentions, if there is one. -/
def stmtSymbolsOption : Option Stmt → List Symbol
  | none => []
  | some s => s.symbols

end

/-- The objects that a function mentions, its parameters among them. -/
def Function.symbols (f : Function) : List Symbol := f.parameters ++ stmtSymbols f.body

/-! ### Members -/

section Members

variable {o : Symbol}

theorem mem_symbolsAll {es : List Expr} : o ∈ symbolsAll es ↔ ∃ e ∈ es, o ∈ e.symbols := by
  induction es with
  | nil => simp [symbolsAll]
  | cons e es ih => simp [symbolsAll, ih]

theorem mem_symbolsOption {e : Option Expr} : o ∈ symbolsOption e ↔ ∃ e' ∈ e, o ∈ e'.symbols := by
  rw [symbolsOption, mem_symbolsAll]
  simp only [Option.mem_toList]
  rfl

theorem mem_stmtSymbols {body : List Stmt} : o ∈ stmtSymbols body ↔ ∃ s ∈ body, o ∈ s.symbols := by
  induction body with
  | nil => simp [stmtSymbols]
  | cons s body ih => simp [stmtSymbols, ih]

theorem mem_stmtSymbolsOption {s : Option Stmt} :
    o ∈ stmtSymbolsOption s ↔ ∃ s' ∈ s, o ∈ s'.symbols := by
  cases s <;> simp [stmtSymbolsOption]

end Members

/-! ### Well-typed trees -/

section WellTyped

variable {V : Vocabulary} {o : Symbol}

/-- A well-typed expression mentions what its vocabulary has. -/
theorem Expr.WellTyped.objects {e : Expr} (h : e.WellTyped V) (ho : o ∈ e.symbols) : V.objects o := by
  induction h with
  | literal _ =>
    rw [Expr.symbols] at ho
    cases ho
  | object hs _ =>
    rw [Expr.symbols, Place.symbols, List.mem_singleton] at ho
    exact ho ▸ hs
  | pointee _ _ ih =>
    rw [Expr.symbols, Place.symbols] at ho
    exact ih ho
  | addressOf hs _ =>
    rw [Expr.symbols, List.mem_singleton] at ho
    exact ho ▸ hs
  | step hs _ =>
    rw [Expr.symbols, List.mem_singleton] at ho
    exact ho ▸ hs
  | negate _ _ _ ih | invert _ _ _ ih | not _ _ ih | convert _ _ _ ih =>
    rw [Expr.symbols] at ho
    exact ih ho
  | arithmetic _ _ _ _ _ _ _ ihl ihr | distance _ _ _ _ ihl ihr | compare _ _ _ _ ihl ihr
  | logical _ _ _ _ _ ihl ihr | offset _ _ _ _ ihl ihr =>
    rw [Expr.symbols, List.mem_append] at ho
    exact ho.elim ihl ihr
  | assignObject hs _ _ _ ih =>
    rw [Expr.symbols, Place.symbols, List.mem_append, List.mem_singleton] at ho
    exact ho.elim (fun heq => heq ▸ hs) ih
  | assignPointee _ _ _ _ iha ihv =>
    rw [Expr.symbols, Place.symbols, List.mem_append] at ho
    exact ho.elim iha ihv
  | call _ _ _ ih =>
    rw [Expr.symbols, mem_symbolsAll] at ho
    obtain ⟨a, ha, ho⟩ := ho
    exact ih a ha ho

theorem LocalInit.WellTyped.objects {type : CType} {init : LocalInit} (h : init.WellTyped V type)
    (ho : o ∈ init.symbols) : V.objects o := by
  cases h with
  | scalar _ he _ => exact he.objects ho
  | elements _ _ he _ =>
    obtain ⟨e, hmem, ho⟩ := mem_symbolsAll.1 ho
    exact (he e hmem).objects ho

/-- A well-typed statement mentions what its vocabulary has. -/
theorem Stmt.WellTyped.objects {result : CType} {s : Stmt} (h : s.WellTyped V result)
    (ho : o ∈ s.symbols) : V.objects o := by
  induction h with
  | block _ ih =>
    rw [Stmt.symbols, mem_stmtSymbols] at ho
    obtain ⟨s, hs, ho⟩ := ho
    exact ih s hs ho
  | print he _ | expr he =>
    rw [Stmt.symbols] at ho
    exact he.objects ho
  | @declare o' init place hs _ _ hi =>
    rw [Stmt.symbols, List.mem_cons] at ho
    rcases ho with rfl | ho
    · exact hs
    · cases init with
      | none => cases ho
      | some init => exact (hi init rfl).objects ho
  | cond hc _ _ _ iht ihe =>
    rw [Stmt.symbols, List.mem_append, List.mem_append, mem_stmtSymbolsOption] at ho
    rcases ho with (ho | ho) | ⟨s, hs, ho⟩
    · exact hc.objects ho
    · exact iht ho
    · exact ihe s hs ho
  | whileLoop hc _ _ ih =>
    rw [Stmt.symbols, List.mem_append] at ho
    exact ho.elim hc.objects ih
  | forLoop _ hc hu _ ihi ihb =>
    rw [Stmt.symbols, List.mem_append, List.mem_append, List.mem_append, mem_stmtSymbolsOption,
      mem_symbolsOption, mem_symbolsOption] at ho
    rcases ho with ((⟨s, hs, ho⟩ | ⟨e, he, ho⟩) | ⟨e, he, ho⟩) | ho
    · exact ihi s hs ho
    · exact (hc e he).1.objects ho
    · exact (hu e he).objects ho
    · exact ihb ho
  | retValue he _ =>
    rw [Stmt.symbols, mem_symbolsOption] at ho
    obtain ⟨e, hmem, ho⟩ := ho
    cases hmem
    exact he.objects ho
  | ret _ =>
    rw [Stmt.symbols, mem_symbolsOption] at ho
    obtain ⟨e, he, -⟩ := ho
    cases he
  | empty =>
    rw [Stmt.symbols] at ho
    cases ho

end WellTyped

end MiniC.Typed
