import MiniC.Proofs.Lower.NoLeaks
import MiniC.Proofs.Typed.Erase

/-!
# Generation does not look at places

The place of a statement shows in two ways only: a failure names it, and so does the message about
registers that are still taken after the statement. Since no statement leaves a register taken, the
second never happens; so a program without its places gives the same file, or fails for the same
cause (`generate_erase`).
-/

set_option autoImplicit false

namespace MiniC.Lower

open Emit
open MiniC.Emitter (Holding)

/-- What an operation gives, with the place of a failure forgotten. -/
def unplaced {α : Type} (r : Except Failure α × Emitter) : Except Failure α × Emitter :=
  (r.1.mapError fun f => ⟨.unknown, f.cause⟩, r.2)

/-- Where no register is taken, the second operation does what the first one does, with the place of
a failure forgotten, and takes none either. -/
def Unplaces {α : Type} (m m' : Located α) : Prop :=
  ∀ s e, e.Idle → perform m' s e = unplaced (perform m s e) ∧
    ∀ a e', perform m s e = (.ok a, e') → e'.Idle

section Unplaces

variable {α β : Type} {m m' : Located α}

theorem Unplaces.pure (a : α) : Unplaces (pure a) (pure a) := by
  intro s e h
  refine ⟨rfl, fun b e' hb => ?_⟩
  cases hb
  exact h

theorem Unplaces.bind {f f' : α → Located β} (hm : Unplaces m m') (hf : ∀ a, Unplaces (f a) (f' a)) :
    Unplaces (m >>= f) (m' >>= f') := by
  intro s e h
  obtain ⟨heq, hidle⟩ := hm s e h
  cases hrun : perform m s e with
  | mk result e1 =>
    rw [hrun] at heq
    cases result with
    | error x =>
      rw [perform_bind_error heq, perform_bind_error hrun]
      exact ⟨rfl, fun b e' hb => by cases hb⟩
    | ok a =>
      rw [perform_bind_ok heq, perform_bind_ok hrun]
      exact hf a s e1 (hidle a e1 hrun)

/-- An operation at a place is the operation at any other. -/
theorem unplaces_located {x : Emit α}
    (hx : ∀ s e a e', e.Idle → exec x s e = (.ok a, e') → e'.Idle) (place : Location) :
    Unplaces (located place x) (located .unknown x) := by
  intro s e h
  refine ⟨?_, fun a e' ha => hx s e a e' h (exec_of_perform ha)⟩
  cases hrun : exec x s e with
  | mk result e' =>
    cases result with
    | ok a => rw [perform_located_ok _ hrun, perform_located_ok _ hrun]; rfl
    | error cause => rw [perform_located_error _ hrun, perform_located_error _ hrun]; rfl

theorem unplaces_of_outcome {x : Emit α} {fails : Pool → Error → Prop}
    (hx : ∀ pool e, Outcome x pool e (fun _ e' => Holding [] 0 e e') (fails pool))
    (place : Location) : Unplaces (located place x) (located .unknown x) :=
  unplaces_located (fun s e _ _ h hexec => h.of_holding ((hx s.pool e).ok_of_exec hexec)) place

theorem unplaces_finish (place : Location) : Unplaces (finish place) (finish .unknown) := by
  intro s e h
  have hfinish : ∀ l, perform (finish l) s e = (.ok (), e) :=
    fun l => perform_located_ok l (exec_releaseLeaks h _ s)
  rw [hfinish, hfinish]
  refine ⟨rfl, fun a e' ha => ?_⟩
  cases ha
  exact h

end Unplaces

/-! ### Statements -/

section Statements

variable {place : Location}

theorem unplaces_freshId (kind : String) :
    Unplaces (located place (freshId kind)) (located .unknown (freshId kind)) := by
  have hfresh : ∀ pool e, Outcome (freshId kind) pool e (fun _ e' => Holding [] 0 e e')
      (fun _ => True) :=
    fun _ e => (freshId_outcome (Holding.refl e) kind).mono (fun _ _ h => h.1) fun _ h => h
  exact unplaces_of_outcome hfresh place

theorem unplaces_label (name : String) :
    Unplaces (located place (label name)) (located .unknown (label name)) := by
  refine unplaces_located (fun s e a e' h hexec => ?_) place
  rw [exec_label] at hexec
  cases hexec
  exact h

theorem unplaces_jump (target : String) :
    Unplaces (located place (jump target)) (located .unknown (jump target)) := by
  refine unplaces_located (fun s e a e' h hexec => ?_) place
  rw [exec_jump] at hexec
  cases hexec
  exact h

theorem unplaces_condition (c : Typed.Expr) (target : String) :
    Unplaces (located place (condition c target)) (located .unknown (condition c target)) :=
  unplaces_of_outcome (fun _ e => condition_outcome everything (Holding.refl e) c target) place

theorem unplaces_stmts {f : Routine} {body : List Typed.Stmt}
    (h : ∀ s ∈ body, Unplaces (stmt f s) (stmt f s.erase)) :
    Unplaces (stmts f body) (stmts f (body.map Typed.Stmt.erase)) := by
  induction body with
  | nil => exact .pure ()
  | cons s body ih =>
    rw [List.map_cons, stmts, stmts]
    exact .bind (h s List.mem_cons_self) fun _ => ih fun s' hs' => h s' (.tail s hs')

theorem unplaces_optionalStmt {f : Routine} {s : Option Typed.Stmt}
    (h : ∀ s' ∈ s, Unplaces (stmt f s') (stmt f s'.erase)) :
    Unplaces (optionalStmt f s) (optionalStmt f (s.map Typed.Stmt.erase)) := by
  cases s with
  | none => exact .pure ()
  | some s => exact h s rfl

theorem unplaces_stmt (f : Routine) (s : Typed.Stmt) : Unplaces (stmt f s) (stmt f s.erase) := by
  induction s using Typed.Stmt.induct with
  | block body ih =>
    rw [Typed.Stmt.erase, Typed.Stmt.eraseAll_eq_map, stmt, stmt]
    exact unplaces_stmts ih
  | print t place =>
    rw [Typed.Stmt.erase, stmt, stmt]
    refine .bind ?_ fun _ => unplaces_finish place
    exact unplaces_of_outcome (fun _ e => print_outcome everything (Holding.refl e) t) place
  | declare symbol init place =>
    rw [Typed.Stmt.erase]
    cases init with
    | none =>
      rw [stmt, stmt]
      exact unplaces_finish place
    | some init =>
      rw [stmt, stmt]
      refine .bind ?_ fun _ => unplaces_finish place
      exact unplaces_of_outcome
        (fun _ e => localInit_outcome everything (Holding.refl e) symbol init) place
  | expr t place =>
    rw [Typed.Stmt.erase, stmt, stmt]
    refine .bind ?_ fun _ => unplaces_finish place
    exact unplaces_of_outcome (fun _ e => discard_outcome everything (Holding.refl e) t) place
  | cond c t e place iht ihe =>
    rw [Typed.Stmt.erase, Typed.Stmt.eraseOption_eq_map, stmt, stmt]
    refine .bind (unplaces_freshId "if") fun id => .bind (unplaces_condition c _) fun _ => ?_
    refine .bind (unplaces_label _) fun _ => .bind iht fun _ => .bind (unplaces_jump _) fun _ => ?_
    refine .bind (unplaces_label _) fun _ => .bind (unplaces_optionalStmt ihe) fun _ => ?_
    exact unplaces_label _
  | whileLoop c b place ihb =>
    rw [Typed.Stmt.erase, stmt, stmt]
    refine .bind (unplaces_freshId "while") fun id => .bind (unplaces_label _) fun _ => ?_
    refine .bind (unplaces_condition c _) fun _ => .bind ihb fun _ => ?_
    refine .bind (unplaces_jump _) fun _ => .bind (unplaces_label _) fun _ => ?_
    exact unplaces_finish place
  | forLoop i c u b place ihi ihb =>
    rw [Typed.Stmt.erase, Typed.Stmt.eraseOption_eq_map, stmt, stmt]
    refine .bind (unplaces_optionalStmt ihi) fun _ => .bind (unplaces_freshId "for") fun id => ?_
    refine .bind (unplaces_label _) fun _ => .bind ?_ fun _ => .bind ihb fun _ => .bind ?_ fun _ => ?_
    · exact unplaces_of_outcome (fun _ _ => optionalCondition_outcome everything c _) place
    · exact unplaces_of_outcome (fun _ _ => optionalDiscard_outcome everything u) place
    · refine .bind (unplaces_jump _) fun _ => .bind (unplaces_label _) fun _ => ?_
      exact unplaces_finish place
  | ret value place =>
    rw [Typed.Stmt.erase, stmt, stmt]
    refine .bind ?_ fun _ => unplaces_finish place
    exact unplaces_of_outcome
      (fun _ e => ret_outcome everything (Holding.refl e) f value .unknown) place
  | empty => exact .pure ()

end Statements

/-! ### Programs -/

theorem unplaces_function (f : Typed.Function) : Unplaces (function f) (function f.erase) := by
  refine .bind (unplaces_located (fun s e a e' h hexec => ?_) f.place) fun _ => ?_
  · have hentered : (entered e f.routine).Idle := h
    exact hentered.of_holding ((prologue_outcome e f.routine f.parameters).ok_of_exec hexec)
  · refine .bind (unplaces_stmts fun s _ => unplaces_stmt f.routine s) fun _ => ?_
    refine unplaces_located (fun s e a e' h hexec => ?_) f.place
    by_cases hpushed : e.pushed = 0
    · rw [exec_epilogue h hpushed] at hexec
      cases hexec
      exact h
    · simp [epilogue, exec_bind, hpushed] at hexec

theorem unplaces_functions (fs : List Typed.Function) :
    Unplaces (functions fs) (functions (fs.map Typed.Function.erase)) := by
  induction fs with
  | nil => exact .pure ()
  | cons f fs ih =>
    rw [List.map_cons, functions, functions]
    exact .bind (unplaces_function f) fun _ => ih

theorem unplaces_globals (gs : List Typed.Global) :
    Unplaces (globals gs) (globals (gs.map Typed.Global.erase)) := by
  induction gs with
  | nil => exact .pure ()
  | cons g gs ih =>
    rw [List.map_cons, globals, globals]
    refine .bind (unplaces_located (fun s e a e' h hexec => ?_) g.place) fun _ => ih
    cases hlines : globalLines s.pool g.symbol g.init with
    | error x => simp [declareGlobal, exec_bind, hlines] at hexec
    | ok lines =>
      simp [declareGlobal, exec_bind, hlines, dataLines] at hexec
      rw [← hexec]
      exact h

theorem unplaces_program (p : Typed.Program) : Unplaces (program p) (program p.erase) := by
  refine .bind (unplaces_located (fun s e a e' h hexec => ?_) _) fun _ => ?_
  · exact ((preamble_outcome e fun _ => True).ok_of_exec hexec).idle
  · refine .bind (unplaces_globals p.globals) fun _ => .bind (unplaces_functions p.functions) fun _ => ?_
    refine unplaces_located (fun s e a e' h hexec => ?_) _
    exact ((postamble_outcome h fun _ => True).ok_of_exec hexec).idle

theorem idle_start : ({} : Emitter).Idle := by
  intro c
  cases c <;> simp [Emitter.Takes, Bank.Takes, Bank.new, List.getElem?_replicate]

/-- **Generation does not look at places.** -/
theorem generate_erase (setting : Setting) (p : Typed.Program) :
    generate setting p.erase =
      (generate setting p).mapError fun f => ⟨.unknown, f.cause⟩ := by
  obtain ⟨heq, -⟩ := unplaces_program p setting {} idle_start
  show (match perform (program p.erase) setting {} with | (.ok (), e) => _ | (.error f, _) => _) =
    (match perform (program p) setting {} with | (.ok (), e) => _ | (.error f, _) => _ :
      Except Failure String).mapError _
  rw [heq]
  obtain ⟨_ | _, e⟩ := perform (program p) setting {}
  · rfl
  · rfl

end MiniC.Lower
