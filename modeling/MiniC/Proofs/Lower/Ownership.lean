import MiniC.Proofs.Lower.StackLevel

/-!
# The register that an expression owns

The code of an expression takes one register, for its value, and leaves all other registers as they were:
those that were free are free again, and those that were live are not the destination of any instruction
(`Owns`). This holds of expressions that are not well typed as well: what was live before is what the code has
to leave alone, with no bounds on places.
-/

set_option autoImplicit false

namespace MiniC.Lower

open Emit
open X86 (Line Sparing)
open Emitter (Holding Same)

/-- The code of every expression leaves alone what was live before. -/
theorem spared (t : Typed.Expr) {s : Setting} {e e' : Emitter} {r : Reg} (h : exec (expr t) s e = (.ok r, e')) :
    ∃ ls : List Line, e'.text = e.text ++ ls.toArray ∧ Sparing (Live e) ls := by
  have hB : Bounds.Suit ⟨e.Takes, .anywhere⟩ s e := ⟨fun _ hc => hc, X86.pooled_anywhere s.pool⟩
  obtain ⟨-, -, hlevel⟩ := balanced t (fun o _ => X86.admits_anywhere o) (fun _ => False) hB h
  exact ⟨_, Array.ext' (by rw [hlevel.grows.text, Array.toList_append]), hlevel.keeps.sparing⟩

/-! ### Ownership -/

/-- A register was taken, and nothing else is different but for lines that leave alone what was live. -/
structure Owns (e : Emitter) (r : Reg) (e' : Emitter) : Prop where
  fresh : ¬ e.Takes r.cell
  takes : ∀ c, e'.Takes c ↔ c = r.cell ∨ e.Takes c
  net : e'.net = e.net + 1
  pushed : e'.pushed = e.pushed
  data : e'.data = e.data
  text : ∃ ls : List Line, e'.text = e.text ++ ls.toArray ∧ Sparing (Live e) ls

theorem same_of_holding {e e' : Emitter} (h : Holding [] 0 e e') : Same e e' :=
  ⟨fun c => by rw [h.takes c]; simp, h.pushed.symm⟩

/-- An expression that has a value owns the register that it is in. What has no value owns nothing. -/
theorem expr_owns (t : Typed.Expr) (s : Setting) (e e' : Emitter) :
    (∀ r, exec (expr t) s e = (.ok r, e') → Owns e r e') ∧
      (∀ target, exec (condition t target) s e = (.ok (), e') → Same e e') ∧
      (exec (discard t) s e = (.ok (), e') → Same e e') ∧
      ∀ name type args result, type.isVoid = true → exec (call name type args) s e = (.ok result, e') →
        result = none ∧ Same e e' := by
  refine ⟨fun r hexec => ?_, fun target hexec => ?_, fun hexec => ?_, fun name type args result hv hexec => ?_⟩
  · have h := holding_of_expr hexec
    exact ⟨h.fresh _ List.mem_cons_self, fun c => by rw [h.takes c, List.mem_singleton], h.net, h.pushed, h.data,
      spared t hexec⟩
  · exact same_of_holding (holding_of_condition hexec)
  · have houtcome : Outcome (discard t) s.pool e (fun _ e' => Holding [] 0 e e') _ :=
      discard_outcome everything (.refl e) t
    exact same_of_holding (houtcome.ok_of_exec hexec)
  · have houtcome : Outcome (call name type args) s.pool e (Taken type [] 0 e) _ := call_outcome name type
      (fun a _ => lowers everything s.pool a) (.refl e)
    have htaken := houtcome.ok_of_exec hexec
    cases result with
    | none => exact ⟨rfl, same_of_holding htaken.2⟩
    | some r => exact absurd hv (by simp [htaken.1])

/-- A call by which no argument is passed. -/
def plainCall : Typed.Expr := .call "f" [] (.scalar .int)

/-- Two floats are live at the call, and are read back after it. -/
theorem expr_owns_busy :
    Owns busy ⟨.int, 1⟩ (exec (expr plainCall) {} busy).2 ∧ Same busy (exec (condition plainCall "l") {} busy).2 ∧
      Same busy (exec (discard plainCall) {} busy).2 ∧ Same busy (exec (call "g" .void []) {} busy).2 :=
  ⟨(expr_owns plainCall {} busy _).1 _ (Prod.ext rfl rfl), (expr_owns plainCall {} busy _).2.1 _ (Prod.ext rfl rfl),
    (expr_owns plainCall {} busy _).2.2.1 (Prod.ext rfl rfl),
    ((expr_owns plainCall {} busy _).2.2.2 _ _ _ none rfl (Prod.ext rfl rfl)).2⟩

end MiniC.Lower
