import MiniC.Proofs.Emit.Outcome
import MiniC.Proofs.Emit.Sparing

/-!
# How many registers operations ask for

An operation on integers fails for one reason only, that no register is free when it takes one. `Demands k n m`
says this of the operation `m` exactly: with `k` registers free it succeeds if `n` is no more, and fails for want
of a register otherwise. The number `k` is that of the start of a computation, so that operations one after the
other ask for the largest of their numbers, and an operation asks for more by as many registers as are held when
it begins.
-/

set_option autoImplicit false

namespace MiniC

namespace Emitter

open Emit (Cell Reg)

instance (e : Emitter) : DecidablePred e.Takes
  | .general i => inferInstanceAs (Decidable (e.bank.val.int[i]? = some true))
  | .float i => inferInstanceAs (Decidable (e.bank.val.float[i]? = some true))

/-- How many integer registers are free. -/
def free (e : Emitter) : Nat :=
  ((Finset.range Emit.registerFile.intSlots).filter fun i => ¬ e.Takes (.general i)).card

section Free

variable {e e' : Emitter} {r : Reg} {n : Nat}

/-- Whether there is a register to take is a question of how many are free. -/
theorem fresh?_eq_none_iff {view : Scalar} (hv : view.isInteger = true) : e.fresh? view = none ↔ e.free = 0 := by
  have hslot : ∀ i, (e.bank.val.status view)[i]? = some true ↔ e.Takes (.general i) := fun i => by
    rw [← Reg.cell_eq_of_isInteger (r := ⟨view, i⟩) hv]
    exact e.bank.property.status_eq ⟨view, i⟩
  have hlen : (e.bank.val.status view).length = Emit.registerFile.intSlots := by
    rw [e.bank.property.length_status, Emit.RegisterFile.slots, if_pos hv]
  rw [fresh?, Option.map_eq_none_iff, List.findIdx?_eq_none_iff, free, Finset.card_eq_zero,
    Finset.filter_eq_empty_iff]
  -- no mark is found that is false, against no slot that is not taken
  constructor
  · intro hall i hi
    rw [Finset.mem_range, ← hlen] at hi
    rw [Decidable.not_not, ← hslot, List.getElem?_eq_getElem hi]
    simpa using hall _ (List.getElem_mem hi)
  · intro hall b hb
    obtain ⟨i, hi, rfl⟩ := List.getElem_of_mem hb
    have htakes := Decidable.not_not.mp (hall (Finset.mem_range.mpr (hlen ▸ hi)))
    rw [← hslot, List.getElem?_eq_getElem hi, Option.some_inj] at htakes
    simp [htakes]

theorem free_of_takes_iff (h : ∀ c, e'.Takes c ↔ e.Takes c) : e'.free = e.free := by
  simp only [free, h]

theorem free_of_holding (h : Holding [r.cell] n e e') (hv : r.view.isInteger = true) : e'.free + 1 = e.free := by
  rw [Reg.cell_eq_of_isInteger hv] at h
  have hlt : r.slot < Emit.registerFile.intSlots := by
    have htakes : e'.Takes r.cell := by
      rw [Reg.cell_eq_of_isInteger hv]
      exact h.takes_of_mem List.mem_cons_self
    exact slot_lt_of_takes htakes
  -- the slots that are free now are those that were, without this one
  have herase : ((Finset.range Emit.registerFile.intSlots).filter fun i => ¬ e'.Takes (.general i)) =
      ((Finset.range Emit.registerFile.intSlots).filter fun i => ¬ e.Takes (.general i)).erase r.slot := by
    ext i
    simp only [Finset.mem_filter, Finset.mem_erase, h.takes, List.mem_singleton, Cell.general.injEq]
    tauto
  rw [free, free, herase, Finset.card_erase_of_mem, Nat.sub_add_cancel]
  · refine Finset.card_pos.mpr ⟨r.slot, ?_⟩
    exact Finset.mem_filter.mpr ⟨Finset.mem_range.mpr hlt, h.fresh _ List.mem_cons_self⟩
  · exact Finset.mem_filter.mpr ⟨Finset.mem_range.mpr hlt, h.fresh _ List.mem_cons_self⟩

theorem free_of_holding_nil (h : Holding [] n e e') : e'.free = e.free :=
  free_of_takes_iff fun c => by simp [h.takes c]

end Free

end Emitter

namespace Emit

open Emitter (Holding)

/-- With `k` registers free an operation succeeds if it needs no more, and fails for want of one otherwise. -/
structure Demands {α : Type} (k n : Nat) (m : Emit α) (s : Setting) (e : Emitter) : Prop where
  ok : n ≤ k → ∃ a e', exec m s e = (.ok a, e')
  error : k < n → ∃ view e', exec m s e = (.error (.noFreeRegister view), e')

section Demands

variable {α β : Type} {j k n n' : Nat} {m : Emit α} {s : Setting} {e e' : Emitter} {r l x : Reg}

theorem demands_ok {a : α} (k : Nat) (h : exec m s e = (.ok a, e')) : Demands k 0 m s e :=
  ⟨fun _ => ⟨a, e', h⟩, fun hlt => absurd hlt (Nat.not_lt_zero k)⟩

theorem Demands.of_eq (h : Demands k n m s e) (hn : n = n') : Demands k n' m s e := hn ▸ h

/-- Registers that are held already are asked for in addition. -/
theorem Demands.shift (h : Demands j n m s e) {i : Nat} (hk : j + i = k) : Demands k (n + i) m s e :=
  ⟨fun hle => h.ok (by omega), fun hlt => h.error (by omega)⟩

/-- Of operations one after the other the one that asks for most decides. -/
theorem Demands.bind {f : α → Emit β} (h : Demands k n m s e)
    (hf : ∀ a e', exec m s e = (.ok a, e') → Demands k n' (f a) s e') : Demands k (max n n') (m >>= f) s e := by
  constructor
  · intro hle
    obtain ⟨a, e1, h1⟩ := h.ok (by omega)
    obtain ⟨b, e2, h2⟩ := (hf a e1 h1).ok (by omega)
    exact ⟨b, e2, (exec_bind_ok h1).trans h2⟩
  · intro hlt
    -- it is the second operation that fails, or already the first
    by_cases hle : n ≤ k
    · obtain ⟨a, e1, h1⟩ := h.ok hle
      obtain ⟨view, e2, h2⟩ := (hf a e1 h1).error (by omega)
      exact ⟨view, e2, (exec_bind_ok h1).trans h2⟩
    · obtain ⟨view, e1, h1⟩ := h.error (by omega)
      exact ⟨view, e1, exec_bind_error h1⟩

/-- An operation that is followed by one which always succeeds. -/
theorem Demands.andThen {f : α → Emit β} (h : Demands k n m s e)
    (hf : ∀ a e', exec m s e = (.ok a, e') → ∃ b e'', exec (f a) s e' = (.ok b, e'')) :
    Demands k n (m >>= f) s e := by
  have hbind : Demands k (max n 0) (m >>= f) s e := h.bind fun a e' hexec => by
    obtain ⟨b, e'', hb⟩ := hf a e' hexec
    exact demands_ok k hb
  exact hbind.of_eq (Nat.max_zero n)

theorem Demands.of_exec_eq {m' : Emit α} {e1 : Emitter} (h : Demands k n m' s e1) (heq : exec m s e = exec m' s e1) :
    Demands k n m s e :=
  ⟨fun hle => heq ▸ h.ok hle, fun hlt => heq ▸ h.error hlt⟩

/-! ### Operations that take a register -/

theorem demands_of_fresh? {view : Scalar} (hv : view.isInteger = true)
    (hsome : ∀ x, e.fresh? view = some x → ∃ a e', exec m s e = (.ok a, e'))
    (hnone : e.fresh? view = none → ∃ e', exec m s e = (.error (.noFreeRegister view), e')) :
    Demands e.free 1 m s e := by
  have hiff := Emitter.fresh?_eq_none_iff (e := e) hv
  constructor
  · intro hle
    obtain ⟨x, hx⟩ := Option.ne_none_iff_exists'.mp fun hx => absurd (hiff.mp hx) (by omega)
    exact hsome x hx
  · intro hlt
    obtain ⟨e', he'⟩ := hnone (hiff.mpr (by omega))
    exact ⟨view, e', he'⟩

theorem demands_of_taking {m : Emit Reg} {view : Scalar} {code : Reg → List X86.Instr} (hv : view.isInteger = true)
    (h : exec m s e = taking e view code) : Demands e.free 1 m s e := by
  refine demands_of_fresh? hv (fun x hx => ?_) fun hnone => ?_
  · rw [h, taking, hx]
    exact ⟨_, _, rfl⟩
  · rw [h, taking, hnone]
    exact ⟨_, rfl⟩

theorem demands_loadImmediate {v : Value} (hv : v.type.word.isInteger = true)
    (hpool : ∀ text, v = .str text → (s.pool.stringLabel? text).isSome = true) :
    Demands e.free 1 (loadImmediate v) s e := by
  cases v with
  | int v => exact demands_of_taking rfl (exec_loadInteger rfl _)
  | char v => exact demands_of_taking rfl (exec_loadInteger rfl _)
  | long v => exact demands_of_taking rfl (exec_loadInteger rfl _)
  | float y => cases hv
  | str text =>
    obtain ⟨label, hl⟩ := Option.isSome_iff_exists.mp (hpool text rfl)
    have hexec : exec (loadImmediate (.str text)) s e =
        taking e .long fun r => [.lea (.mem (.data label 0)) (.reg r.register)] := by
      rw [exec_loadString, hl]
      rfl
    exact demands_of_taking rfl hexec

theorem demands_addressOf (o : Symbol) : Demands e.free 1 (addressOf o) s e :=
  have hlong : Scalar.long.isInteger = true := rfl
  demands_of_taking hlong (exec_addressOf o)

theorem demands_loadSymbol {o : Symbol} (ht : o.type.isVoid = false) (hv : o.type.word.isInteger = true) :
    Demands e.free 1 (loadSymbol o) s e := by
  by_cases ha : o.type.isArray = true
  · rw [loadSymbol, if_pos ha]
    exact demands_addressOf o
  · exact demands_of_taking hv (exec_loadSymbol ht (by simpa using ha))

/-- Counting needs a second register if the value before is asked for. -/
theorem demands_step {o : Symbol} {amount : Nat} (ha : stepAmount? o.type = some amount) (increment after : Bool) :
    Demands e.free (if after then 2 else 1) (step o increment after) s e := by
  have hv := (of_stepAmount? ha).2.2
  cases after with
  | false => exact demands_of_taking hv (exec_step_before ha increment)
  | true =>
    cases hx : e.fresh? o.type.word with
    | none =>
      have hfree := (Emitter.fresh?_eq_none_iff hv).mp hx
      refine ⟨fun hle => absurd hle (by simp [hfree]), fun _ => ?_⟩
      rw [exec_step_after ha, hx]
      exact ⟨_, _, rfl⟩
    | some v =>
      have hxv : v.view.isInteger = true := by rw [(Emitter.of_fresh? hx).1, hv]
      have hfree := Emitter.free_of_holding ((Holding.refl e).take hx) hxv
      -- the first register is there, and the second is one of those that are left
      refine (Demands.shift (n := 1) ?_ hfree).of_eq rfl
      have hiff := Emitter.fresh?_eq_none_iff (e := e.take v) hv
      constructor
      · intro hle
        obtain ⟨c, hc⟩ := Option.ne_none_iff_exists'.mp fun hc => absurd (hiff.mp hc) (by omega)
        rw [exec_step_after ha, hx]
        dsimp only
        rw [hc]
        exact ⟨_, _, rfl⟩
      · intro hlt
        rw [exec_step_after ha, hx]
        dsimp only
        rw [hiff.mpr (by omega)]
        exact ⟨_, _, rfl⟩

/-- The outcome of comparing integers narrower than `long` is in a register of its own. -/
theorem demands_compare_narrow {relation : Relation} (hl : e.Takes l.cell) (hr : e.Takes r.cell)
    (hne : l.cell ≠ r.cell) (hv : l.view = r.view) (hf : l.view ≠ .float) (hlong : l.view ≠ .long) :
    Demands e.free 1 (compare relation l r) s e := by
  have hint : Scalar.long.isInteger = true := rfl
  refine demands_of_fresh? hint (fun x hx => ?_) fun hnone => ?_
  · rw [exec_compare_narrow hl hr hne hv hf hlong, hx]
    exact ⟨_, _, rfl⟩
  · rw [exec_compare_narrow hl hr hne hv hf hlong, hnone]
    exact ⟨_, rfl⟩

theorem demands_takeResult {type : CType} (ht : type.isVoid = false) (hv : type.word.isInteger = true) :
    Demands e.free 1 (takeResult type) s e := by
  refine demands_of_fresh? hv (fun x hx => ?_) fun hnone => ?_
  · rw [exec_takeResult ht, hx]
    exact ⟨_, _, rfl⟩
  · rw [exec_takeResult ht, hnone]
    exact ⟨_, rfl⟩

/-! ### Calls -/

theorem assignFrom_ok {gprs : List X86.Gpr} {xmms : List (Fin 16)} {index : Nat} {views : List Scalar}
    (hv : ∀ view ∈ views, view.isInteger = true) (hlen : views.length ≤ gprs.length) :
    ∃ targets, assignFrom gprs xmms index views = .ok targets := by
  induction views generalizing gprs index with
  | nil => exact ⟨[], rfl⟩
  | cons view views ih =>
    obtain ⟨hview, hviews⟩ := List.forall_mem_cons.mp hv
    cases gprs with
    | nil => cases hlen
    | cons g gprs =>
      obtain ⟨targets, htargets⟩ := ih hviews (Nat.le_of_succ_le_succ hlen)
      refine ⟨.quad g :: targets, ?_⟩
      simp only [assignFrom, hview, if_true]
      rw [htargets]
      rfl

theorem demands_callFunction_none {name : String} {type : CType} (ht : type.isVoid = false)
    (hv : type.word.isInteger = true) : Demands e.free 1 (callFunction name none type) s e := by
  have htake : Demands (e.emit (callCode e name)).free 1 (takeResult type) s _ := demands_takeResult ht hv
  exact htake.of_exec_eq (exec_callFunction_none name type)

/-- The register of the only argument is given back before one is taken for the result. -/
theorem demands_callFunction_some {name : String} {type : CType} (h : Holding [r.cell] n e' e)
    (ht : type.isVoid = false) (hv : type.word.isInteger = true) :
    Demands e'.free 1 (callFunction name (some r) type) s e := by
  have hgiven : Holding [] n e' ((afterArgument e r).emit (callCode (afterArgument e r) name)) :=
    ((h.emit _).release).emit _
  rw [← Emitter.free_of_holding_nil hgiven]
  exact (demands_takeResult ht hv).of_exec_eq (exec_callFunction_some (h.takes_of_mem List.mem_cons_self) name type)

theorem demands_callPushed {name : String} {type : CType} {views : List Scalar} (h : Holding [] views.length e' e)
    (hviews : ∀ view ∈ views, view.isInteger = true) (hlen : views.length ≤ 6) (ht : type.isVoid = false)
    (hv : type.word.isInteger = true) : Demands e'.free 1 (callPushed name views type) s e := by
  obtain ⟨targets, htargets⟩ : ∃ targets, assignArguments views = .ok targets := assignFrom_ok hviews hlen
  have hpushed : e.pushed = e'.pushed + views.length := h.pushed
  rw [← Emitter.free_of_holding_nil h]
  have htake : ∀ e1 : Emitter, Demands (e1.emit (callCode e1 name)).free 1 (takeResult type) s _ :=
    fun _ => demands_takeResult ht hv
  refine (htake ((e.emit (popTargetsCode targets)).withPushed (e.pushed - targets.length))).of_exec_eq ?_
  rw [exec_callPushed, htargets]
  dsimp only
  rw [if_neg (by omega)]

end Demands

end Emit

end MiniC
