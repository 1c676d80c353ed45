import MiniC.Proofs.Emit.Parts
import MiniC.Proofs.X86.Places

/-!
# Operations that keep to bounds

Most operations of the emitter only move values between registers and memory. `Quiet B m P` says of an
operation that its code leaves the stack alone and keeps to bounds, and what its result is like; quiet
operations one after the other are quiet, so that each operation is gone through step by step.

Bounds are places where code may go and cells of the bank that it has to leave alone. What has to be seen on
the way is that an operation writes to registers that it was given or has taken itself, which are neither the
stack pointer nor the frame pointer, and that only a few operations name a place at all: constants are loaded
from the pool, and objects are loaded, stored, counted and their addresses taken. All others see the memory
through registers.
-/

set_option autoImplicit false

namespace MiniC

namespace Emit

open MiniC.X86 (Gpr Register Operand Instr Mem Part Places)

/-! ### Bounds -/

/-- What code has to keep to: cells that it leaves alone, and places where it may go. -/
structure Bounds where
  spared : Cell → Prop
  places : Places

namespace Bounds

/-- Bounds without cells to leave alone. -/
def within (R : Places) : Bounds := ⟨fun _ => False, R⟩

abbrev anywhere : Bounds := within .anywhere

variable (B : Bounds)

/-- The parts of the machine that are to be left alone. -/
def Live (p : Part) : Prop := ∃ c, B.spared c ∧ p ∈ c.parts

/-- A register that may be written to and given back. -/
class Owns (r : Reg) : Prop where
  not_spared : ¬ B.spared r.cell

instance (R : Places) (r : Reg) : (within R).Owns r := ⟨not_false⟩

/-- The bounds can be kept to: what is to be left alone is taken, and the constants of the pool may be
accessed. -/
structure Suit (s : Setting) (e : Emitter) : Prop where
  taken : ∀ c, B.spared c → e.Takes c
  pool : B.places.Pooled s.pool

/-- An instruction that keeps to the bounds, and leaves the stack alone. -/
structure Allows (i : Instr) : Prop where
  quiet : i.isQuiet = true
  destinations : ∀ p ∈ i.destinations, ¬ B.Live p
  places : ∀ p ∈ i.places, B.places.Has p.1 p.2

theorem suit_anywhere (s : Setting) (e : Emitter) : anywhere.Suit s e :=
  ⟨fun _ => False.elim, X86.pooled_anywhere s.pool⟩

variable {B}

theorem not_live_of_isOutside {p : Part} (h : isOutside p = true) : ¬ B.Live p := by
  rintro ⟨c, -, hp⟩
  rw [isOutside_of_mem_parts hp] at h
  cases h

end Bounds

/-- An operation that appends instructions which keep to bounds, and whose results have a property. -/
def Quiet {α : Type} (B : Bounds) (m : Emit α) (P : α → Prop) : Prop :=
  ∀ ⦃s e a e'⦄, B.Suit s e → exec m s e = (.ok a, e') → P a ∧ B.Suit s e' ∧ ∃ is : List Instr,
    (∀ i ∈ is, B.Allows i) ∧ e'.text = (e.emit is).text ∧ e'.labels = e.labels ∧ e'.pushed = e.pushed

/-- A quiet operation whose result does not matter. -/
abbrev Still {α : Type} (B : Bounds) (m : Emit α) : Prop := Quiet B m fun _ => True

/-! ### Operands -/

/-- As many bytes of an operand may be accessed, if it is a place. -/
def Open (B : Bounds) (bytes : Nat) (o : Operand) : Prop := ∀ p ∈ o.places bytes, B.places.Has p.1 p.2

/-- An operand that is no place, has nothing to do with the stack and may be written to. -/
structure Inert (B : Bounds) (o : Operand) : Prop where
  free : o.isFree = true
  placeless : ∀ bytes, o.places bytes = []
  owned : ∀ p ∈ o.writes ++ o.floatWrites, ¬ B.Live p

section Operands

variable {B : Bounds} {bytes : Nat}

theorem Inert.open {o : Operand} (h : Inert B o) : Open B bytes o := by
  intro p hp
  rw [h.placeless] at hp
  exact absurd hp List.not_mem_nil

theorem inert_outside {name : Register} (h : (Operand.reg name).isFree = true)
    (hout : ∀ p ∈ (Operand.reg name).writes ++ (Operand.reg name).floatWrites, isOutside p = true) :
    Inert B (.reg name) :=
  ⟨h, fun _ => rfl, fun p hp => Bounds.not_live_of_isOutside (hout p hp)⟩

theorem open_reg (name : Register) : Open B bytes (.reg name) := fun _ hp => absurd hp List.not_mem_nil

theorem open_imm (v : Int64) : Open B bytes (.imm v) := fun _ hp => absurd hp List.not_mem_nil

theorem open_mem {place : Mem} (h : B.places.Has place bytes) : Open B bytes (.mem place) := by
  intro p hp
  obtain rfl := List.mem_singleton.mp hp
  exact h

theorem open_indirect (g : Gpr) : Open B bytes (.mem (.indirect g)) := open_mem trivial

theorem open_place {o : Symbol} (h : B.places.Admits o) : Open B o.type.size (place o) := by
  refine open_mem (h 0 o.type.size ?_ fun _ => rfl)
  omega

end Operands

section Rules

variable {α β : Type} {B : Bounds} {m : Emit α} {f : α → Emit β} {P : α → Prop} {Q : β → Prop}

theorem quiet_of_same
    (h : ∀ s e a e', B.Suit s e → exec m s e = (.ok a, e') → P a ∧ B.Suit s e' ∧ e'.text = e.text ∧
      e'.labels = e.labels ∧ e'.pushed = e.pushed) : Quiet B m P := by
  intro s e a e' hB hexec
  obtain ⟨hP, hB', htext, hlabels, hpushed⟩ := h s e a e' hB hexec
  exact ⟨hP, hB', [], fun _ h => absurd h List.not_mem_nil, by simpa using htext, hlabels, hpushed⟩

theorem quiet_pure {a : α} (h : P a) : Quiet B (pure a) P :=
  quiet_of_same fun s e b e' hB hexec => by
    cases hexec
    exact ⟨h, hB, rfl, rfl, rfl⟩

theorem still_pure (a : α) : Still B (pure a : Emit α) := quiet_pure trivial

theorem quiet_throw (x : Error) : Quiet B (throw x : Emit α) P :=
  fun s e a e' _ hexec => by cases hexec

theorem Quiet.bind (h : Quiet B m P) (hf : ∀ a, P a → Quiet B (f a) Q) : Quiet B (m >>= f) Q := by
  intro s e b e' hB hexec
  obtain ⟨a, e1, h1, h2⟩ := exec_bind_eq_ok hexec
  obtain ⟨ha, hB1, is, his, htext, hlabels, hpushed⟩ := h hB h1
  obtain ⟨hb, hB', is', his', htext', hlabels', hpushed'⟩ := hf a ha hB1 h2
  refine ⟨hb, hB', is ++ is', ?_, ?_, hlabels'.trans hlabels, hpushed'.trans hpushed⟩
  · exact List.forall_mem_append.mpr ⟨his, his'⟩
  · rw [htext', Emitter.emit_text, htext]
    simp

/-- Operations one after the other, where the first one's result is of no interest. -/
theorem Quiet.andThen (h : Quiet B m P) (hf : ∀ a, Quiet B (f a) Q) : Quiet B (m >>= f) Q :=
  h.bind fun a _ => hf a

theorem quiet_ofExcept {x : Except Error α} (h : ∀ a, x = .ok a → P a) : Quiet B (ofExcept x) P := by
  cases x with
  | ok a => exact quiet_pure (h a rfl)
  | error err => exact quiet_throw err

theorem still_ofExcept (x : Except Error α) : Still B (ofExcept x) := quiet_ofExcept fun _ _ => trivial

theorem quiet_instrs {is : List Instr} (h : ∀ i ∈ is, B.Allows i) : Still B (instrs is) := by
  intro s e a e' hB hexec
  rw [exec_instrs] at hexec
  cases hexec
  exact ⟨trivial, ⟨hB.taken, hB.pool⟩, is, h, rfl, rfl, rfl⟩

theorem quiet_instr {i : Instr} (h : B.Allows i) : Still B (instr i) := by
  intro s e a e' hB hexec
  rw [exec_instr] at hexec
  cases hexec
  exact ⟨trivial, ⟨hB.taken, hB.pool⟩, [i], List.forall_mem_singleton.mpr h, rfl, rfl, rfl⟩

theorem allows_of_target? {i : Instr} {dst : Operand} (h : i.target? = some dst) (hfree : dst.isFree = true)
    (howned : ∀ p ∈ dst.writes ++ dst.floatWrites, ¬ B.Live p)
    (hplaces : ∀ p ∈ i.places, B.places.Has p.1 p.2) : B.Allows i := by
  refine ⟨(X86.isQuiet_of_target? h).trans hfree, fun p hp => ?_, hplaces⟩
  rcases X86.mem_destinations h hp with rfl | hp
  · exact Bounds.not_live_of_isOutside rfl
  · exact howned p hp

/-- An instruction with two operands, of which the second is written to. -/
theorem quiet_into {i : Instr} {src dst : Operand} {m n : Nat} (h : i.places = src.places m ++ dst.places n)
    (htarget : i.target? = some dst) (hsrc : Open B m src) (hdst : Inert B dst) : Still B (instr i) := by
  refine quiet_instr (allows_of_target? htarget hdst.free hdst.owned ?_)
  rw [h]
  exact List.forall_mem_append.mpr ⟨hsrc, hdst.open⟩

theorem quiet_onto {i : Instr} {src : Operand} {dst : Mem} {m n : Nat}
    (h : i.places = src.places m ++ (Operand.mem dst).places n) (htarget : i.target? = some (.mem dst))
    (hsrc : Open B m src) (hdst : Open B n (.mem dst)) : Still B (instr i) := by
  refine quiet_instr (allows_of_target? htarget rfl (by simp) ?_)
  rw [h]
  exact List.forall_mem_append.mpr ⟨hsrc, hdst⟩

/-- An instruction that has no other operand than the register it writes to. -/
theorem quiet_at {i : Instr} {dst : Operand} {n : Nat} (h : i.places = dst.places n)
    (htarget : i.target? = some dst) (hdst : Inert B dst) : Still B (instr i) :=
  quiet_instr (allows_of_target? htarget hdst.free hdst.owned (h ▸ hdst.open))

theorem quiet_get : Quiet B (get : Emit Emitter) fun e => ∀ c, B.spared c → e.Takes c :=
  quiet_of_same fun s e a e' hB hexec => by
    cases hexec
    exact ⟨hB.taken, hB, rfl, rfl, rfl⟩

theorem quiet_read : Quiet B (read : Emit Setting) fun s => B.places.Pooled s.pool :=
  quiet_of_same fun s e a e' hB hexec => by
    cases hexec
    exact ⟨hB.pool, hB, rfl, rfl, rfl⟩

end Rules

/-! ### Registers of the bank -/

section Registers

variable {B : Bounds} {e : Emitter} (r : Reg)

theorem ne_of_mem_valueGprs {g : Gpr} (h : g ∈ valueGprs) : g ≠ .rsp ∧ g ≠ .rbp := by
  constructor <;> rintro rfl <;> exact absurd h (by decide)

theorem isFree_of_mem_valueGprs {g : Gpr} (h : g ∈ valueGprs) (w : X86.Width) :
    (Operand.reg (.gpr g w)).isFree = true := by
  obtain ⟨hsp, hbp⟩ := ne_of_mem_valueGprs h
  cases g <;> first | rfl | exact absurd rfl hsp | exact absurd rfl hbp

theorem takes_of_checked {r : Reg} {u : Unit} (h : e.bank.val.check r = .ok u) : e.Takes r.cell := by
  unfold Bank.check at h
  split at h
  · cases h
  split at h
  · rename_i hallocated
    refine (e.bank.property.status_eq r).mp ?_
    unfold Bank.isAllocated at hallocated
    cases hstatus : (e.bank.val.status r.view)[r.slot]? with
    | none => simp [hstatus] at hallocated
    | some taken => simpa [hstatus] using hallocated
  · cases h

theorem checked_of_bind {α : Type} {r : Reg} {f : Unit → Except Error α} {a : α}
    (h : (e.bank.val.check r >>= f) = .ok a) : e.Takes r.cell ∧ f () = .ok a := by
  cases hcheck : e.bank.val.check r with
  | error err =>
    rw [hcheck] at h
    cases h
  | ok u =>
    rw [hcheck] at h
    exact ⟨takes_of_checked hcheck, h⟩

/-- The cell of a register that may be written to has no part that is to be left alone. -/
theorem not_live_of_mem {r : Reg} {p : Part} [B.Owns r] (hB : ∀ c, B.spared c → e.Takes c)
    (ht : e.Takes r.cell) (hp : p ∈ r.cell.parts) : ¬ B.Live p := by
  rintro ⟨c, hc, hpc⟩
  obtain rfl := eq_of_mem_parts (hB c hc) ht hpc hp
  exact Bounds.Owns.not_spared hc

theorem inert_register {r : Reg} [B.Owns r] (hB : ∀ c, B.spared c → e.Takes c) (ht : e.Takes r.cell) :
    Inert B (.reg r.register) := by
  refine ⟨?_, fun _ => rfl, fun p hp => not_live_of_mem hB ht ?_⟩
  · unfold Reg.register
    cases r.view with
    | float => rfl
    | _ => exact isFree_of_mem_valueGprs (gpr_mem_valueGprs r) _
  · cases hv : r.view with
    | float =>
      rw [register_of_float hv] at hp
      obtain rfl : p = .xmm r.xmm := by simpa [Operand.writes] using hp
      exact xmm_mem_parts hv
    | char =>
      obtain rfl : p = .low r.gpr := by simpa [Reg.register, hv, Operand.writes, Operand.floatWrites] using hp
      exact low_mem_parts (by rw [hv]; rfl)
    | _ =>
      obtain rfl : p = .gpr r.gpr := by simpa [Reg.register, hv, Operand.writes, Operand.floatWrites] using hp
      exact gpr_mem_parts (by rw [hv]; rfl)

theorem inert_byte {r : Reg} [B.Owns r] (hB : ∀ c, B.spared c → e.Takes c) (ht : e.Takes r.cell)
    (hv : r.view.isInteger = true) : Inert B (.reg (.byte r.gpr)) := by
  refine ⟨isFree_of_mem_valueGprs (gpr_mem_valueGprs r) _, fun _ => rfl, fun p hp => not_live_of_mem hB ht ?_⟩
  obtain rfl : p = .low r.gpr := by simpa [Operand.floatWrites] using hp
  exact low_mem_parts hv

theorem owns_of_as {r r' : Reg} [h : B.Owns r] {view : Scalar} (has : r.as view = .ok r') : B.Owns r' := by
  unfold Reg.as at has
  split at has
  · rename_i hviews
    rw [Bool.and_eq_true] at hviews
    cases has
    exact ⟨Reg.cell_as hviews.1 hviews.2 ▸ h.not_spared⟩
  · cases has

theorem quiet_as [B.Owns r] (view : Scalar) : Quiet B (ofExcept (r.as view)) B.Owns :=
  quiet_ofExcept fun _ h => owns_of_as h

theorem quiet_allocate (view : Scalar) : Quiet B (allocate view) B.Owns :=
  quiet_of_same fun s e a e' hB hexec => by
    obtain ⟨hx, rfl⟩ : e.fresh? view = some a ∧ e' = e.take a := by
      rw [exec_allocate] at hexec
      split at hexec <;> cases hexec
      exact ⟨by assumption, rfl⟩
    have hfree := (Emitter.of_fresh? hx).2.1
    refine ⟨⟨fun hc => hfree (hB.taken _ hc)⟩, ⟨fun c hc => ?_, hB.pool⟩, rfl, rfl, rfl⟩
    exact (Emitter.takes_take hx c).mpr (.inr (hB.taken c hc))

theorem quiet_check : Still B (check r) := quiet_get.andThen fun _ => still_ofExcept _

theorem quiet_free [hr : B.Owns r] : Still B (free r) :=
  quiet_of_same fun s e a e' hB hexec => by
    have ht : e.Takes r.cell := by
      simp only [free, exec_bind, exec_get] at hexec
      split at hexec
      · cases hexec
      · rename_i hfree
        exact (checked_of_bind hfree).1
    rw [exec_free ht] at hexec
    cases hexec
    refine ⟨trivial, ⟨fun c hc => ?_, hB.pool⟩, rfl, rfl, rfl⟩
    rw [Emitter.takes_release]
    refine ⟨?_, hB.taken c hc⟩
    rintro rfl
    exact hr.not_spared hc

theorem quiet_operand [B.Owns r] : Quiet B (operand r) (Inert B) := by
  refine quiet_get.bind fun e hB => Quiet.bind (P := fun n => Inert B (.reg n)) ?_ fun _ h => quiet_pure h
  refine quiet_ofExcept fun name hname => ?_
  obtain ⟨ht, -⟩ := checked_of_bind hname
  cases (nameOf_eq_ok ht).symm.trans hname
  exact inert_register hB ht

theorem quiet_quad [B.Owns r] : Quiet B (quad r) (Inert B) := (quiet_as r _).bind fun r' _ => quiet_operand r'

theorem quiet_long [B.Owns r] : Quiet B (long r) (Inert B) := (quiet_as r _).bind fun r' _ => quiet_operand r'

theorem quiet_byte [B.Owns r] : Quiet B (byte r) (Inert B) := by
  refine quiet_get.bind fun e hB => Quiet.bind (P := fun n => Inert B (.reg n)) ?_ fun _ h => quiet_pure h
  refine quiet_ofExcept fun name hname => ?_
  obtain ⟨ht, hname'⟩ := checked_of_bind hname
  have hv : r.view.isInteger = true := by
    split at hname'
    · assumption
    · cases hname'
  cases (byteNameOf_eq_ok ht hv).symm.trans hname
  exact inert_byte hB ht hv

theorem quiet_pointer [B.Owns r] (hv : r.view = .long) : Quiet B (pointer r) fun g => Inert B (.quad g) := by
  refine quiet_get.bind fun e hB => Quiet.bind (P := fun _ => e.Takes r.cell)
    (quiet_ofExcept fun _ h => takes_of_checked h) fun _ ht => ?_
  split
  · rename_i g hg
    have hregister : r.register = .quad g := by simp [Reg.register, hv, Reg.gpr, hg]
    have hinert := inert_register hB ht
    rw [hregister] at hinert
    exact quiet_pure hinert
  · exact quiet_throw _

theorem quiet_sameView (operation : String) (l r : Reg) : Still B (sameView operation l r) := by
  refine (quiet_check l).andThen fun _ => (quiet_check r).andThen fun _ => ?_
  split
  · exact quiet_throw _
  · exact still_pure _

theorem quiet_expectView (operation : String) (view : Scalar) :
    Quiet B (expectView operation r view) fun _ => r.view = view := by
  refine (quiet_check r).andThen fun _ => ?_
  split
  · exact quiet_throw _
  · rename_i hv
    exact quiet_pure (by simpa using hv)

/-- Where nothing is to be left alone, everything may be given back. -/
theorem quiet_releaseLeaks {R : Places} (scope : String) : Still (.within R) (releaseLeaks scope) := by
  refine quiet_of_same fun s e a e' hB hexec => ?_
  have hB' : ∀ e', (Bounds.within R).Suit s e' := fun _ => ⟨fun _ => False.elim, hB.pool⟩
  simp only [releaseLeaks, exec_bind, exec_get] at hexec
  split at hexec
  · simp only [exec_bind, exec_read] at hexec
    split at hexec
    · cases hexec
    · cases hexec
      exact ⟨trivial, hB' _, rfl, rfl, rfl⟩
  · cases hexec
    exact ⟨trivial, hB, rfl, rfl, rfl⟩

theorem quiet_normalize [B.Owns r] : Still B (normalize r) := by
  unfold normalize
  split
  · exact (quiet_long r).bind fun _ hsrc => (quiet_quad r).bind fun _ hdst => quiet_into rfl rfl hsrc.open hdst
  · exact (quiet_byte r).bind fun _ hsrc => (quiet_quad r).bind fun _ hdst => quiet_into rfl rfl hsrc.open hdst
  · exact still_pure _
  · exact still_pure _

end Registers

/-! ### Moving values -/

section Transfer

variable {B : Bounds} (r : Reg) [B.Owns r]

theorem quiet_moveImmediate (value : Int64) : Still B (moveImmediate r value) := by
  refine (quiet_quad r).bind fun dst hdst => ?_
  split
  · exact quiet_into rfl rfl (open_imm value) hdst
  · exact quiet_at rfl rfl hdst

theorem quiet_loadInteger (view : Scalar) (value : Int64) : Quiet B (loadInteger view value) B.Owns :=
  (quiet_allocate view).bind fun r hr => (quiet_moveImmediate r value).andThen fun _ => quiet_pure hr

/-- Floats and the addresses of strings are the only constants that lie in memory. -/
theorem quiet_loadImmediate (value : Value) : Quiet B (loadImmediate value) B.Owns := by
  unfold loadImmediate
  split
  · exact quiet_loadInteger _ _
  · exact quiet_loadInteger _ _
  · exact quiet_loadInteger _ _
  · rename_i x
    refine quiet_read.bind fun s hpool => ?_
    split
    · exact quiet_throw _
    · rename_i label hlabel
      refine (quiet_allocate _).bind fun r hr => (quiet_operand r).bind fun dst hdst => ?_
      have hdata : Open B 8 (.mem (.data label 0)) := open_mem (hpool.floats x label hlabel)
      exact (quiet_into rfl rfl hdata hdst).andThen fun _ => quiet_pure hr
  · rename_i text
    refine quiet_read.bind fun s hpool => ?_
    split
    · exact quiet_throw _
    · rename_i label hlabel
      refine (quiet_allocate _).bind fun r hr => (quiet_operand r).bind fun dst hdst => ?_
      have hdata : Open B 0 (.mem (.data label 0)) := open_mem (hpool.strings text label hlabel)
      exact (quiet_into rfl rfl hdata hdst).andThen fun _ => quiet_pure hr

theorem quiet_loadInto {type : CType} {src : Operand} (h : Open B type.size src) :
    Still B (loadInto r type src) := by
  unfold loadInto
  split
  · exact (quiet_quad r).bind fun _ hdst => quiet_into rfl rfl h hdst
  · exact (quiet_quad r).bind fun _ hdst => quiet_into rfl rfl h hdst
  · exact (quiet_quad r).bind fun _ hdst => quiet_into rfl rfl h hdst
  · exact (quiet_quad r).bind fun _ hdst => quiet_into rfl rfl h hdst
  · exact (quiet_operand r).bind fun _ hdst => quiet_into rfl rfl h hdst
  · exact quiet_throw _
  · exact quiet_throw _

theorem quiet_storeTo {type : CType} {dst : Mem} (h : Open B type.size (.mem dst)) :
    Still B (storeTo r type (.mem dst)) := by
  unfold storeTo
  split
  · exact quiet_throw _
  · exact quiet_throw _
  · refine (quiet_expectView r _ _).andThen fun _ => (quiet_byte r).bind fun _ hsrc => ?_
    exact quiet_onto rfl rfl hsrc.open h
  · refine (quiet_expectView r _ _).andThen fun _ => (quiet_long r).bind fun _ hsrc => ?_
    exact quiet_onto rfl rfl hsrc.open h
  · refine (quiet_expectView r _ _).andThen fun _ => (quiet_operand r).bind fun _ hsrc => ?_
    exact quiet_onto rfl rfl hsrc.open h
  · refine (quiet_expectView r _ _).andThen fun _ => (quiet_quad r).bind fun _ hsrc => ?_
    exact quiet_onto rfl rfl hsrc.open h
  · refine (quiet_expectView r _ _).andThen fun _ => (quiet_quad r).bind fun _ hsrc => ?_
    exact quiet_onto rfl rfl hsrc.open h

variable {o : Symbol}

theorem quiet_addressOf (h : B.places.Admits o) : Quiet B (addressOf o) B.Owns := by
  refine (quiet_allocate _).bind fun r hr => (quiet_operand r).bind fun _ hdst => ?_
  have haddress : Open B 0 (place o) := open_mem (h 0 0 (Nat.zero_le _) fun _ => rfl)
  exact (quiet_into rfl rfl haddress hdst).andThen fun _ => quiet_pure hr

theorem quiet_loadSymbol (h : B.places.Admits o) : Quiet B (loadSymbol o) B.Owns := by
  unfold loadSymbol
  split
  · exact quiet_addressOf h
  · refine (still_ofExcept _).andThen fun view => (quiet_allocate view).bind fun r hr => ?_
    exact (quiet_loadInto r (open_place h)).andThen fun _ => quiet_pure hr

theorem quiet_storeSymbol (h : B.places.Admits o) : Still B (storeSymbol r o) := quiet_storeTo r (open_place h)

/-- An element lies in its array: the index has been compared with the length. -/
theorem quiet_storeElement (h : B.places.Admits o) (index : Nat) : Still B (storeElement r o index) := by
  unfold storeElement
  split
  · rename_i element length htype
    split
    · exact quiet_throw _
    · rename_i hindex
      dsimp only
      split
      · have hin : index * element.size + element.size ≤ o.type.size := by
          rw [htype]
          show index * element.size + element.size ≤ element.size * length
          calc
            index * element.size + element.size = element.size * (index + 1) := by ring
            _ ≤ element.size * length := Nat.mul_le_mul_left _ (by omega)
        have hsize : element.size ≠ 0 := by cases element <;> decide
        exact quiet_storeTo r (open_mem (h _ element.size hin fun hzero => absurd hzero hsize))
      · exact quiet_throw _
  · exact quiet_throw _

theorem quiet_dereference (type : CType) : Quiet B (dereference r type) B.Owns := by
  unfold dereference
  split
  · exact quiet_throw _
  · refine (quiet_expectView r _ _).bind fun _ hv => (quiet_pointer r hv).andThen fun g => ?_
    dsimp only
    split
    · refine (quiet_allocate _).bind fun value hvalue => ?_
      refine (quiet_loadInto value (open_indirect g)).andThen fun _ => ?_
      exact (quiet_free r).andThen fun _ => quiet_pure hvalue
    · exact (quiet_loadInto r (open_indirect g)).andThen fun _ => quiet_as r _

theorem quiet_storeIndirect (value address : Reg) [B.Owns value] [B.Owns address] (type : CType) :
    Still B (storeIndirect value address type) := by
  unfold storeIndirect
  split
  · exact quiet_throw _
  · refine (quiet_expectView address _ _).bind fun _ hv => (quiet_pointer address hv).andThen fun g => ?_
    exact (quiet_storeTo value (open_indirect g)).andThen fun _ => quiet_free address

theorem quiet_elementAddress (base index : Reg) [hbase : B.Owns base] [B.Owns index] (element : Scalar) :
    Quiet B (elementAddress base index element) B.Owns := by
  refine (quiet_expectView base _ _).bind fun _ hv => (quiet_expectView index _ _).bind fun _ hw => ?_
  refine (quiet_pointer base hv).bind fun b hb => (quiet_pointer index hw).andThen fun i => ?_
  have haddress : Open B 0 (.mem (.indexed b i element.size)) := open_mem trivial
  refine (quiet_into rfl rfl haddress hb).andThen fun _ => ?_
  exact (quiet_free index).andThen fun _ => quiet_pure hbase

/-- Counting in a register and writing the result back, before what comes after it. -/
theorem quiet_writeBack (h : B.places.Admits o) (updated : Reg) [B.Owns updated] (op : X86.Alu) (amount : Int64)
    {rest : Emit Reg} (hrest : Quiet B rest B.Owns) :
    Quiet B (do
      instr (.alu op .quad (.imm amount) (← quad updated))
      normalize updated
      storeSymbol updated o
      rest) B.Owns := by
  refine (quiet_quad updated).bind fun _ hdst => (quiet_into rfl rfl (open_imm amount) hdst).andThen fun _ => ?_
  exact (quiet_normalize updated).andThen fun _ => (quiet_storeSymbol updated h).andThen fun _ => hrest

/-- An object is loaded and stored again at its own width. -/
theorem quiet_step (h : B.places.Admits o) (increment after : Bool) :
    Quiet B (step o increment after) B.Owns := by
  unfold step
  split
  · exact quiet_throw _
  · refine (quiet_loadSymbol h).bind fun value hvalue => ?_
    cases after with
    | true =>
      refine (quiet_allocate _).bind fun copy hcopy => (quiet_quad value).bind fun _ hsrc => ?_
      refine (quiet_quad copy).bind fun _ hdst => (quiet_into rfl rfl hsrc.open hdst).andThen fun _ => ?_
      refine (quiet_pure hcopy).bind fun updated _ => quiet_writeBack h updated _ _ ?_
      exact (quiet_free updated).andThen fun _ => quiet_pure hvalue
    | false => exact (quiet_pure hvalue).bind fun updated _ => quiet_writeBack h updated _ _ (quiet_pure hvalue)

theorem quiet_moveIn (source : Register) : Still B (moveIn r source) := by
  unfold moveIn
  split
  · exact (quiet_operand r).bind fun _ hdst => quiet_into rfl rfl (open_reg source) hdst
  · exact (quiet_quad r).bind fun _ hdst => quiet_into rfl rfl (open_reg source) hdst

theorem quiet_moveOut {target : Register} (h : Inert B (.reg target)) : Still B (moveOut r target) := by
  unfold moveOut
  split
  · exact (quiet_operand r).bind fun _ hsrc => quiet_into rfl rfl hsrc.open h
  · exact (quiet_quad r).bind fun _ hsrc => quiet_into rfl rfl hsrc.open h

theorem quiet_storeParameters {ps : List Symbol} (hps : ∀ p ∈ ps, B.places.Admits p) (sources : List Register) :
    Still B (storeParameters ps sources) := by
  induction ps generalizing sources with
  | nil =>
    rw [storeParameters]
    · exact still_pure _
    · simp
  | cons p ps ih =>
    cases sources with
    | nil =>
      rw [storeParameters]
      · exact still_pure _
      · simp
    | cons source sources =>
      obtain ⟨hp, hps⟩ := List.forall_mem_cons.mp hps
      rw [storeParameters]
      refine (still_ofExcept _).andThen fun view => (quiet_allocate view).bind fun r _ => ?_
      refine (quiet_moveIn r source).andThen fun _ => (quiet_storeSymbol r hp).andThen fun _ => ?_
      exact (quiet_free r).andThen fun _ => ih hps sources

theorem quiet_returnValue (type : CType) : Still B (returnValue r type) := by
  refine (still_ofExcept _).andThen fun view => (quiet_expectView r _ _).andThen fun _ => ?_
  refine (quiet_moveOut r ?_).andThen fun _ => quiet_free r
  split <;> exact inert_outside rfl (by decide)

theorem quiet_takeResult (type : CType) : Quiet B (takeResult type) fun result => ∀ r ∈ result, B.Owns r := by
  have hresult : ∀ {i : Instr} {name : Register} {dst : Operand} {m n : Nat} (r : Reg), B.Owns r →
      i.places = (Operand.reg name).places m ++ dst.places n → i.target? = some dst → Inert B dst →
      Quiet B (do instr i; pure (some r)) fun result => ∀ r ∈ result, B.Owns r := by
    intro i name dst m n r hr h htarget hdst
    refine (quiet_into h htarget (open_reg name) hdst).andThen fun _ => quiet_pure ?_
    rintro _ ⟨⟩
    exact hr
  unfold takeResult
  split
  · exact quiet_pure fun _ h => by cases h
  · refine (still_ofExcept _).andThen fun view => (quiet_allocate view).bind fun result hr => ?_
    split
    · exact (quiet_operand result).bind fun _ hdst => hresult result hr rfl rfl hdst
    all_goals exact (quiet_quad result).bind fun _ hdst => hresult result hr rfl rfl hdst

end Transfer

/-! ### Computing -/

section Compute

variable {B : Bounds} (l r : Reg) [hl : B.Owns l] [hr : B.Owns r]

theorem quiet_compareIntegers : Still B (compareIntegers l r) :=
  (quiet_quad r).bind fun _ hsrc => (quiet_quad l).bind fun _ hdst => quiet_into rfl rfl hsrc.open hdst

theorem quiet_compareFloats (relation : Relation) : Still B (compareFloats relation l r) := by
  have hcompare : ∀ (src dst : Reg) [B.Owns src] [B.Owns dst] (asked : Relation), Still B (do
      instr (.sse .ucomisd (← operand src) (← operand dst))
      pure asked) := fun src dst _ _ asked =>
    (quiet_operand src).bind fun _ hsrc => (quiet_operand dst).bind fun _ hdst =>
      (quiet_into rfl rfl hsrc.open hdst).andThen fun _ => still_pure _
  unfold compareFloats
  cases relation <;> exact hcompare _ _ _

theorem quiet_setInto (c : X86.Cond) : Still B (setInto r c) := by
  refine (quiet_byte r).bind fun _ hlow => (quiet_at rfl rfl hlow).andThen fun _ => ?_
  exact (quiet_byte r).bind fun _ hsrc => (quiet_quad r).bind fun _ hdst => quiet_into rfl rfl hsrc.open hdst

theorem quiet_setFloatInto (relation : Relation) : Still B (setFloatInto r relation) := by
  refine (quiet_byte r).bind fun low hlow => (quiet_at rfl rfl hlow).andThen fun _ => ?_
  have hextend : Still B (do instr (.movZero .byte .quad low (← quad r))) :=
    (quiet_quad r).bind fun _ hdst => quiet_into rfl rfl hlow.open hdst
  have hparity : Inert B parityByte := inert_outside rfl (by decide)
  cases relation with
  | eq =>
    refine (quiet_at (n := 1) rfl rfl hparity).andThen fun _ => ?_
    exact (quiet_into rfl rfl hparity.open hlow).andThen fun _ => hextend
  | ne =>
    refine (quiet_at (n := 1) rfl rfl hparity).andThen fun _ => ?_
    exact (quiet_into rfl rfl hparity.open hlow).andThen fun _ => hextend
  | _ => exact hextend

theorem quiet_compare (relation : Relation) : Quiet B (compare relation l r) B.Owns := by
  refine (quiet_sameView _ l r).andThen fun _ => ?_
  split
  · refine (quiet_compareFloats l r relation).andThen fun asked => ?_
    refine (quiet_free l).andThen fun _ => (quiet_free r).andThen fun _ => ?_
    refine (quiet_allocate _).bind fun result hresult => ?_
    exact (quiet_setFloatInto result asked).andThen fun _ => quiet_pure hresult
  · refine (quiet_compareIntegers l r).andThen fun _ => ?_
    split
    · refine (quiet_setInto r _).andThen fun _ => ?_
      exact (quiet_free l).andThen fun _ => quiet_pure hr
    · refine (quiet_allocate _).bind fun result hresult => (quiet_setInto result _).andThen fun _ => ?_
      exact (quiet_free l).andThen fun _ => (quiet_free r).andThen fun _ => quiet_pure hresult

theorem quiet_floatZero : Quiet B floatZero B.Owns :=
  (quiet_allocate _).bind fun zero hzero => (quiet_operand zero).bind fun _ hdst =>
    (quiet_into rfl rfl hdst.open hdst).andThen fun _ => quiet_pure hzero

theorem quiet_testFloat : Still B (testFloat r) := by
  refine quiet_floatZero.bind fun zero _ => (quiet_operand zero).bind fun _ hsrc => ?_
  refine (quiet_operand r).bind fun _ hdst => (quiet_into rfl rfl hsrc.open hdst).andThen fun _ => ?_
  exact (quiet_free zero).andThen fun _ => quiet_free r

/-- A quotient and a shift count pass through registers that never hold a value. -/
theorem quiet_integerOp (op : ArithOp) {src dst : Operand} (hsrc : Inert B src) (hdst : Inert B dst) :
    Still B (instrs (integerOp op src dst)) := by
  have hrax : Inert B (.quad .rax) := inert_outside rfl (by decide)
  have hrcx : Inert B (.quad .rcx) := inert_outside rfl (by decide)
  have hallows : ∀ {i : Instr} {dst : Operand}, i.target? = some dst → Inert B dst → i.places = [] → B.Allows i :=
    fun h hdst hplaces => allows_of_target? h hdst.free hdst.owned (by simp [hplaces])
  have hidiv : B.Allows (.idiv .quad src) ∧ B.Allows .cqo := by
    refine ⟨⟨rfl, fun p hp => Bounds.not_live_of_isOutside ?_, hsrc.open⟩,
      ⟨rfl, fun p hp => Bounds.not_live_of_isOutside ?_, fun _ hp => absurd hp List.not_mem_nil⟩⟩
    · simp only [Instr.destinations, Instr.writes, List.mem_cons, List.not_mem_nil, or_false] at hp
      rcases hp with rfl | rfl | rfl <;> rfl
    · rw [List.mem_singleton.mp hp]
      rfl
  refine quiet_instrs ?_
  cases op with
  | div | mod =>
    refine List.forall_mem_cons.mpr ⟨hallows rfl hrax ?_, List.forall_mem_cons.mpr ⟨hidiv.2,
      List.forall_mem_cons.mpr ⟨hidiv.1, List.forall_mem_singleton.mpr (hallows rfl hdst ?_)⟩⟩⟩
    all_goals simp [Instr.places, hdst.placeless]
  | shl | shr =>
    refine List.forall_mem_cons.mpr ⟨hallows rfl hrcx ?_, List.forall_mem_singleton.mpr (hallows rfl hdst ?_)⟩
    all_goals simp [Instr.places, hsrc.placeless, hdst.placeless]
  | _ => exact List.forall_mem_singleton.mpr (hallows rfl hdst (by simp [Instr.places, hsrc.placeless, hdst.placeless]))

theorem quiet_binary (op : ArithOp) : Quiet B (binary op l r) B.Owns := by
  refine (quiet_sameView _ l r).andThen fun _ => ?_
  split
  · split
    · exact quiet_throw _
    · refine (quiet_operand r).bind fun _ hsrc => (quiet_operand l).bind fun _ hdst => ?_
      refine (quiet_into rfl rfl hsrc.open hdst).andThen fun _ => ?_
      exact (quiet_free r).andThen fun _ => quiet_pure hl
  · refine (quiet_quad l).bind fun _ hdst => (quiet_quad r).bind fun _ hsrc => ?_
    refine (quiet_integerOp op hsrc hdst).andThen fun _ => ?_
    exact (quiet_normalize l).andThen fun _ => (quiet_free r).andThen fun _ => quiet_pure hl

theorem quiet_negate : Quiet B (negate r) B.Owns := by
  unfold negate
  split
  · refine quiet_floatZero.bind fun zero hzero => (quiet_operand r).bind fun _ hsrc => ?_
    refine (quiet_operand zero).bind fun _ hdst => (quiet_into rfl rfl hsrc.open hdst).andThen fun _ => ?_
    exact (quiet_free r).andThen fun _ => quiet_pure hzero
  · refine (quiet_quad r).bind fun _ hdst => (quiet_at rfl rfl hdst).andThen fun _ => ?_
    exact (quiet_normalize r).andThen fun _ => quiet_pure hr

theorem quiet_invert : Quiet B (invert r) B.Owns := by
  unfold invert
  split
  · exact quiet_throw _
  · refine (quiet_quad r).bind fun _ hdst => (quiet_at rfl rfl hdst).andThen fun _ => ?_
    exact (quiet_normalize r).andThen fun _ => quiet_pure hr

theorem quiet_logicalNot : Quiet B (logicalNot r) B.Owns := by
  unfold logicalNot
  split
  · refine (quiet_testFloat r).andThen fun _ => (quiet_allocate _).bind fun result hresult => ?_
    exact (quiet_setFloatInto result _).andThen fun _ => quiet_pure hresult
  · refine (quiet_quad r).bind fun _ hdst => (quiet_into rfl rfl (open_imm 0) hdst).andThen fun _ => ?_
    exact (quiet_setInto r _).andThen fun _ => quiet_as r _

theorem quiet_unary (op : ValueOp) : Quiet B (unary op r) B.Owns := by
  refine (quiet_check r).andThen fun _ => ?_
  cases op with
  | negate => exact quiet_negate r
  | invert => exact quiet_invert r
  | not => exact quiet_logicalNot r

theorem quiet_convert (source target : Scalar) : Quiet B (convert r source target) B.Owns := by
  refine (quiet_expectView r _ _).andThen fun _ => ?_
  split
  · exact quiet_pure hr
  split
  · refine (quiet_allocate _).bind fun result hresult => (quiet_operand r).bind fun _ hsrc => ?_
    refine (quiet_quad result).bind fun _ hdst => (quiet_into rfl rfl hsrc.open hdst).andThen fun _ => ?_
    exact (quiet_normalize result).andThen fun _ => (quiet_free r).andThen fun _ => quiet_pure hresult
  split
  · refine (quiet_allocate _).bind fun result hresult => (quiet_quad r).bind fun _ hsrc => ?_
    refine (quiet_operand result).bind fun _ hdst => (quiet_into rfl rfl hsrc.open hdst).andThen fun _ => ?_
    exact (quiet_free r).andThen fun _ => quiet_pure hresult
  · refine (quiet_as r _).bind fun result hresult => ?_
    dsimp only
    split
    · exact (quiet_normalize result).andThen fun _ => quiet_pure hresult
    · exact quiet_pure hresult

end Compute

end Emit

end MiniC
