import MiniC.Proofs.Emit.Sparing

/-!
# Calls leave the stack where it was

What is pushed around a call is popped after it, and what is pushed for its arguments before it. The code of a
call sees the memory through registers only, and has the floats that are live stored around it, so that it
keeps to bounds.
-/

set_option autoImplicit false

namespace MiniC.Emit

open MiniC.X86 (Register Operand Instr Moves Places)
open MiniC.Emitter (Level Moved)

variable {B : Bounds}

/-! ### Places -/

theorem places_pushFloat (r : Reg) : ∀ i ∈ pushFloatCode r, ∀ p ∈ i.places, B.places.Has p.1 p.2 := by
  simp [pushFloatCode, Instr.places, Places.Has]

theorem places_popTarget (t : Register) : ∀ i ∈ popTargetCode t, ∀ p ∈ i.places, B.places.Has p.1 p.2 := by
  cases t <;> simp [popTargetCode, Instr.places, Places.Has]

theorem places_callCode (e : Emitter) (name : String) :
    ∀ i ∈ callCode e name, ∀ p ∈ i.places, B.places.Has p.1 p.2 := by
  intro i hi
  simp only [callCode, List.mem_append, popFloatsCode, List.mem_flatMap, List.mem_singleton] at hi
  rcases hi with (((⟨r, -, hi⟩ | hi) | rfl) | hi) | ⟨r, -, hi⟩
  · exact places_pushFloat r i hi
  · split at hi <;> simp_all [Instr.places]
  · simp [Instr.places]
  · split at hi <;> simp_all [Instr.places]
  · revert i
    simp [popFloatCode, Instr.places, Places.Has]

theorem keeps_callCode (e : Emitter) (name : String) : B.Keeps ((callCode e name).map .instr) := by
  refine ⟨fun l hl => ?_, sparing_callCode (fun p hp => ?_) e name⟩
  · obtain ⟨i, hi, rfl⟩ := List.mem_map.mp hl
    exact places_callCode e name i hi
  · obtain ⟨_, _, hp⟩ := hp
    exact isOutside_of_mem_parts hp

/-- Instructions that write to registers which never hold a value. -/
theorem keeps_outside {is : List Instr} (h : ∀ i ∈ is, ∀ p ∈ i.places, B.places.Has p.1 p.2)
    (hout : ∀ i ∈ is, ∀ p ∈ i.destinations, isOutside p = true) : B.Keeps (is.map .instr) :=
  keeps_instrs h fun i hi p hp => Bounds.not_live_of_isOutside (hout i hi p hp)

/-! ### Calls -/

variable {outside : String → Prop} {s : Setting} {e e' : Emitter}

theorem level_call {type : CType} {result : Option Reg} {name : String} (hB : B.Suit s e)
    (hexec : exec (takeResult type) s (e.emit (callCode e name)) = (.ok result, e')) (outside : String → Prop) :
    (∀ r ∈ result, B.Owns r) ∧ B.Suit s e' ∧ Level B outside e e' := by
  have hcall : Level B outside e (e.emit (callCode e name)) :=
    ⟨Emitter.moved_of_emit (moves_callCode outside e name) (keeps_callCode e name) rfl rfl, rfl⟩
  have hB1 : B.Suit s (e.emit (callCode e name)) := ⟨hB.taken, hB.pool⟩
  obtain ⟨hresult, hB', hlevel⟩ := (quiet_takeResult type).levels hB1 hexec
  exact ⟨hresult, hB', hcall.trans hlevel⟩

theorem levels_callAligned (name : String) (type : CType) :
    Levels B outside (callAligned name type) fun result => ∀ r ∈ result, B.Owns r := by
  intro s e a e' hB hexec
  rw [exec_callAligned] at hexec
  exact level_call hB hexec outside

section Argument

variable (r : Reg) [hr : B.Owns r]

theorem levels_callFunction (name : String) (type : CType) :
    Levels B outside (callFunction name (some r) type) fun result => ∀ r ∈ result, B.Owns r := by
  refine (quiet_check r).levels.andThen fun _ => ?_
  rw [assignArguments_sole]
  refine Levels.bind (P := fun targets => targets = [soleTarget r.view]) (quiet_ofExcept ?_).levels ?_
  · rintro _ ⟨⟩
    rfl
  · rintro _ rfl
    have hinert : Inert B (.reg (soleTarget r.view)) := by
      cases r.view <;> exact inert_outside rfl (by decide)
    refine (quiet_moveOut r hinert).levels.andThen fun _ => (quiet_free r).levels.andThen fun _ => ?_
    exact levels_callAligned name type

theorem steady_printArray (routine : String) (length : Nat) : Steady B outside (printArray r routine length) := by
  refine (quiet_expectView r _ _).levels.andThen fun _ => ?_
  refine (quiet_moveOut r (inert_outside rfl (by decide))).levels.andThen fun _ => ?_
  refine (quiet_into rfl rfl (open_imm _) (inert_outside rfl (by decide))).levels.andThen fun _ => ?_
  refine (quiet_free r).levels.andThen fun _ => ?_
  exact (levels_callAligned routine .void).andThen fun _ => steady_pure _

theorem moved_pushArgument (hB : B.Suit s e) (h : exec (pushArgument r) s e = (.ok (), e'))
    (outside : String → Prop) : B.Suit s e' ∧ Moved B outside e e' ∧ e'.pushed = e.pushed + 1 := by
  obtain ⟨_, e1, hcheck, -⟩ := exec_bind_eq_ok h
  rw [exec_pushArgument (takes_of_check hcheck)] at h
  cases h
  have hmoves : Moves outside (8 * e.pushed) (8 * (e.pushed + 1 : Nat)) ((pushCode r).map .instr) := by
    rw [show (8 * (e.pushed + 1 : Nat) : Int) = 8 * e.pushed + 8 by omega]
    unfold pushCode
    split
    · exact moves_pushFloat outside _ r
    · refine .shift rfl (fun name h => by cases h) fun frame base => ?_
      show some _ = _
      rw [Int.add_assoc]
  have hkeeps : B.Keeps ((pushCode r).map .instr) := by
    refine keeps_outside (fun i hi => ?_) (isOutside_push r)
    unfold pushCode at hi
    split at hi
    · exact places_pushFloat r i hi
    · cases List.mem_singleton.mp hi
      simp [Instr.places]
  refine ⟨⟨fun c hc => ?_, hB.pool⟩, Emitter.moved_of_emit hmoves hkeeps rfl rfl, rfl⟩
  -- the register that is given back is none of those to be left alone
  refine (Emitter.takes_release _ r c).mpr ⟨?_, hB.taken c hc⟩
  rintro rfl
  exact hr.not_spared hc

end Argument

theorem moved_callPushed {name : String} {views : List Scalar} {type : CType} {result : Option Reg}
    (hB : B.Suit s e) (h : exec (callPushed name views type) s e = (.ok result, e')) (outside : String → Prop) :
    (∀ r ∈ result, B.Owns r) ∧ B.Suit s e' ∧ Moved B outside e e' ∧ e.pushed = e'.pushed + views.length := by
  rw [exec_callPushed] at h
  cases hassign : assignArguments views with
  | error x =>
    rw [hassign] at h
    cases h
  | ok targets =>
    rw [hassign] at h
    dsimp only at h
    split at h
    · cases h
    rename_i hpushed
    have hlength : targets.length = views.length := length_of_assignFrom hassign
    generalize he1 : (e.emit (popTargetsCode targets)).withPushed (e.pushed - targets.length) = e1 at h
    have hkeeps : B.Keeps ((popTargetsCode targets).map .instr) := by
      refine keeps_outside (fun i hi => ?_) (isOutside_popTargets hassign)
      obtain ⟨t, -, hi⟩ := List.mem_flatMap.mp hi
      exact places_popTarget t i hi
    have hpop : Moved B outside e e1 := by
      subst he1
      refine Emitter.moved_of_emit ?_ hkeeps rfl rfl
      show Moves outside (8 * e.pushed) (8 * (e.pushed - targets.length : Nat)) _
      have hmoves := moves_popTargets outside (8 * (e.pushed - targets.length : Nat))
        (isFree_of_assignArguments hassign)
      rwa [show 8 * ((e.pushed - targets.length : Nat) : Int) + 8 * targets.length = 8 * e.pushed by omega]
        at hmoves
    have hpushed1 : e1.pushed = e.pushed - targets.length := by rw [← he1]; rfl
    have hB1 : B.Suit s e1 := by
      subst he1
      exact ⟨hB.taken, hB.pool⟩
    obtain ⟨hresult, hB', hcall⟩ := level_call hB1 h fun _ => False
    have hlast := hcall.pushed
    exact ⟨hresult, hB', hpop.trans hcall.toMoved (by omega) fun _ => False.elim, by omega⟩

end MiniC.Emit
