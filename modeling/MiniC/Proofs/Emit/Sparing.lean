import MiniC.Proofs.Emit.Calls

/-!
# Calls that leave live registers alone

The floats that are live are stored on the stack before a call and read back after it, so that the code of a
call leaves alone what is live. Arguments are moved to registers that never hold a value.
-/

set_option autoImplicit false

namespace MiniC.Emit

open X86 (Register Operand Instr Part Sparing)

/-! ### Operations that succeed -/

section Success

variable {s : Setting} {e e' : Emitter} {r : Reg} {u : Unit}

/-- How an operation ends that takes a register and appends instructions. -/
def taking (e : Emitter) (view : Scalar) (code : Reg → List Instr) : Except Error Reg × Emitter :=
  match e.fresh? view with
  | some x => (.ok x, (e.take x).emit (code x))
  | none => (.error (.noFreeRegister view), e)

theorem of_taking {view : Scalar} {code : Reg → List Instr} (h : taking e view code = (.ok r, e')) :
    e.fresh? view = some r ∧ e' = (e.take r).emit (code r) := by
  unfold taking at h
  cases hx : e.fresh? view with
  | none =>
    rw [hx] at h
    cases h
  | some x =>
    rw [hx] at h
    cases h
    exact ⟨rfl, rfl⟩

theorem of_storeTo (hr : e.Takes r.cell) {type : CType} {dst : Operand}
    (hexec : exec (storeTo r type dst) s e = (.ok u, e')) : e' = e.emit [storeInstr r dst] := by
  cases hv : type.isVoid with
  | true =>
    obtain rfl : type = .void := by cases type <;> simp_all [CType.isVoid]
    cases hexec
  | false =>
    cases ha : type.isArray with
    | true =>
      obtain ⟨element, length, rfl⟩ : ∃ element length, type = .array element length := by
        cases type <;> simp_all [CType.isArray]
      cases hexec
    | false =>
      rw [exec_storeTo hr hv ha] at hexec
      split_ifs at hexec <;> cases hexec
      rfl

theorem of_storeIndirect {a : Reg} (hr : e.Takes r.cell) (ha : e.Takes a.cell) {type : CType}
    (hexec : exec (storeIndirect r a type) s e = (.ok u, e')) :
    e' = (e.emit [storeInstr r (.mem (.indirect a.gpr))]).release a := by
  cases ht : type.element? with
  | none =>
    rw [storeIndirect, ht] at hexec
    cases hexec
  | some element =>
    rw [exec_storeIndirect hr ha ht] at hexec
    split_ifs at hexec <;> cases hexec
    rfl

end Success

/-! ### Calls -/

/-- What is pushed around a call is popped after it. -/
def nested (rs : List Reg) (is : List Instr) : List Instr := rs.flatMap pushFloatCode ++ is ++ popFloatsCode rs

theorem nested_cons (r : Reg) (rs : List Reg) (is : List Instr) :
    nested (r :: rs) is = pushFloatCode r ++ nested rs is ++ popFloatCode r := by
  simp [nested, popFloatsCode]

/-- Every float that is pushed before a call is read back from where it was stored. -/
theorem sparing_nested {live : Part → Prop} (hlive : ∀ p, live p → isOutside p = false) {name : String}
    {is : List Instr} (his : Sparing live (is.map .instr)) (hcall : .call name ∈ is)
    (hlevel : ∀ d, X86.track (is.map .instr) d = some d) {rs : List Reg} (hrs : ∀ r ∈ rs, r.view = .float) :
    Sparing live ((nested rs is).map .instr) ∧ .call name ∈ nested rs is ∧
      ∀ d, X86.track ((nested rs is).map .instr) d = some d := by
  have hstack : ∀ op : X86.Alu, ∀ p ∈ (Instr.alu op .quad (.imm (Int64.ofNat wordBytes)) (.quad .rsp)).destinations,
      ¬ live p := by
    intro op p hp hl
    have hout := hlive p hl
    simp only [Instr.destinations, Instr.writes, Operand.writes_quad, List.mem_cons, List.not_mem_nil,
      or_false] at hp
    rcases hp with rfl | rfl <;> simp [isOutside, valueGprs] at hout
  -- from the inside out: what is stored and read back for one float is around all that follows it
  induction rs with
  | nil => simpa [nested, popFloatsCode] using ⟨his, hcall, hlevel⟩
  | cons r rs ih =>
    obtain ⟨hr, hrs⟩ := List.forall_mem_cons.mp hrs
    obtain ⟨hs, hc, ht⟩ := ih hrs
    rw [nested_cons, List.map_append, List.map_append]
    refine ⟨?_, by simp [hc], fun d => ?_⟩
    · rw [pushFloatCode, popFloatCode, register_of_float hr]
      exact hs.around ht (List.mem_map_of_mem hc) (hstack .sub) (hstack .add) r.xmm
    · have hpush := (moves_pushFloat (fun _ => False) 0 r).track d.top d.base
      have hpop := (moves_popFloat (fun _ => False) 0 hr).track d.top d.base
      rw [Int.add_zero] at hpush hpop
      rw [X86.track_append (X86.track_append hpush |>.trans (ht _))]
      exact hpop

theorem sparing_callCode {live : Part → Prop} (hlive : ∀ p, live p → isOutside p = false) (e : Emitter)
    (name : String) : Sparing live ((callCode e name).map .instr) := by
  have hfloats : ∀ r ∈ e.bank.val.live .float, r.view = .float := fun r hr => (takes_of_mem_live hr).2
  have hlt : callPadding e < 16 := Nat.mod_lt _ (by decide)
  -- around the call itself the stack is moved, if it has to be aligned, and moved back
  generalize hpad : (if callPadding e ≠ 0 then
    [Instr.alu .sub .quad (.imm (Int64.ofNat (callPadding e))) (.quad .rsp)] else []) = grow
  generalize hunpad : (if callPadding e ≠ 0 then
    [Instr.alu .add .quad (.imm (Int64.ofNat (callPadding e))) (.quad .rsp)] else []) = shrink
  have hcode : callCode e name = nested (e.bank.val.live .float) (grow ++ [.call name] ++ shrink) := by
    simp [callCode, nested, hpad, hunpad]
  rw [hcode]
  have hcall : .call name ∈ grow ++ [.call name] ++ shrink := by simp
  refine (sparing_nested hlive (X86.sparing_of_forall fun i hi p hp hl => ?_) hcall (fun d => ?_) hfloats).1
  · have hout := hlive p hl
    obtain ⟨_, hi, heq⟩ := List.mem_map.mp hi
    cases heq
    subst hpad hunpad
    split_ifs at hi <;> simp only [List.nil_append, List.append_nil, List.mem_append, List.mem_singleton] at hi
    · rcases hi with (rfl | rfl) | rfl <;>
        simp only [Instr.destinations, Instr.writes, Operand.writes_quad, List.mem_cons, List.not_mem_nil,
          or_false] at hp <;>
        rcases hp with rfl | rfl <;> simp [isOutside, valueGprs] at hout
    · subst hi
      cases hp
  · subst hpad hunpad
    split_ifs
    · have hgrow := (moves_growStack (fun _ => False) 0 (n := callPadding e) (by omega)).track d.top d.base
      have hshrink := (moves_shrinkStack (fun _ => False) 0 (n := callPadding e) (by omega)).track d.top d.base
      rw [Int.add_zero] at hgrow hshrink
      have hcall := @X86.track_append _ [.instr (.call name), .instr (.alu .add .quad
        (.imm (Int64.ofNat (callPadding e))) (.quad .rsp))] _ _ hgrow
      exact hcall.trans hshrink
    · rfl

theorem isOutside_target {views : List Scalar} {targets : List Register} (h : assignArguments views = .ok targets) :
    ∀ t ∈ targets, ∀ i ∈ popTargetCode t, ∀ p ∈ i.destinations, isOutside p = true := by
  intro t ht i hi p hp
  rcases mem_of_assignFrom h t ht with ⟨g, hg, rfl⟩ | ⟨y, hy, rfl⟩
  · cases List.mem_singleton.mp hi
    have hout : ∀ g ∈ argumentGprs, g ∉ valueGprs := by decide
    simp only [Instr.destinations, Instr.writes, Operand.writes_quad, List.mem_cons, List.not_mem_nil,
      or_false] at hp
    rcases hp with rfl | rfl
    · decide
    · simp [isOutside, hout g hg]
  · have hout : ∀ y ∈ argumentXmms, y ∉ valueXmms := by decide
    simp only [popTargetCode, List.mem_cons, List.not_mem_nil, or_false] at hi
    rcases hi with rfl | rfl
    · rw [List.mem_singleton.mp hp]
      simp [isOutside, hout y hy]
    · simp only [Instr.destinations, Instr.writes, Operand.writes_quad, List.mem_cons, List.not_mem_nil,
        or_false] at hp
      rcases hp with rfl | rfl <;> decide

theorem isOutside_popTargets {views : List Scalar} {targets : List Register} (h : assignArguments views = .ok targets) :
    ∀ i ∈ popTargetsCode targets, ∀ p ∈ i.destinations, isOutside p = true := by
  intro i hi p hp
  obtain ⟨t, ht, hi⟩ := List.mem_flatMap.mp hi
  exact isOutside_target h t (List.mem_reverse.mp ht) i hi p hp

theorem isOutside_push (r : Reg) : ∀ i ∈ pushCode r, ∀ p ∈ i.destinations, isOutside p = true := by
  unfold pushCode pushFloatCode
  split <;> simp [Instr.destinations, Instr.writes, isOutside, valueGprs]

end MiniC.Emit
