import MiniC.Proofs.Emit.Outcome
import MiniC.Proofs.Emit.Sparing

/-!
# Registers that are extended

A register has 64 bits and its view may have fewer. What stands above them is determined: the sign of an `int`,
and zeros above a `char` (`Reg.Extended`). Operations see to this for their results, whatever their operands were:
the last of their instructions that writes the register extends it (`Settles`). Only a store and a conversion to
a wider type leave it to the value that they are given.
-/

set_option autoImplicit false

namespace MiniC.Emit

open X86 (Cpu Env Exits Gpr Register Operand Instr Line Mem Width)
open Emitter (Holding Grows added)

/-! ### Extended words -/

/-- The word that the low part of a register stands for, held as a type. -/
def extend : Scalar → BitVec 64 → BitVec 64
  | .int, x => Width.long.sext x
  | .char, x => Width.byte.zext x
  | .long, x | .float, x => x

/-- The whole of a register is determined by the part that its view has. -/
def Reg.Extended (r : Reg) (c : Cpu) : Prop := c.regs r.gpr = extend r.view (c.regs r.gpr)

theorem setWidth_signExtend (y : BitVec 32) : (y.signExtend 64).setWidth 32 = y := by
  ext i hi
  rw [BitVec.getElem_setWidth, BitVec.getLsbD_signExtend, if_pos hi, BitVec.getLsbD_eq_getElem hi]
  simp
  omega

theorem extend_extend (view : Scalar) (x : BitVec 64) : extend view (extend view x) = extend view x := by
  cases view with
  | int => simp [extend, Width.sext, setWidth_signExtend]
  | char => simp [extend, Width.zext]
  | _ => rfl

/-- An integer type extends what a type of no more bytes has extended. -/
theorem extend_of_size_le {source target : Scalar} (hs : source.isInteger = true) (ht : target.isInteger = true)
    (hle : source.size ≤ target.size) {x : BitVec 64} (hx : x = extend source x) : x = extend target x := by
  cases target with
  | int =>
    cases source with
    | char =>
      -- a byte with zeros above it has no sign in the bits of an `int`
      have hlt : x.toNat < 256 := by
        rw [hx, extend, Width.zext, BitVec.toNat_setWidth, BitVec.toNat_setWidth]
        omega
      rw [extend, Width.sext, BitVec.signExtend_eq_setWidth_of_msb_false]
      · apply BitVec.eq_of_toNat_eq
        simp only [BitVec.toNat_setWidth]
        omega
      · rw [BitVec.msb_eq_false_iff_two_mul_lt, BitVec.toNat_setWidth]
        omega
    | int => exact hx
    | long => simp [Scalar.size] at hle
    | float => cases hs
  | char =>
    cases source with
    | char => exact hx
    | int => simp [Scalar.size] at hle
    | long => simp [Scalar.size] at hle
    | float => cases hs
  | long => rfl
  | float => cases ht

theorem word_eq_long {type : CType} (hchar : type = .scalar .char → False) (hint : type = .scalar .int → False)
    (hfloat : type = .scalar .float → False) : type.word = .long := by
  cases type with
  | scalar t => cases t <;> simp_all [CType.word]
  | _ => rfl

section Extends

variable {env : Env} {c c' : Cpu} {r : Reg} {i : Instr} {is : List Instr}

theorem extended_of_eq {x : BitVec 64} (h : c.regs r.gpr = extend r.view x) : r.Extended c := by
  rw [Reg.Extended, h, extend_extend]

theorem extended_of_long (h : r.view = .long) (c : Cpu) : r.Extended c := by rw [Reg.Extended, h]; rfl

theorem extended_of_float (h : r.view = .float) (c : Cpu) : r.Extended c := by rw [Reg.Extended, h]; rfl

theorem Reg.Extended.of_regs (h : r.Extended c) (hregs : c'.regs r.gpr = c.regs r.gpr) : r.Extended c' := by
  rw [Reg.Extended, hregs]
  exact h

/-- Functions leave the registers of values alone, but for those of floats. -/
theorem kept_of_gpr (r : Reg) : r.gpr ∈ X86.keptGprs := by
  have hall : ∀ g ∈ valueGprs, g ∈ X86.keptGprs := by decide
  exact hall r.gpr (gpr_mem_valueGprs r)

/-- Instructions that do not jump, and whoever has run them finds a register extended. -/
structure Extends (is : List Instr) (r : Reg) : Prop where
  plain : ∀ i ∈ is, i.isPlain = true
  extended : ∀ ⦃env⦄ ⦃c c' : Cpu⦄, c.runs env is = some c' → r.Extended c'

theorem extends_of_run (hi : i.isPlain = true) (h : ∀ env (c c' : Cpu), c.run env i = some c' → r.Extended c') :
    Extends [i] r := by
  refine ⟨List.forall_mem_singleton.mpr hi, fun env c c' hruns => ?_⟩
  obtain ⟨c1, hrun, heq⟩ := Option.bind_eq_some_iff.mp hruns
  cases heq
  exact h env c c' hrun

/-- Instructions that leave a register alone leave it extended. -/
theorem Extends.keeping {later : List Instr} (h : Extends is r) (hplain : ∀ i ∈ later, i.isPlain = true)
    (hlater : ∀ i ∈ later, X86.Untouched r.gpr i.destinations) : Extends (is ++ later) r := by
  refine ⟨List.forall_mem_append.mpr ⟨h.plain, hplain⟩, fun env c c' hruns => ?_⟩
  rw [Cpu.runs_append] at hruns
  obtain ⟨c1, hfirst, hruns⟩ := Option.bind_eq_some_iff.mp hruns
  exact (h.extended hfirst).of_regs (X86.regs_of_runs hlater (kept_of_gpr r) hruns)

theorem extends_signed {src : Operand} (hv : r.view = .int) :
    Extends [.movSign .long .quad src (.quad r.gpr)] r := by
  refine extends_of_run rfl fun env c c' hrun => ?_
  obtain ⟨m, hm, rfl⟩ := Option.map_eq_some_iff.mp hrun
  obtain ⟨x, -, hassign⟩ := Option.bind_eq_some_iff.mp hm
  cases hassign
  apply extended_of_eq (x := x)
  simp [hv, extend, Width.replace]

theorem value_byte_lt {D : X86.Layout} {m : X86.Machine} {src : Operand} {x : BitVec 64}
    (h : m.value D .byte src = some x) : x = Width.byte.zext x := by
  unfold X86.Machine.value at h
  split at h
  · split_ifs at h
    cases h
    simp [Width.zext]
  · cases h
  · cases h
    simp [Width.zext]
  · obtain ⟨a, -, rfl⟩ := Option.map_eq_some_iff.mp h
    have hlt := m.mem.read_lt a 1
    apply BitVec.eq_of_toNat_eq
    simp only [Width.zext, BitVec.toNat_setWidth, BitVec.toNat_ofNat, Width.bytes]
    omega

theorem extends_unsigned {src : Operand} (hv : r.view = .char) :
    Extends [.movZero .byte .quad src (.quad r.gpr)] r := by
  refine extends_of_run rfl fun env c c' hrun => ?_
  obtain ⟨m, hm, rfl⟩ := Option.map_eq_some_iff.mp hrun
  obtain ⟨x, hvalue, hassign⟩ := Option.bind_eq_some_iff.mp hm
  cases hassign
  apply extended_of_eq (x := x)
  simp [hv, extend, Width.replace, ← value_byte_lt hvalue]

theorem isPlain_store {y : Reg} {dst : Operand} (hi : i ∈ [storeInstr y dst]) : i.isPlain = true := by
  cases List.mem_singleton.mp hi
  unfold storeInstr
  cases y.view <;> rfl

theorem untouched_store {y : Reg} {place : Mem} {g : Gpr} (hi : i ∈ [storeInstr y (.mem place)]) :
    X86.Untouched g i.destinations := by
  cases List.mem_singleton.mp hi
  unfold storeInstr
  cases y.view <;> simp [X86.Untouched, Instr.destinations, Instr.writes]

/-- Counting in a copy leaves the register alone that the copy was made of. -/
theorem untouched_countCopy {x c : Reg} {increment : Bool} {amount : Nat} {o : Symbol} (hne : c.gpr ≠ x.gpr) :
    ∀ i ∈ [.mov .quad (.quad x.gpr) (.quad c.gpr), stepInstr increment amount c] ++ normalizeCode c ++
      [storeInstr c (place o)], X86.Untouched x.gpr i.destinations := by
  refine List.forall_mem_append.mpr ⟨List.forall_mem_append.mpr ⟨?_, ?_⟩, fun i hi => untouched_store hi⟩
  · simp [X86.Untouched, stepInstr, Instr.destinations, Instr.writes, hne.symm]
  · unfold normalizeCode
    cases c.view <;> simp [X86.Untouched, Instr.destinations, Instr.writes, hne.symm]

theorem extends_normalize (r : Reg) : Extends (normalizeCode r) r := by
  unfold normalizeCode
  split
  · rename_i hv
    exact extends_signed hv
  · rename_i hv
    exact extends_unsigned hv
  · rename_i hv
    exact ⟨by simp, fun _ _ c' _ => extended_of_long hv c'⟩
  · rename_i hv
    exact ⟨by simp, fun _ _ c' _ => extended_of_float hv c'⟩

theorem extends_load {type : CType} {src : Operand} (h : r.view = type.word) :
    Extends [loadInstr type src r] r := by
  unfold loadInstr
  split
  · exact extends_unsigned h
  · exact extends_signed h
  · exact extends_of_run rfl fun _ _ c' _ => extended_of_float h c'
  · rename_i hchar hint hfloat
    refine extends_of_run rfl fun _ _ c' _ => extended_of_long (h.trans ?_) c'
    exact word_eq_long hchar hint hfloat

/-- What a call returns is extended, whatever the function left above it. -/
theorem extends_result {type : CType} (h : r.view = type.word) :
    Extends [resultInstr type r] r := by
  unfold resultInstr
  split
  · exact extends_of_run rfl fun _ _ c' _ => extended_of_float h c'
  · exact extends_signed h
  · exact extends_unsigned h
  · rename_i hfloat hint hchar
    refine extends_of_run rfl fun _ _ c' _ => extended_of_long (h.trans ?_) c'
    exact word_eq_long hchar hint hfloat

theorem extends_immediate {value : Int64} (hvalue : value.toBitVec = extend r.view value.toBitVec) :
    Extends [immediateInstr value r.gpr] r := by
  have hset : ∀ c : Cpu, r.Extended (c.withMachine (c.toMachine.set r.gpr value.toBitVec)) := fun c =>
    extended_of_eq (x := value.toBitVec) (by simpa using hvalue)
  unfold immediateInstr
  split
  · refine extends_of_run rfl fun env c c' hrun => ?_
    cases hrun
    exact hset c
  · refine extends_of_run rfl fun env c c' hrun => ?_
    cases hrun
    exact hset c

end Extends

/-! ### Operations that settle a register -/

/-- After an operation the register of its result is extended: always, or because its last instructions see to
it. -/
def Settles (e e' : Emitter) (r : Reg) : Prop :=
  (∀ c : Cpu, r.Extended c) ∨
    ∃ (ls : List Line) (is : List Instr), e'.text = e.text ++ (ls ++ is.map Line.instr).toArray ∧ Extends is r

section Settles

variable {s : Setting} {e e1 e' : Emitter} {r l x : Reg} {is : List Instr}

theorem settles_of_append (before : List Instr) (htext : e'.text = (e.emit (before ++ is)).text)
    (h : Extends is r) : Settles e e' r :=
  .inr ⟨before.map .instr, is, by simpa using htext, h⟩

theorem settles_of_emit (htext : e'.text = (e.emit is).text) (h : Extends is r) : Settles e e' r :=
  .inr ⟨[], is, htext, h⟩

theorem Settles.of_text {ls : List Line} (h : Settles e1 e' r) (htext : e1.text = e.text ++ ls.toArray) :
    Settles e e' r := by
  refine h.imp id fun ⟨ls', is, htext', hends⟩ => ⟨ls ++ ls', is, ?_, hends⟩
  rw [htext', htext]
  simp

theorem added_of_grows {ls : List Line} (hgrows : Grows e e1) (htext : e'.text = e1.text ++ ls.toArray) :
    added e e' = added e e1 ++ ls := by
  apply Emitter.added_of_text
  apply Array.ext'
  rw [htext, Array.toList_append, hgrows.text]
  simp

theorem Settles.extended (h : Settles e1 e' r) (hgrows : Grows e e1) ⦃env : Env⦄ ⦃c c' : Cpu⦄
    (hrun : Exits env (added e e') c .next c') : r.Extended c' := by
  rcases h with hall | ⟨ls, is, htext, hends⟩
  · exact hall c'
  · rw [added_of_grows hgrows htext, ← List.append_assoc] at hrun
    obtain ⟨c1, -, hruns⟩ := X86.exits_append_instrs hends.plain hrun
    exact hends.extended hruns

theorem settles_of_taking {view : Scalar} {code : Reg → List Instr}
    (hcode : ∀ x : Reg, x.view = view → Extends (code x) x) (hexec : taking e view code = (.ok r, e')) :
    Settles e e' r := by
  obtain ⟨hx, rfl⟩ := of_taking hexec
  exact settles_of_emit rfl (hcode r (Emitter.of_fresh? hx).1)

theorem settles_loadImmediate {v : Value} (hexec : exec (loadImmediate v) s e = (.ok r, e')) : Settles e e' r := by
  have hinteger : ∀ {view : Scalar} {value : Int64}, view.isInteger = true →
      value.toBitVec = extend view value.toBitVec → exec (loadInteger view value) s e = (.ok r, e') →
      Settles e e' r := by
    intro view value hi hvalue h
    rw [exec_loadInteger hi] at h
    exact settles_of_taking (fun x hx => extends_immediate (by rwa [hx])) h
  cases v with
  | int v =>
    refine hinteger rfl ?_ hexec
    show v.toBitVec.signExtend 64 = ((v.toBitVec.signExtend 64).setWidth 32).signExtend 64
    rw [setWidth_signExtend]
  | char v =>
    refine hinteger rfl ?_ hexec
    have hvalue : (Int64.ofNat v.toNat).toBitVec = v.toBitVec.setWidth 64 := by
      rw [Int64.toBitVec_ofNat']
      exact BitVec.ofNat_toNat 64 v.toBitVec
    rw [hvalue]
    simp [extend, Width.zext]
  | long v => exact hinteger rfl rfl hexec
  | float y =>
    rw [exec_loadFloat] at hexec
    cases hl : s.pool.floatLabel? y with
    | none =>
      rw [hl] at hexec
      cases hexec
    | some label =>
      rw [hl] at hexec
      exact .inl (extended_of_float (Emitter.of_fresh? (of_taking hexec).1).1)
  | str text =>
    rw [exec_loadString] at hexec
    cases hl : s.pool.stringLabel? text with
    | none =>
      rw [hl] at hexec
      cases hexec
    | some label =>
      rw [hl] at hexec
      exact .inl (extended_of_long (Emitter.of_fresh? (of_taking hexec).1).1)

theorem settles_loadSymbol {o : Symbol} (hexec : exec (loadSymbol o) s e = (.ok r, e')) : Settles e e' r := by
  by_cases ha : o.type.isArray = true
  · rw [loadSymbol, if_pos ha, exec_addressOf] at hexec
    exact .inl (extended_of_long (Emitter.of_fresh? (of_taking hexec).1).1)
  · by_cases ht : o.type.isVoid = false
    · rw [exec_loadSymbol ht (by simpa using ha)] at hexec
      exact settles_of_taking (fun x hx => extends_load hx) hexec
    · have hheld : held o.type = .error (.unsupportedType "register class" .void) := by
        cases hv : o.type <;> simp_all [CType.isVoid, held]
      rw [loadSymbol, if_neg ha, hheld] at hexec
      cases hexec

theorem settles_dereference {type : CType} (hr : e.Takes r.cell)
    (hexec : exec (dereference r type) s e = (.ok x, e')) : Settles e e' x := by
  cases ht : type.element? with
  | none =>
    rw [dereference, ht] at hexec
    cases hexec
  | some element =>
    by_cases hv : r.view = .long
    · by_cases hf : element = .float
      · subst hf
        rw [exec_dereference_float hr ht hv] at hexec
        cases hx : e.fresh? .float with
        | none =>
          rw [hx] at hexec
          cases hexec
        | some y =>
          rw [hx] at hexec
          cases hexec
          exact .inl (extended_of_float (Emitter.of_fresh? hx).1)
      · rw [exec_dereference hr ht hv hf] at hexec
        cases hexec
        -- the value takes the place of its address
        exact settles_of_emit rfl (@extends_load ⟨element, r.slot⟩ (.scalar element) (.mem (.indirect r.gpr)) rfl)
    · rw [exec_dereference_mismatch hr ht hv] at hexec
      cases hexec

/-- The register of a value that is counted is extended before it is stored, or as it was loaded. -/
theorem settles_step {o : Symbol} {increment after : Bool} (hexec : exec (step o increment after) s e = (.ok x, e')) :
    Settles e e' x := by
  cases ha : stepAmount? o.type with
  | none =>
    rw [step, ha] at hexec
    cases hexec
  | some amount =>
    have hi := (of_stepAmount? ha).2.2
    cases after with
    | false =>
      rw [exec_step_before ha] at hexec
      obtain ⟨-, rfl⟩ := of_taking hexec
      have hends := (extends_normalize x).keeping (fun i hi => isPlain_store hi) fun i hi =>
        @untouched_store i x (.within o.address 0) x.gpr hi
      exact settles_of_append [_, _] (by rw [List.append_assoc]; rfl) hends
    | true =>
      rw [exec_step_after ha] at hexec
      cases hv : e.fresh? o.type.word with
      | none =>
        rw [hv] at hexec
        cases hexec
      | some v =>
        rw [hv] at hexec
        dsimp only at hexec
        cases hc : (e.take v).fresh? o.type.word with
        | none =>
          rw [hc] at hexec
          cases hexec
        | some c =>
          rw [hc] at hexec
          cases hexec
          have hload : Extends [loadInstr o.type (place o) x] x := extends_load (Emitter.of_fresh? hv).1
          have hxi : x.view.isInteger = true := by rw [(Emitter.of_fresh? hv).1, hi]
          have hci : c.view.isInteger = true := by rw [(Emitter.of_fresh? hc).1, hi]
          -- what is counted is a copy in another register, so the value stays as it was loaded
          have hne : c.gpr ≠ x.gpr := by
            intro heq
            have hcell := eq_of_mem_parts (takes_take_self hc)
              ((Emitter.takes_take hc _).mpr (.inr (takes_take_self hv))) (heq ▸ gpr_mem_parts hci) (gpr_mem_parts hxi)
            exact (Emitter.of_fresh? hc).2.1 (hcell ▸ takes_take_self hv)
          have hplain : ∀ i ∈ [.mov .quad (.quad x.gpr) (.quad c.gpr), stepInstr increment amount c] ++
              normalizeCode c ++ [storeInstr c (place o)], i.isPlain = true := by
            refine List.forall_mem_append.mpr ⟨List.forall_mem_append.mpr ⟨?_, (extends_normalize c).plain⟩, ?_⟩
            · exact List.forall_mem_cons.mpr ⟨rfl, List.forall_mem_singleton.mpr rfl⟩
            · exact fun i hi => isPlain_store hi
          have hends := hload.keeping hplain fun i hi => untouched_countCopy hne i hi
          exact settles_of_emit (by simp) hends

theorem settles_unary {cs : List Cell} {n : Nat} {e0 : Emitter} {op : ValueOp} (h : Holding (r.cell :: cs) n e0 e)
    (hexec : exec (unary op r) s e = (.ok x, e')) : Settles e e' x := by
  have hr : e.Takes r.cell := h.takes_of_mem (by simp)
  by_cases hv : r.view = .float
  · have houtcome : Outcome (unary op r) s.pool e (Holds (unaryView op r.view) cs n e0) _ := unary_outcome h op
    have hview : x.view = unaryView op r.view := (houtcome.ok_of_exec hexec).1
    cases op with
    | negate | invert => exact .inl (extended_of_float (hview.trans hv))
    | not => exact .inl (extended_of_long hview)
  · cases op with
    | negate =>
      rw [exec_negate hr hv] at hexec
      cases hexec
      exact settles_of_append [_] rfl (extends_normalize _)
    | invert =>
      rw [exec_invert hr, if_neg hv] at hexec
      cases hexec
      exact settles_of_append [_] rfl (extends_normalize _)
    | not =>
      rw [exec_not hr hv] at hexec
      cases hexec
      exact .inl (extended_of_long rfl)

theorem settles_binary {op : ArithOp} (hl : e.Takes l.cell) (hr : e.Takes r.cell)
    (hexec : exec (binary op l r) s e = (.ok x, e')) : Settles e e' x := by
  rw [exec_binary hl hr] at hexec
  split_ifs at hexec with hv hf
  · cases hop : floatOp? op with
    | none =>
      rw [hop] at hexec
      cases hexec
    | some sse =>
      rw [hop] at hexec
      cases hexec
      exact .inl (extended_of_float hf)
  · cases hexec
    exact settles_of_append _ rfl (extends_normalize _)
  · cases hexec

/-- A conversion settles its result, or leaves an extended register as it is. -/
theorem settles_convert {source target : Scalar} (hr : e.Takes r.cell)
    (hexec : exec (convert r source target) s e = (.ok x, e')) :
    Settles e e' x ∨ e'.text = e.text ∧ ∀ c, r.Extended c → x.Extended c := by
  by_cases hv : r.view = source
  · by_cases heq : source = target
    · subst heq
      rw [exec_convert_same hr hv] at hexec
      cases hexec
      exact .inr ⟨rfl, fun _ h => h⟩
    · by_cases hs : source = .float
      · subst hs
        rw [exec_convert_ofFloat hr hv (isInteger_of_ne_float (Ne.symm heq))] at hexec
        cases hx : e.fresh? target with
        | none =>
          rw [hx] at hexec
          cases hexec
        | some y =>
          rw [hx] at hexec
          cases hexec
          exact .inl (settles_of_append [_] rfl (extends_normalize _))
      · have hsi := isInteger_of_ne_float hs
        by_cases ht : target = .float
        · subst ht
          rw [exec_convert_toFloat hr hv hsi] at hexec
          cases hx : e.fresh? .float with
          | none =>
            rw [hx] at hexec
            cases hexec
          | some y =>
            rw [hx] at hexec
            cases hexec
            exact .inl (.inl (extended_of_float (Emitter.of_fresh? hx).1))
        · have hti := isInteger_of_ne_float ht
          rw [exec_convert_integer hr hv hsi hti heq] at hexec
          cases hexec
          -- there is code for narrowing only
          by_cases hsize : target.size < source.size
          · rw [if_pos hsize]
            exact .inl (settles_of_emit rfl (extends_normalize _))
          · rw [if_neg hsize]
            refine .inr ⟨by simp, fun c hc => extend_of_size_le hsi hti (Nat.le_of_not_lt hsize) ?_⟩
            rw [Reg.Extended, hv] at hc
            exact hc
  · rw [exec_convert_mismatch hr hv] at hexec
    cases hexec

theorem settles_takeResult {type : CType} (hexec : exec (takeResult type) s e = (.ok (some r), e')) :
    Settles e e' r := by
  cases hv : type.isVoid with
  | true =>
    rw [exec_takeResult_void hv] at hexec
    cases hexec
  | false =>
    rw [exec_takeResult hv] at hexec
    cases hx : e.fresh? type.word with
    | none =>
      rw [hx] at hexec
      cases hexec
    | some x =>
      rw [hx] at hexec
      cases hexec
      exact settles_of_emit rfl (extends_result (Emitter.of_fresh? hx).1)

theorem settles_callFunction_none {name : String} {type : CType}
    (hexec : exec (callFunction name none type) s e = (.ok (some x), e')) : Settles e e' x := by
  rw [exec_callFunction_none] at hexec
  exact (settles_takeResult hexec).of_text rfl

theorem settles_callFunction_some {name : String} {type : CType} (hr : e.Takes r.cell)
    (hexec : exec (callFunction name (some r) type) s e = (.ok (some x), e')) : Settles e e' x := by
  rw [exec_callFunction_some hr] at hexec
  exact ((settles_takeResult hexec).of_text rfl).of_text rfl

theorem settles_callPushed {name : String} {views : List Scalar} {type : CType}
    (hexec : exec (callPushed name views type) s e = (.ok (some x), e')) : Settles e e' x := by
  rw [exec_callPushed] at hexec
  cases ha : assignArguments views with
  | error y =>
    rw [ha] at hexec
    cases hexec
  | ok targets =>
    rw [ha] at hexec
    dsimp only at hexec
    split_ifs at hexec
    · cases hexec
    · exact ((settles_takeResult hexec).of_text rfl).of_text rfl

end Settles

end MiniC.Emit
