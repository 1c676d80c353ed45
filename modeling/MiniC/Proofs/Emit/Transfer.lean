import MiniC.Emit.Linkage
import MiniC.Proofs.Emit.Exec

/-!
# What moving values emits

Each operation that loads, stores or computes an address, in closed form, for operands whose cells
are taken: the instructions it appends, the register it gives, the registers it gives back, and the
error when the views of its operands do not fit.
-/

set_option autoImplicit false

namespace MiniC.Emit

open MiniC.X86 (Gpr Register Operand Instr Line Mem Alu Sse Cond)

variable {s : Setting} {e : Emitter} {r : Reg}

/-! ### Constants and objects -/

/-- The instruction that puts a constant into a register. -/
def immediateInstr (value : Int64) (g : Gpr) : Instr :=
  if fitsLong value then .mov .quad (.imm value) (.quad g) else .movAbs value (.quad g)

theorem exec_moveImmediate (h : e.Takes r.cell) (hv : r.view.isInteger = true) (value : Int64) :
    exec (moveImmediate r value) s e = (.ok (), e.emit [immediateInstr value r.gpr]) := by
  simp only [moveImmediate, exec_bind, exec_quad h hv, immediateInstr]
  split <;> simp

theorem exec_loadInteger {view : Scalar} (hv : view.isInteger = true) (value : Int64) :
    exec (loadInteger view value) s e =
      match e.fresh? view with
      | some r => (.ok r, (e.take r).emit [immediateInstr value r.gpr])
      | none => (.error (.noFreeRegister view), e) := by
  simp only [loadInteger, exec_bind, exec_allocate]
  cases hf : e.fresh? view with
  | none => rfl
  | some r =>
    have hr : r.view.isInteger = true := (Emitter.of_fresh? hf).1 ▸ hv
    simp only [exec_moveImmediate (takes_take_self hf) hr, exec_pure]

theorem exec_loadFloat (x : Float) :
    exec (loadImmediate (.float x)) s e =
      match s.pool.floatLabel? x with
      | none => (.error (.misuse (.floatNotPooled x)), e)
      | some label =>
        match e.fresh? .float with
        | some r => (.ok r, (e.take r).emit [.sse .movsd (.mem (.data label 0)) (.reg r.register)])
        | none => (.error (.noFreeRegister .float), e) := by
  simp only [loadImmediate, exec_bind, exec_read]
  cases s.pool.floatLabel? x with
  | none => rfl
  | some label =>
    simp only [exec_bind, exec_allocate]
    cases hf : e.fresh? .float with
    | none => rfl
    | some r => simp [exec_operand (takes_take_self hf)]

theorem exec_loadString (text : String) :
    exec (loadImmediate (.str text)) s e =
      match s.pool.stringLabel? text with
      | none => (.error (.misuse (.stringNotPooled text)), e)
      | some label =>
        match e.fresh? .long with
        | some r => (.ok r, (e.take r).emit [.lea (.mem (.data label 0)) (.reg r.register)])
        | none => (.error (.noFreeRegister .long), e) := by
  simp only [loadImmediate, exec_bind, exec_read]
  cases s.pool.stringLabel? text with
  | none => rfl
  | some label =>
    simp only [exec_bind, exec_allocate]
    cases hf : e.fresh? .long with
    | none => rfl
    | some r => simp [exec_operand (takes_take_self hf)]

theorem exec_addressOf (o : Symbol) :
    exec (addressOf o) s e =
      match e.fresh? .long with
      | some r => (.ok r, (e.take r).emit [.lea (place o) (.reg r.register)])
      | none => (.error (.noFreeRegister .long), e) := by
  simp only [addressOf, exec_bind, exec_allocate]
  cases hf : e.fresh? .long with
  | none => rfl
  | some r => simp [exec_operand (takes_take_self hf)]

/-- The instruction that loads a value of a type into a register. -/
def loadInstr (type : CType) (src : Operand) (r : Reg) : Instr :=
  match type with
  | .scalar .char => .movZero .byte .quad src (.quad r.gpr)
  | .scalar .int => .movSign .long .quad src (.quad r.gpr)
  | .scalar .float => .sse .movsd src (.reg (.xmm r.xmm))
  | _ => .mov .quad src (.quad r.gpr)

theorem exec_loadInto {t : CType} (h : e.Takes r.cell) (ht : t.isVoid = false)
    (ha : t.isArray = false) (hv : r.view.isInteger = t.word.isInteger) (src : Operand) :
    exec (loadInto r t src) s e = (.ok (), e.emit [loadInstr t src r]) := by
  cases t with
  | void => simp [CType.isVoid] at ht
  | array _ _ => simp [CType.isArray] at ha
  | pointer _ =>
    simp only [loadInto, exec_bind, exec_quad h hv, exec_instr]
    rfl
  | scalar k =>
    cases k with
    | float =>
      have hf : r.view = .float := by
        cases hr : r.view <;> simp_all [CType.word, Scalar.isInteger]
      simp [loadInto, exec_bind, exec_operand h, Reg.register, hf, loadInstr]
    | _ =>
      simp only [loadInto, exec_bind, exec_quad h hv, exec_instr]
      rfl

/-- Taking a register for the value of an object that is no array. -/
theorem exec_loadSymbol {o : Symbol} (ht : o.type.isVoid = false) (ha : o.type.isArray = false) :
    exec (loadSymbol o) s e =
      match e.fresh? o.type.word with
      | some r => (.ok r, (e.take r).emit [loadInstr o.type (place o) r])
      | none => (.error (.noFreeRegister o.type.word), e) := by
  simp only [loadSymbol, ha, Bool.false_eq_true, if_false, exec_bind, held_eq_ok ht,
    exec_ofExcept_ok, exec_allocate]
  cases hf : e.fresh? o.type.word with
  | none => rfl
  | some r =>
    have hv : r.view.isInteger = o.type.word.isInteger := by rw [(Emitter.of_fresh? hf).1]
    simp only [exec_loadInto (takes_take_self hf) ht ha hv, exec_pure]

/-- The instruction that stores a register, as wide as its view. -/
def storeInstr (r : Reg) (dst : Operand) : Instr :=
  match r.view with
  | .char => .mov .byte (.reg (.byte r.gpr)) dst
  | .int => .mov .long (.reg (.long r.gpr)) dst
  | .long => .mov .quad (.quad r.gpr) dst
  | .float => .sse .movsd (.reg (.xmm r.xmm)) dst

/-- Storing succeeds just when the register is held as the type. -/
theorem exec_storeTo {t : CType} (h : e.Takes r.cell) (ht : t.isVoid = false)
    (ha : t.isArray = false) (dst : Operand) :
    exec (storeTo r t dst) s e =
      if r.view = t.word then (.ok (), e.emit [storeInstr r dst])
      else (.error (.typeMismatch "store" r.view t.word), e) := by
  split
  · rename_i hv
    cases t with
    | void => simp [CType.isVoid] at ht
    | array _ _ => simp [CType.isArray] at ha
    | pointer _ =>
      simp only [CType.word] at hv
      simp [storeTo, exec_bind, expectView, exec_check h, hv, exec_quad h, Scalar.isInteger,
        storeInstr]
    | scalar k =>
      simp only [CType.word] at hv
      cases k <;>
        simp [storeTo, exec_bind, expectView, exec_check h, hv, exec_quad h, exec_byte h,
          exec_long h, exec_operand h, Reg.register, Scalar.isInteger, storeInstr]
  · rename_i hv
    cases t with
    | void => simp [CType.isVoid] at ht
    | array _ _ => simp [CType.isArray] at ha
    | pointer _ =>
      simp only [CType.word] at hv
      simp [storeTo, exec_bind, expectView, exec_check h, hv, CType.word]
    | scalar k =>
      simp only [CType.word] at hv
      cases k <;> simp [storeTo, exec_bind, expectView, exec_check h, hv, CType.word]

/-! ### Places in memory -/

/-- Loading an integer or a pointer's target in place of its address. -/
theorem exec_dereference {type : CType} {element : Scalar} (h : e.Takes r.cell)
    (ht : type.element? = some element) (hv : r.view = .long) (hf : element ≠ .float) :
    exec (dereference r type) s e =
      (.ok ⟨element, r.slot⟩,
        e.emit [loadInstr (.scalar element) (.mem (.indirect r.gpr)) r]) := by
  have hi : element.isInteger = true := by cases element <;> simp_all [Scalar.isInteger]
  have hr : r.view.isInteger = true := by simp [hv, Scalar.isInteger]
  have hri : r.view.isInteger = (CType.word (.scalar element)).isInteger := by rw [hr, CType.word, hi]
  simp only [dereference, ht, exec_bind, exec_expectView h, hv, if_true, exec_pointer h, hf,
    if_false, exec_loadInto (t := .scalar element) h rfl rfl hri,
    Reg.as_of_isInteger hr hi, exec_ofExcept_ok]

/-- Loading a float needs a register of its own kind, and gives the address back. -/
theorem exec_dereference_float {type : CType} (h : e.Takes r.cell)
    (ht : type.element? = some .float) (hv : r.view = .long) :
    exec (dereference r type) s e =
      match e.fresh? .float with
      | some x =>
        (.ok x,
          ((e.take x).emit [loadInstr .float (.mem (.indirect r.gpr)) x]).release r)
      | none => (.error (.noFreeRegister .float), e) := by
  simp only [dereference, ht, exec_bind, exec_expectView h, hv, if_true, exec_pointer h,
    exec_allocate]
  cases hf : e.fresh? .float with
  | none => rfl
  | some x =>
    have hx : x.view.isInteger = (CType.word .float).isInteger := by rw [(Emitter.of_fresh? hf).1]; rfl
    simp only [exec_loadInto (t := .float) (takes_take_self hf) rfl rfl hx]
    rw [exec_free (by simpa using takes_take_of_takes hf h)]
    rfl

theorem exec_dereference_mismatch {type : CType} {element : Scalar} (h : e.Takes r.cell)
    (ht : type.element? = some element) (hv : r.view ≠ .long) :
    exec (dereference r type) s e = (.error (.typeMismatch "dereference" r.view .long), e) := by
  simp only [dereference, ht, exec_bind, exec_expectView h, hv, if_false]

theorem exec_storeIndirect {value address : Reg} {type : CType} {element : Scalar}
    (hval : e.Takes value.cell) (ha : e.Takes address.cell) (ht : type.element? = some element) :
    exec (storeIndirect value address type) s e =
      if address.view = .long then
        if value.view = element then
          (.ok (), (e.emit [storeInstr value (.mem (.indirect address.gpr))]).release address)
        else (.error (.typeMismatch "store" value.view element), e)
      else (.error (.typeMismatch "indirect store" address.view .long), e) := by
  simp only [storeIndirect, ht, exec_bind, exec_expectView ha]
  split_ifs with hv hw
  · simp only [exec_pointer ha, exec_storeTo (t := .scalar element) hval rfl rfl, CType.word, hw,
      if_true]
    exact exec_free (by simpa using ha)
  · simp only [exec_pointer ha, exec_storeTo (t := .scalar element) hval rfl rfl, CType.word, hw,
      if_false]
  · rfl

theorem exec_elementAddress {base index : Reg} (hb : e.Takes base.cell) (hi : e.Takes index.cell)
    (element : Scalar) :
    exec (elementAddress base index element) s e =
      if base.view = .long then
        if index.view = .long then
          (.ok base,
            (e.emit [.lea (.mem (.indexed base.gpr index.gpr element.size))
              (.quad base.gpr)]).release index)
        else (.error (.typeMismatch "element address" index.view .long), e)
      else (.error (.typeMismatch "element address" base.view .long), e) := by
  simp only [elementAddress, exec_bind, exec_expectView hb]
  split_ifs with hv hw
  · simp only [exec_expectView hi, hw, if_true, exec_pointer hb, exec_pointer hi, exec_instr]
    rw [exec_free (by simpa using hi)]
    rfl
  · simp only [exec_expectView hi, hw, if_false]
  · rfl

/-! ### Counting up and down -/

/-- The instruction that counts a register up or down. -/
def stepInstr (increment : Bool) (amount : Nat) (r : Reg) : Instr :=
  .alu (if increment then .add else .sub) .quad (.imm (Int64.ofNat amount)) (.quad r.gpr)

/-- An object that can be counted is an integer or a pointer. -/
theorem of_stepAmount? {type : CType} {amount : Nat} (h : stepAmount? type = some amount) :
    type.isVoid = false ∧ type.isArray = false ∧ type.word.isInteger = true := by
  cases type with
  | scalar t => cases t <;> simp_all [stepAmount?, CType.isVoid, CType.isArray, CType.word,
      Scalar.isInteger]
  | pointer t => exact ⟨rfl, rfl, rfl⟩
  | void => simp [stepAmount?] at h
  | array t n => simp [stepAmount?] at h

theorem exec_step_before {o : Symbol} {amount : Nat} (h : stepAmount? o.type = some amount)
    (increment : Bool) :
    exec (step o increment false) s e =
      match e.fresh? o.type.word with
      | some v =>
        (.ok v, (e.take v).emit ([loadInstr o.type (place o) v, stepInstr increment amount v] ++
          normalizeCode v ++ [storeInstr v (place o)]))
      | none => (.error (.noFreeRegister o.type.word), e) := by
  obtain ⟨ht, ha, hi⟩ := of_stepAmount? h
  simp only [step, h, exec_bind, exec_loadSymbol ht ha]
  cases hf : e.fresh? o.type.word with
  | none => rfl
  | some v =>
    have hview := (Emitter.of_fresh? hf).1
    have hv : v.view.isInteger = true := hview ▸ hi
    have hself := takes_take_self hf
    simp only [Bool.false_eq_true, if_false, exec_bind, exec_pure]
    rw [exec_quad (by simpa using hself) hv]
    simp only [exec_instr]
    rw [exec_normalize (by simpa using hself)]
    simp only [storeSymbol]
    rw [exec_storeTo (by simpa using hself) ht ha, if_pos hview]
    simp [stepInstr]

/-- Counting after the value is taken works on a copy, in a second register. -/
theorem exec_step_after {o : Symbol} {amount : Nat} (h : stepAmount? o.type = some amount)
    (increment : Bool) :
    exec (step o increment true) s e =
      match e.fresh? o.type.word with
      | some v =>
        match (e.take v).fresh? o.type.word with
        | some c =>
          (.ok v, ((((e.take v).emit [loadInstr o.type (place o) v]).take c).emit
            ([.mov .quad (.quad v.gpr) (.quad c.gpr), stepInstr increment amount c] ++
              normalizeCode c ++ [storeInstr c (place o)])).release c)
        | none =>
          (.error (.noFreeRegister o.type.word),
            (e.take v).emit [loadInstr o.type (place o) v])
      | none => (.error (.noFreeRegister o.type.word), e) := by
  obtain ⟨ht, ha, hi⟩ := of_stepAmount? h
  simp only [step, h, exec_bind, exec_loadSymbol ht ha]
  cases hf : e.fresh? o.type.word with
  | none => rfl
  | some v =>
    have hview := (Emitter.of_fresh? hf).1
    have hv : v.view.isInteger = true := hview ▸ hi
    simp only [if_true, exec_bind, exec_allocate, hview, Emitter.fresh?_emit]
    cases hc : (e.take v).fresh? o.type.word with
    | none => rfl
    | some c =>
      have hc' : ((e.take v).emit [loadInstr o.type (place o) v]).fresh? o.type.word =
        some c := hc
      have hcview := (Emitter.of_fresh? hc).1
      have hci : c.view.isInteger = true := hcview ▸ hi
      have hself := takes_take_self hc'
      have hold := takes_take_of_takes hc' (r := v) (by simpa using takes_take_self hf)
      simp only [exec_quad hold hv, exec_quad hself hci, exec_instr, exec_pure]
      rw [exec_quad (by simpa using hself) hci]
      simp only
      rw [exec_normalize (by simpa using hself)]
      simp only [storeSymbol]
      rw [exec_storeTo (by simpa using hself) ht ha, if_pos hcview]
      simp only
      rw [exec_free (by simpa using hself)]
      simp [stepInstr]

end MiniC.Emit
