import MiniC.Emit.Compute
import MiniC.Proofs.Emit.Exec

/-!
# What computing values emits

Arithmetic, comparisons and conversions in closed form, for operands whose cells are taken. Two
operands always have different cells: the second was taken while the first was.
-/

set_option autoImplicit false

namespace MiniC.Emit

open MiniC.X86 (Gpr Register Operand Instr Line Mem Alu Sse Cond)

variable {s : Setting} {e : Emitter} {r l : Reg}

/-- The view of a register that holds no float is an integer type. -/
theorem isInteger_of_ne_float {view : Scalar} (h : view ≠ .float) : view.isInteger = true := by
  cases view <;> simp_all [Scalar.isInteger]

theorem register_of_float (h : r.view = .float) : r.register = .xmm r.xmm := by
  simp [Reg.register, h]

/-! ### Arithmetic -/

theorem exec_binary (hl : e.Takes l.cell) (hr : e.Takes r.cell) (op : ArithOp) :
    exec (binary op l r) s e =
      if l.view = r.view then
        if l.view = .float then
          match floatOp? op with
          | none => (.error (.unsupported (.floatOperands op)), e)
          | some sse =>
            (.ok l, (e.emit [.sse sse (.reg (.xmm r.xmm)) (.reg (.xmm l.xmm))]).release r)
        else
          (.ok l,
            (e.emit (integerOp op (.quad r.gpr) (.quad l.gpr) ++ normalizeCode l)).release r)
      else (.error (.typeMismatch op.name l.view r.view), e) := by
  simp only [binary, exec_bind, exec_sameView hl hr]
  by_cases hv : l.view = r.view
  · rw [if_pos hv, if_pos hv]
    by_cases hf : l.view = .float
    · have hfr : r.view = .float := hv ▸ hf
      simp only [if_pos hf]
      cases floatOp? op with
      | none => rfl
      | some sse =>
        simp only [exec_bind, exec_operand hl, exec_operand hr, register_of_float hf,
          register_of_float hfr, exec_instr]
        rw [exec_free (by simpa using hr)]
        rfl
    · have hli := isInteger_of_ne_float hf
      have hri : r.view.isInteger = true := hv ▸ hli
      simp only [if_neg hf, exec_bind, exec_quad hl hli, exec_quad hr hri, exec_instrs]
      rw [exec_normalize (by simpa using hl)]
      simp only [Emitter.emit_emit]
      rw [exec_free (by simpa using hr)]
      rfl
  · rw [if_neg hv, if_neg hv]

theorem exec_negate (h : e.Takes r.cell) (hv : r.view ≠ .float) :
    exec (unary .negate r) s e =
      (.ok r, e.emit (.neg .quad (.quad r.gpr) :: normalizeCode r)) := by
  have hi := isInteger_of_ne_float hv
  simp only [unary, exec_bind, exec_check h, negate, hv, if_false, exec_quad h hi, exec_instr]
  rw [exec_normalize (by simpa using h)]
  simp

theorem exec_negate_float (h : e.Takes r.cell) (hv : r.view = .float) :
    exec (unary .negate r) s e =
      match e.fresh? .float with
      | some x =>
        (.ok x, ((e.take x).emit [.sse .xorpd (.reg (.xmm x.xmm)) (.reg (.xmm x.xmm)),
          .sse .subsd (.reg (.xmm r.xmm)) (.reg (.xmm x.xmm))]).release r)
      | none => (.error (.noFreeRegister .float), e) := by
  simp only [unary, exec_bind, exec_check h, negate, hv, if_true, floatZero, exec_allocate]
  cases hf : e.fresh? .float with
  | none => rfl
  | some x =>
    have hx := (Emitter.of_fresh? hf).1
    have hself := takes_take_self hf
    have hold := takes_take_of_takes hf h
    simp only [exec_operand hself, register_of_float hx, exec_instr, exec_pure]
    rw [exec_operand (by simpa using hold)]
    simp only [register_of_float hv]
    rw [exec_operand (by simpa using hself)]
    simp only [register_of_float hx, Emitter.emit_emit]
    rw [exec_free (by simpa using hold)]
    rfl

theorem exec_invert (h : e.Takes r.cell) :
    exec (unary .invert r) s e =
      if r.view = .float then (.error (.unsupportedType "invert" .float), e)
      else (.ok r, e.emit (.not .quad (.quad r.gpr) :: normalizeCode r)) := by
  simp only [unary, exec_bind, exec_check h, invert]
  split_ifs with hv
  · rfl
  · have hi := isInteger_of_ne_float hv
    simp only [exec_bind, exec_quad h hi, exec_instr]
    rw [exec_normalize (by simpa using h)]
    simp

/-! ### Comparisons -/

/-- The instructions that put the outcome of an integer comparison into a register. -/
def setCode (c : Cond) (r : Reg) : List Instr :=
  [.set c (.reg (.byte r.gpr)), .movZero .byte .quad (.reg (.byte r.gpr)) (.quad r.gpr)]

theorem exec_setInto (h : e.Takes r.cell) (hv : r.view.isInteger = true) (c : Cond) :
    exec (setInto r c) s e = (.ok (), e.emit (setCode c r)) := by
  simp only [setInto, exec_bind, exec_byte h hv, exec_instr]
  rw [exec_byte (by simpa using h) hv]
  simp only
  rw [exec_quad (by simpa using h) hv]
  simp [setCode]

/-- The instructions that put the outcome of a float comparison into a register. -/
def setFloatCode (relation : Relation) (r : Reg) : List Instr :=
  [.set (floatCondition relation) (.reg (.byte r.gpr))] ++
    (match relation with
    | .eq => [.set .np parityByte, .alu .and .byte parityByte (.reg (.byte r.gpr))]
    | .ne => [.set .p parityByte, .alu .or .byte parityByte (.reg (.byte r.gpr))]
    | _ => []) ++
    [.movZero .byte .quad (.reg (.byte r.gpr)) (.quad r.gpr)]

theorem exec_setFloatInto (h : e.Takes r.cell) (hv : r.view.isInteger = true)
    (relation : Relation) :
    exec (setFloatInto r relation) s e = (.ok (), e.emit (setFloatCode relation r)) := by
  have hq : ∀ is : List Instr, exec (quad r) s (e.emit is) = (.ok (.quad r.gpr), e.emit is) :=
    fun is => exec_quad (by simpa using h) hv
  cases relation <;>
    simp [setFloatInto, exec_bind, exec_byte h hv, hq, setFloatCode]

/-- The comparison that the flags answer after two floats have been compared. -/
def askedRelation : Relation → Relation
  | .lt => .gt
  | .le => .ge
  | other => other

/-- The instruction that compares two floats so that the flags answer about a relation. -/
def floatCompareInstr (relation : Relation) (l r : Reg) : Instr :=
  match relation with
  | .lt => .sse .ucomisd (.reg (.xmm l.xmm)) (.reg (.xmm r.xmm))
  | .le => .sse .ucomisd (.reg (.xmm l.xmm)) (.reg (.xmm r.xmm))
  | _ => .sse .ucomisd (.reg (.xmm r.xmm)) (.reg (.xmm l.xmm))

theorem exec_compareFloats (hl : e.Takes l.cell) (hr : e.Takes r.cell) (hlv : l.view = .float)
    (hrv : r.view = .float) (relation : Relation) :
    exec (compareFloats relation l r) s e =
      (.ok (askedRelation relation), e.emit [floatCompareInstr relation l r]) := by
  unfold compareFloats
  cases relation <;>
    simp only [exec_bind, exec_operand hl, exec_operand hr, register_of_float hlv,
      register_of_float hrv, exec_instr, exec_pure] <;>
    rfl

/-- The comparison of two integers. -/
def compareInstr (l r : Reg) : Instr := .alu .cmp .quad (.quad r.gpr) (.quad l.gpr)

theorem exec_compareIntegers (hl : e.Takes l.cell) (hr : e.Takes r.cell)
    (hlv : l.view.isInteger = true) (hrv : r.view.isInteger = true) :
    exec (compareIntegers l r) s e = (.ok (), e.emit [compareInstr l r]) := by
  simp [compareIntegers, exec_bind, exec_quad hl hlv, exec_quad hr hrv, compareInstr]

/-- Comparing floats gives both back before a register for the outcome is taken. -/
theorem exec_compare_float (hl : e.Takes l.cell) (hr : e.Takes r.cell) (hne : l.cell ≠ r.cell)
    (hv : l.view = r.view) (hf : l.view = .float) (relation : Relation) :
    exec (compare relation l r) s e =
      let e' := ((e.emit [floatCompareInstr relation l r]).release l).release r
      match e'.fresh? .long with
      | some x => (.ok x, (e'.take x).emit (setFloatCode (askedRelation relation) x))
      | none => (.error (.noFreeRegister .long), e') := by
  have hfr : r.view = .float := hv ▸ hf
  simp only [compare, exec_bind, exec_sameView hl hr, hv, if_true, hfr,
    exec_compareFloats hl hr hf hfr]
  rw [exec_free (by simpa using hl)]
  simp only
  rw [exec_free (by simpa using ⟨Ne.symm hne, hr⟩)]
  simp only [exec_allocate]
  cases hx : Emitter.fresh? _ _ with
  | none => rfl
  | some x =>
    have hi : x.view.isInteger = true := by rw [(Emitter.of_fresh? hx).1]; rfl
    simp only [exec_setFloatInto (takes_take_self hx) hi, exec_pure]

/-- The outcome of comparing `long`s is in the register of the right one. -/
theorem exec_compare_long (hl : e.Takes l.cell) (hr : e.Takes r.cell)
    (hv : l.view = r.view) (hlong : l.view = .long) (relation : Relation) :
    exec (compare relation l r) s e =
      (.ok r, (e.emit (compareInstr l r :: setCode (condition relation) r)).release l) := by
  have hli : l.view.isInteger = true := by rw [hlong]; rfl
  have hri : r.view.isInteger = true := hv ▸ hli
  have hrl : r.view = .long := hv ▸ hlong
  simp only [compare, exec_bind, exec_sameView hl hr, hv, if_true, hrl, reduceCtorEq, if_false,
    exec_compareIntegers hl hr hli hri]
  rw [exec_setInto (by simpa using hr) hri]
  simp only [Emitter.emit_emit]
  rw [exec_free (by simpa using hl)]
  rfl

/-- The outcome of comparing narrower integers is in a register of its own. -/
theorem exec_compare_narrow (hl : e.Takes l.cell) (hr : e.Takes r.cell) (hne : l.cell ≠ r.cell)
    (hv : l.view = r.view) (hf : l.view ≠ .float) (hlong : l.view ≠ .long) (relation : Relation) :
    exec (compare relation l r) s e =
      match e.fresh? .long with
      | some x =>
        (.ok x, ((((e.emit [compareInstr l r]).take x).emit
          (setCode (condition relation) x)).release l).release r)
      | none => (.error (.noFreeRegister .long), e.emit [compareInstr l r]) := by
  have hli := isInteger_of_ne_float hf
  have hri : r.view.isInteger = true := hv ▸ hli
  simp only [compare, exec_bind, exec_sameView hl hr, hv, if_true, hv ▸ hf, hv ▸ hlong, if_false,
    exec_compareIntegers hl hr hli hri, exec_allocate, Emitter.fresh?_emit]
  cases hx : e.fresh? .long with
  | none => rfl
  | some x =>
    have hx' : (e.emit [compareInstr l r]).fresh? .long = some x := hx
    have hi : x.view.isInteger = true := by rw [(Emitter.of_fresh? hx).1]; rfl
    have hl' := takes_take_of_takes hx' (r := l) (by simpa using hl)
    have hr' := takes_take_of_takes hx' (r := r) (by simpa using hr)
    simp only [exec_setInto (takes_take_self hx') hi]
    rw [exec_free (by simpa using hl')]
    simp only
    rw [exec_free (by simpa using ⟨Ne.symm hne, hr'⟩)]
    rfl

theorem exec_compare_mismatch (hl : e.Takes l.cell) (hr : e.Takes r.cell) (hv : l.view ≠ r.view)
    (relation : Relation) :
    exec (compare relation l r) s e = (.error (.typeMismatch "compare" l.view r.view), e) := by
  simp only [compare, exec_bind, exec_sameView hl hr, hv, if_false]

/-! ### Jumps -/

/-- The lines that jump if a float comparison came out as a relation. -/
def floatJumpCode (relation : Relation) (target : String) : List Line :=
  match relation with
  | .eq => [.instr (.jcc .p unorderedTarget), .instr (.jcc .e target), .label unorderedLabel]
  | .ne => [.instr (.jcc .ne target), .instr (.jcc .p target)]
  | other => [.instr (.jcc (floatCondition other) target)]

theorem exec_floatJump (relation : Relation) (target : String) :
    exec (floatJump relation target) s e = (.ok (), e.append (floatJumpCode relation target)) := by
  unfold floatJump
  cases relation <;> simp [exec_bind, floatJumpCode, Emitter.emit]

theorem exec_compareAndJump (hl : e.Takes l.cell) (hr : e.Takes r.cell) (hne : l.cell ≠ r.cell)
    (relation : Relation) (target : String) :
    exec (compareAndJump relation l r target) s e =
      if l.view = r.view then
        if l.view = .float then
          (.ok (), (((e.emit [floatCompareInstr relation l r]).append
            (floatJumpCode (askedRelation relation) target)).release l).release r)
        else
          (.ok (), ((e.emit [compareInstr l r,
            .jcc (condition relation) target]).release l).release r)
      else (.error (.typeMismatch "compare-and-jump" l.view r.view), e) := by
  simp only [compareAndJump, exec_bind, exec_sameView hl hr]
  by_cases hv : l.view = r.view
  · rw [if_pos hv, if_pos hv]
    by_cases hf : l.view = .float
    · have hfr : r.view = .float := hv ▸ hf
      simp only [if_pos hf, exec_bind, exec_compareFloats hl hr hf hfr, exec_floatJump]
      rw [exec_free (by simpa using hl)]
      simp only
      rw [exec_free (by simpa using ⟨Ne.symm hne, hr⟩)]
    · have hli := isInteger_of_ne_float hf
      have hri : r.view.isInteger = true := hv ▸ hli
      simp only [if_neg hf, exec_bind, exec_compareIntegers hl hr hli hri, exec_instr,
        Emitter.emit_emit]
      rw [exec_free (by simpa using hl)]
      simp only
      rw [exec_free (by simpa using ⟨Ne.symm hne, hr⟩)]
      rfl
  · rw [if_neg hv, if_neg hv]

/-- Comparing a float with zero needs a register for the zero for a moment. -/
theorem exec_testFloat (h : e.Takes r.cell) (hv : r.view = .float) :
    exec (testFloat r) s e =
      match e.fresh? .float with
      | some z =>
        (.ok (), (((e.take z).emit [.sse .xorpd (.reg (.xmm z.xmm)) (.reg (.xmm z.xmm)),
          .sse .ucomisd (.reg (.xmm z.xmm)) (.reg (.xmm r.xmm))]).release z).release r)
      | none => (.error (.noFreeRegister .float), e) := by
  simp only [testFloat, floatZero, exec_bind, exec_allocate]
  cases hf : e.fresh? .float with
  | none => rfl
  | some z =>
    have hz := (Emitter.of_fresh? hf).1
    have hself := takes_take_self hf
    have hold := takes_take_of_takes hf h
    have hne := cell_ne_of_fresh? hf h
    simp only [exec_operand hself, register_of_float hz, exec_instr, exec_pure]
    rw [exec_operand (by simpa using hself)]
    simp only [register_of_float hz]
    rw [exec_operand (by simpa using hold)]
    simp only [register_of_float hv, Emitter.emit_emit]
    rw [exec_free (by simpa using hself)]
    simp only
    rw [exec_free (by simpa using ⟨hne, hold⟩)]
    rfl

theorem exec_testAndJump_float (h : e.Takes r.cell) (hv : r.view = .float) (relation : Relation)
    (target : String) :
    exec (testAndJump relation r target) s e =
      match e.fresh? .float with
      | some z =>
        (.ok (), ((((e.take z).emit [.sse .xorpd (.reg (.xmm z.xmm)) (.reg (.xmm z.xmm)),
          .sse .ucomisd (.reg (.xmm z.xmm)) (.reg (.xmm r.xmm))]).release z).release r).append
            (floatJumpCode relation target))
      | none => (.error (.noFreeRegister .float), e) := by
  simp only [testAndJump, exec_bind, exec_check h, hv, if_true, exec_testFloat h hv]
  cases e.fresh? .float with
  | none => rfl
  | some z => simp only [exec_floatJump]

theorem exec_testAndJump (h : e.Takes r.cell) (hv : r.view ≠ .float) (relation : Relation)
    (target : String) :
    exec (testAndJump relation r target) s e =
      (.ok (), ((e.emit [.alu .test .quad (.quad r.gpr) (.quad r.gpr)]).release r).emit
        [.jcc (condition relation) target]) := by
  have hi := isInteger_of_ne_float hv
  simp only [testAndJump, exec_bind, exec_check h, hv, if_false, exec_quad h hi, exec_instr]
  rw [exec_free (by simpa using h)]

/-! ### Truth values and conversions -/

theorem exec_not (h : e.Takes r.cell) (hv : r.view ≠ .float) :
    exec (unary .not r) s e =
      (.ok ⟨.long, r.slot⟩,
        e.emit (.alu .cmp .quad (.imm 0) (.quad r.gpr) :: setCode .e r)) := by
  have hi := isInteger_of_ne_float hv
  simp only [unary, exec_bind, exec_check h, logicalNot, hv, if_false, exec_quad h hi, exec_instr]
  rw [exec_setInto (by simpa using h) hi]
  simp [Reg.as_of_isInteger hi (v := .long) rfl]

theorem exec_not_float (h : e.Takes r.cell) (hv : r.view = .float) :
    exec (unary .not r) s e =
      match e.fresh? .float with
      | some z =>
        let e' := ((e.take z).emit [.sse .xorpd (.reg (.xmm z.xmm)) (.reg (.xmm z.xmm)),
          .sse .ucomisd (.reg (.xmm z.xmm)) (.reg (.xmm r.xmm))]).release z |>.release r
        match e'.fresh? .long with
        | some x => (.ok x, (e'.take x).emit (setFloatCode .eq x))
        | none => (.error (.noFreeRegister .long), e')
      | none => (.error (.noFreeRegister .float), e) := by
  simp only [unary, exec_bind, exec_check h, logicalNot, hv, if_true, exec_testFloat h hv]
  cases e.fresh? .float with
  | none => rfl
  | some z =>
    simp only [exec_allocate]
    cases hx : Emitter.fresh? _ _ with
    | none => rfl
    | some x =>
      have hi : x.view.isInteger = true := by rw [(Emitter.of_fresh? hx).1]; rfl
      simp only [exec_setFloatInto (takes_take_self hx) hi, exec_pure]

/-- Between integer types the register stays the same, and only narrowing changes it. -/
theorem exec_convert_integer {source target : Scalar} (h : e.Takes r.cell)
    (hv : r.view = source) (hs : source.isInteger = true) (ht : target.isInteger = true)
    (hne : source ≠ target) :
    exec (convert r source target) s e =
      (.ok ⟨target, r.slot⟩,
        e.emit (if target.size < source.size then normalizeCode ⟨target, r.slot⟩ else [])) := by
  have hsf : source ≠ .float := by cases source <;> simp_all [Scalar.isInteger]
  have htf : target ≠ .float := by cases target <;> simp_all [Scalar.isInteger]
  have hri : r.view.isInteger = true := hv ▸ hs
  have hc : e.Takes (⟨target, r.slot⟩ : Reg).cell := by rwa [Reg.cell_as hri ht]
  simp only [convert, exec_bind, exec_expectView h, hv, if_true, hne, if_false, hsf, htf,
    Reg.as_of_isInteger hri ht, exec_ofExcept_ok]
  split_ifs
  · simp only [exec_bind, exec_normalize hc, exec_pure]
  · simp only [exec_pure, Emitter.emit_nil]

theorem exec_convert_same {source : Scalar} (h : e.Takes r.cell) (hv : r.view = source) :
    exec (convert r source source) s e = (.ok r, e) := by
  simp only [convert, exec_bind, exec_expectView h, hv, if_true, exec_pure]

theorem exec_convert_ofFloat {target : Scalar} (h : e.Takes r.cell) (hv : r.view = .float)
    (ht : target.isInteger = true) :
    exec (convert r .float target) s e =
      match e.fresh? target with
      | some x =>
        (.ok x, ((e.take x).emit (.cvttsd2si .quad (.reg (.xmm r.xmm)) (.quad x.gpr) ::
          normalizeCode x)).release r)
      | none => (.error (.noFreeRegister target), e) := by
  have htf : .float ≠ target := by rintro rfl; simp [Scalar.isInteger] at ht
  simp only [convert, exec_bind, exec_expectView h, hv, if_true, htf, if_false, exec_allocate]
  cases hf : e.fresh? target with
  | none => rfl
  | some x =>
    have hx : x.view.isInteger = true := by rw [(Emitter.of_fresh? hf).1]; exact ht
    have hself := takes_take_self hf
    have hold := takes_take_of_takes hf h
    simp only [exec_operand hold, register_of_float hv, exec_quad hself hx, exec_instr]
    rw [exec_normalize (by simpa using hself)]
    simp only [Emitter.emit_emit]
    rw [exec_free (by simpa using hold)]
    rfl

theorem exec_convert_toFloat {source : Scalar} (h : e.Takes r.cell) (hv : r.view = source)
    (hs : source.isInteger = true) :
    exec (convert r source .float) s e =
      match e.fresh? .float with
      | some x =>
        (.ok x, ((e.take x).emit
          [.cvtsi2sd .quad (.quad r.gpr) (.reg (.xmm x.xmm))]).release r)
      | none => (.error (.noFreeRegister .float), e) := by
  have hsf : source ≠ .float := by rintro rfl; simp [Scalar.isInteger] at hs
  have hri : r.view.isInteger = true := hv ▸ hs
  simp only [convert, exec_bind, exec_expectView h, hv, if_true, hsf, if_false, exec_allocate]
  cases hf : e.fresh? .float with
  | none => rfl
  | some x =>
    have hx := (Emitter.of_fresh? hf).1
    have hself := takes_take_self hf
    have hold := takes_take_of_takes hf h
    simp only [exec_quad hold hri, exec_operand hself, register_of_float hx, exec_instr]
    rw [exec_free (by simpa using hold)]
    rfl

theorem exec_convert_mismatch {source target : Scalar} (h : e.Takes r.cell)
    (hv : r.view ≠ source) :
    exec (convert r source target) s e =
      (.error (.typeMismatch "convert" r.view source), e) := by
  simp only [convert, exec_bind, exec_expectView h, hv, if_false]

end MiniC.Emit
