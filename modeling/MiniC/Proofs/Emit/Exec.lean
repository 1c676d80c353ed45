import MiniC.Emit.Compare
import MiniC.Proofs.Emit.Cells
import MiniC.Proofs.Range

/-!
# What the primitives of the emitter do

Equations for `Emit.exec`, for the monad and for the primitives that all operations are made of. An
operation that is given a handle is described for a handle whose cell is taken.
-/

set_option autoImplicit false

namespace MiniC.Emit

open MiniC.X86 (Gpr Register Operand Instr Line Mem Alu Sse Cond)

variable {α β : Type} (s : Setting) (e : Emitter)

/-! ### The monad -/

@[simp] theorem exec_pure (a : α) : exec (pure a : Emit α) s e = (.ok a, e) := rfl

@[simp] theorem exec_throw (x : Error) : exec (throw x : Emit α) s e = (.error x, e) := rfl

@[simp] theorem exec_get : exec (get : Emit Emitter) s e = (.ok e, e) := rfl

@[simp] theorem exec_set (e' : Emitter) : exec (set e' : Emit PUnit) s e = (.ok ⟨⟩, e') := rfl

@[simp] theorem exec_read : exec (read : Emit Setting) s e = (.ok s, e) := rfl

@[simp] theorem exec_modify (f : Emitter → Emitter) :
    exec (modify f : Emit PUnit) s e = (.ok ⟨⟩, f e) := rfl

/-- An operation after another starts where that one succeeded. -/
theorem exec_bind (m : Emit α) (f : α → Emit β) :
    exec (m >>= f) s e =
      match exec m s e with
      | (.ok a, e') => exec (f a) s e'
      | (.error x, e') => (.error x, e') := by
  show (ExceptT.bindCont (fun a => f a s) (m s e).1) (m s e).2 = _
  unfold exec
  cases h : m s e with
  | mk o e' => cases o <;> rfl

@[simp] theorem exec_map (f : α → β) (m : Emit α) :
    exec (f <$> m) s e = ((exec m s e).1.map f, (exec m s e).2) := by
  show exec (m >>= fun a => pure (f a)) s e = _
  rw [exec_bind]
  cases h : exec m s e with
  | mk o e' => cases o <;> rfl

variable {s e}

theorem exec_bind_ok {m : Emit α} {f : α → Emit β} {a : α} {e' : Emitter}
    (h : exec m s e = (.ok a, e')) : exec (m >>= f) s e = exec (f a) s e' := by
  rw [exec_bind, h]

theorem exec_bind_error {m : Emit α} {f : α → Emit β} {x : Error} {e' : Emitter}
    (h : exec m s e = (.error x, e')) : exec (m >>= f) s e = (.error x, e') := by
  rw [exec_bind, h]

theorem exec_eq_ok {m : Emit α} {a : α} (h : (exec m s e).1 = .ok a) :
    ∃ e', exec m s e = (.ok a, e') :=
  ⟨_, Prod.ext h rfl⟩

/-- A sequence that succeeds is two operations that succeed. -/
theorem exec_bind_eq_ok {m : Emit α} {f : α → Emit β} {b : β} {e' : Emitter}
    (h : exec (m >>= f) s e = (.ok b, e')) :
    ∃ a e1, exec m s e = (.ok a, e1) ∧ exec (f a) s e1 = (.ok b, e') := by
  rw [exec_bind] at h
  split at h
  · exact ⟨_, _, ‹_›, h⟩
  · simp at h

variable (s e)

@[simp] theorem exec_ofExcept_ok (a : α) : exec (ofExcept (.ok a)) s e = (.ok a, e) := rfl

@[simp] theorem exec_ofExcept_error (x : Error) :
    exec (ofExcept (.error x) : Emit α) s e = (.error x, e) := rfl

/-! ### Primitives -/

@[simp] theorem exec_line (l : Line) : exec (line l) s e = (.ok (), e.append [l]) := by
  simp [line, Emitter.append]

@[simp] theorem exec_instr (i : Instr) : exec (instr i) s e = (.ok (), e.emit [i]) := by
  simp [instr, Emitter.emit]

@[simp] theorem exec_label (name : String) :
    exec (label name) s e = (.ok (), e.append [.label name]) := by
  simp [label]

@[simp] theorem exec_instrs (is : List Instr) : exec (instrs is) s e = (.ok (), e.emit is) := by
  induction is generalizing e with
  | nil => simp [instrs]
  | cons i is ih => simp [instrs, exec_bind, ih]

@[simp] theorem exec_jump (target : String) :
    exec (jump target) s e = (.ok (), e.emit [.jmp target]) := by
  simp [jump]

theorem exec_freshId (kind : String) :
    exec (freshId kind) s e =
      (.ok (e.labels.peek kind), { e with labels := (e.labels.next kind).2 }) := rfl

theorem exec_allocate (view : Scalar) :
    exec (allocate view) s e =
      match e.fresh? view with
      | some r => (.ok r, e.take r)
      | none => (.error (.noFreeRegister view), e) := by
  simp only [allocate, exec_bind, exec_get]
  split
  · rename_i err h
    unfold Bank.allocate at h
    split at h
    · cases h
      simp [Emitter.fresh?, *]
    · cases h
  · rename_i r bank h
    unfold Bank.allocate at h
    split at h
    · cases h
    · rename_i slot hslot
      cases h
      simp [Emitter.fresh?, hslot, Emitter.take, Except.map]

variable {s e} {r : Reg}

@[simp] theorem exec_check (h : e.Takes r.cell) : exec (check r) s e = (.ok (), e) := by
  simp [check, exec_bind, e.bank.property.check_eq_ok h]

@[simp] theorem exec_free (h : e.Takes r.cell) : exec (free r) s e = (.ok (), e.release r) := by
  have hc := e.bank.property.check_eq_ok h
  simp only [free, exec_bind, exec_get]
  split
  · rename_i err hf
    simp [Bank.free, hc, bind, Except.bind, pure, Except.pure] at hf
  · rename_i bank hf
    simp only [Bank.free, hc, bind, Except.bind, pure, Except.pure, Except.ok.injEq] at hf
    subst hf
    simp [Emitter.release]

theorem valueGprs_getElem? (h : e.Takes r.cell) : valueGprs[r.slot]? = some r.gpr := by
  have hs : r.slot < valueGprs.length := Emitter.slot_lt_of_takes h
  rw [Reg.gpr, List.getElem?_eq_getElem hs, Option.getD_some]

theorem valueXmms_getElem? (h : e.Takes r.cell) : valueXmms[r.slot]? = some r.xmm := by
  have hs : r.slot < valueXmms.length := Emitter.slot_lt_of_takes h
  rw [Reg.xmm, List.getElem?_eq_getElem hs, Option.getD_some]

theorem registerFile_name (h : e.Takes r.cell) :
    registerFile.name r.view r.slot = some r.register := by
  cases hv : r.view <;>
    simp [registerFile, valueGprs_getElem? h, valueXmms_getElem? h, Reg.register, hv]

theorem nameOf_eq_ok (h : e.Takes r.cell) : e.bank.val.nameOf r = .ok r.register := by
  simp [Bank.nameOf, e.bank.property.check_eq_ok h, registerFile_name h, bind, Except.bind, pure,
    Except.pure]

theorem byteNameOf_eq_ok (h : e.Takes r.cell) (hv : r.view.isInteger = true) :
    e.bank.val.byteNameOf r = .ok (.byte r.gpr) := by
  have hg : registerFile.byteName r.slot = some (.byte r.gpr) := by
    simp [registerFile, valueGprs_getElem? h]
  simp [Bank.byteNameOf, e.bank.property.check_eq_ok h, hv, hg, bind, Except.bind, pure,
    Except.pure]

@[simp] theorem exec_operand (h : e.Takes r.cell) :
    exec (operand r) s e = (.ok (.reg r.register), e) := by
  simp [operand, exec_bind, nameOf_eq_ok h, Except.map]

@[simp] theorem exec_quad (h : e.Takes r.cell) (hv : r.view.isInteger = true) :
    exec (quad r) s e = (.ok (.quad r.gpr), e) := by
  have h' : e.Takes (⟨.long, r.slot⟩ : Reg).cell := by rwa [Reg.cell_as hv rfl]
  simp only [quad, exec_bind, Reg.as_of_isInteger (v := .long) hv rfl, exec_ofExcept_ok,
    exec_operand h']
  rfl

@[simp] theorem exec_long (h : e.Takes r.cell) (hv : r.view.isInteger = true) :
    exec (long r) s e = (.ok (.reg (.long r.gpr)), e) := by
  have h' : e.Takes (⟨.int, r.slot⟩ : Reg).cell := by rwa [Reg.cell_as hv rfl]
  simp only [long, exec_bind, Reg.as_of_isInteger (v := .int) hv rfl, exec_ofExcept_ok,
    exec_operand h']
  rfl

@[simp] theorem exec_byte (h : e.Takes r.cell) (hv : r.view.isInteger = true) :
    exec (byte r) s e = (.ok (.reg (.byte r.gpr)), e) := by
  simp [byte, exec_bind, byteNameOf_eq_ok h hv, Except.map]

@[simp] theorem exec_pointer (h : e.Takes r.cell) : exec (pointer r) s e = (.ok r.gpr, e) := by
  simp [pointer, valueGprs_getElem? h, exec_check h, Except.map]

theorem takes_take_self {view : Scalar} (h : e.fresh? view = some r) : (e.take r).Takes r.cell :=
  (Emitter.takes_take h _).mpr (Or.inl rfl)

/-- What was taken stays taken when another register is taken. -/
theorem takes_take_of_takes {view : Scalar} {r' : Reg} (h : e.fresh? view = some r')
    (hr : e.Takes r.cell) : (e.take r').Takes r.cell :=
  (Emitter.takes_take h _).mpr (Or.inr hr)

theorem cell_ne_of_fresh? {view : Scalar} {r' : Reg} (h : e.fresh? view = some r')
    (hr : e.Takes r.cell) : r.cell ≠ r'.cell := by
  intro heq
  exact (Emitter.of_fresh? h).2.1 (heq ▸ hr)

/-! ### Views -/

theorem held_eq_ok {type : CType} (h : type.isVoid = false) : held type = .ok type.word := by
  cases type <;> simp_all [held, CType.word, CType.isVoid]

/-- The instruction that extends a register again from the width of its view. -/
def normalizeCode (r : Reg) : List Instr :=
  match r.view with
  | .int => [.movSign .long .quad (.reg (.long r.gpr)) (.quad r.gpr)]
  | .char => [.movZero .byte .quad (.reg (.byte r.gpr)) (.quad r.gpr)]
  | .long => []
  | .float => []

theorem exec_normalize (h : e.Takes r.cell) :
    exec (normalize r) s e = (.ok (), e.emit (normalizeCode r)) := by
  cases hv : r.view <;>
    simp [normalize, normalizeCode, hv, exec_bind, exec_long h, exec_quad h, exec_byte h,
      Scalar.isInteger]

theorem exec_sameView {l : Reg} (hl : e.Takes l.cell) (hr : e.Takes r.cell) (operation : String) :
    exec (sameView operation l r) s e =
      if l.view = r.view then (.ok (), e)
      else (.error (.typeMismatch operation l.view r.view), e) := by
  simp only [sameView, exec_bind, exec_check hl, exec_check hr, ite_not]
  split <;> rfl

theorem exec_expectView (h : e.Takes r.cell) (operation : String) (view : Scalar) :
    exec (expectView operation r view) s e =
      if r.view = view then (.ok (), e)
      else (.error (.typeMismatch operation r.view view), e) := by
  simp only [expectView, exec_bind, exec_check h, ite_not]
  split <;> rfl

end MiniC.Emit
