import MiniC.Emit.Linkage
import MiniC.Proofs.Emit.Compute

/-!
# What calls emit

The operations around a call in closed form: moving and pushing arguments, the call itself with the
live floats saved around it, and taking its result. None of them leaves the count of pushed words
other than it found it, but for the words that arguments take until the call pops them.
-/

set_option autoImplicit false

namespace MiniC.Emit

open MiniC.X86 (Gpr Register Operand Instr Line Mem Alu Sse Cond)

variable {s : Setting} {e : Emitter} {r : Reg}

/-- The instruction that moves a value to a register of the calling convention. -/
def moveOutInstr (r : Reg) (target : Register) : Instr :=
  if r.view = .float then .sse .movsd (.reg (.xmm r.xmm)) (.reg target)
  else .mov .quad (.quad r.gpr) (.reg target)

theorem exec_moveOut (h : e.Takes r.cell) (target : Register) :
    exec (moveOut r target) s e = (.ok (), e.emit [moveOutInstr r target]) := by
  unfold moveOut moveOutInstr
  split_ifs with hv
  · simp only [exec_bind, exec_operand h, register_of_float hv, exec_instr]
  · simp only [exec_bind, exec_quad h (isInteger_of_ne_float hv), exec_instr]

/-- The instruction that moves a value from a register of the calling convention. -/
def moveInInstr (r : Reg) (source : Register) : Instr :=
  if r.view = .float then .sse .movsd (.reg source) (.reg (.xmm r.xmm))
  else .mov .quad (.reg source) (.quad r.gpr)

theorem exec_moveIn (h : e.Takes r.cell) (source : Register) :
    exec (moveIn r source) s e = (.ok (), e.emit [moveInInstr r source]) := by
  unfold moveIn moveInInstr
  split_ifs with hv
  · simp only [exec_bind, exec_operand h, register_of_float hv, exec_instr]
  · simp only [exec_bind, exec_quad h (isInteger_of_ne_float hv), exec_instr]

/-! ### The stack -/

/-- The instructions that push a float. -/
def pushFloatCode (r : Reg) : List Instr :=
  [.alu .sub .quad (.imm (Int64.ofNat wordBytes)) (.quad .rsp),
    .sse .movsd (.reg r.register) .top]

/-- The instructions that pop a float. -/
def popFloatCode (r : Reg) : List Instr :=
  [.sse .movsd .top (.reg r.register),
    .alu .add .quad (.imm (Int64.ofNat wordBytes)) (.quad .rsp)]

theorem exec_pushFloat (h : e.Takes r.cell) :
    exec (pushFloat r) s e = (.ok (), (e.emit (pushFloatCode r)).withPushed (e.pushed + 1)) := by
  simp only [pushFloat, growStack, countPush, exec_bind, exec_instr]
  rw [exec_operand (by simpa using h)]
  simp [pushFloatCode, Emitter.withPushed]

theorem exec_popFloat (h : e.Takes r.cell) :
    exec (popFloat r) s e = (.ok (), (e.emit (popFloatCode r)).withPushed (e.pushed - 1)) := by
  simp only [popFloat, shrinkStack, countPop, exec_bind, exec_operand h, exec_instr]
  simp [popFloatCode, Emitter.withPushed]

theorem exec_pushFloats {rs : List Reg} (h : ∀ r ∈ rs, e.Takes r.cell) :
    exec (pushFloats rs) s e =
      (.ok (), (e.emit (rs.flatMap pushFloatCode)).withPushed (e.pushed + rs.length)) := by
  induction rs generalizing e with
  | nil => simp [pushFloats]
  | cons r rs ih =>
    have hr : e.Takes r.cell := h r (by simp)
    have hrs : ∀ r' ∈ rs, ((e.emit (pushFloatCode r)).withPushed (e.pushed + 1)).Takes r'.cell :=
      fun r' hr' => by simpa using h r' (by simp [hr'])
    simp only [pushFloats, exec_bind, exec_pushFloat hr, ih hrs]
    simp [Nat.add_assoc, Nat.add_comm 1]

/-- The instructions that pop floats, the last one first. -/
def popFloatsCode (rs : List Reg) : List Instr := rs.reverse.flatMap popFloatCode

theorem exec_popFloats {rs : List Reg} (h : ∀ r ∈ rs, e.Takes r.cell) :
    exec (popFloats rs) s e =
      (.ok (), (e.emit (popFloatsCode rs)).withPushed (e.pushed - rs.length)) := by
  induction rs with
  | nil => simp [popFloats, popFloatsCode]
  | cons r rs ih =>
    have hr : e.Takes r.cell := h r (by simp)
    have hrs : ∀ r' ∈ rs, e.Takes r'.cell := fun r' hr' => h r' (by simp [hr'])
    simp only [popFloats, exec_bind, ih hrs]
    rw [exec_popFloat (by simpa using hr)]
    simp [popFloatsCode, Nat.sub_sub]

/-- The instructions that push an argument. -/
def pushCode (r : Reg) : List Instr :=
  if r.view = .float then pushFloatCode r else [.push (.quad r.gpr)]

theorem exec_pushArgument (h : e.Takes r.cell) :
    exec (pushArgument r) s e =
      (.ok (), ((e.emit (pushCode r)).withPushed (e.pushed + 1)).release r) := by
  simp only [pushArgument, exec_bind, exec_check h, pushCode]
  split_ifs with hv
  · simp only [exec_bind, exec_pushFloat h]
    rw [exec_free (by simpa using h)]
  · simp only [exec_bind, exec_quad h (isInteger_of_ne_float hv), exec_instr, countPush,
      exec_modify]
    exact exec_free (by simpa [Emitter.Takes] using h)

/-- The instructions that pop an argument into its register. -/
def popTargetCode : Register → List Instr
  | .xmm i => [.sse .movsd .top (.reg (.xmm i)),
      .alu .add .quad (.imm (Int64.ofNat wordBytes)) (.quad .rsp)]
  | .gpr g w => [.pop (.reg (.gpr g w))]

/-- The instructions that pop arguments into their registers, the last one first. -/
def popTargetsCode (targets : List Register) : List Instr := targets.reverse.flatMap popTargetCode

theorem exec_popArguments (targets : List Register) :
    exec (popArguments targets) s e =
      (.ok (), (e.emit (popTargetsCode targets)).withPushed (e.pushed - targets.length)) := by
  induction targets with
  | nil => simp [popArguments, popTargetsCode]
  | cons t ts ih =>
    simp only [popArguments, exec_bind, ih]
    cases t <;>
      simp [exec_bind, shrinkStack, countPop, popTargetsCode, popTargetCode, Emitter.withPushed,
        Nat.sub_sub, Emitter.emit, Emitter.append]

/-! ### Calls -/

/-- The instruction that moves the result of a call to its register. -/
def resultInstr (type : CType) (r : Reg) : Instr :=
  match type with
  | .scalar .float => .sse .movsd (.reg (.xmm resultXmm)) (.reg (.xmm r.xmm))
  | .scalar .int => .movSign .long .quad (.reg (.long .rax)) (.quad r.gpr)
  | .scalar .char => .movZero .byte .quad (.reg (.byte .rax)) (.quad r.gpr)
  | _ => .mov .quad (.quad .rax) (.quad r.gpr)

theorem exec_takeResult_void {t : CType} (ht : t.isVoid = true) :
    exec (takeResult t) s e = (.ok none, e) := by
  simp [takeResult, ht]

theorem exec_takeResult {type : CType} (ht : type.isVoid = false) :
    exec (takeResult type) s e =
      match e.fresh? type.word with
      | some r => (.ok (some r), (e.take r).emit [resultInstr type r])
      | none => (.error (.noFreeRegister type.word), e) := by
  simp only [takeResult, ht, Bool.false_eq_true, if_false, exec_bind, held_eq_ok ht,
    exec_ofExcept_ok, exec_allocate]
  cases hf : e.fresh? type.word with
  | none => rfl
  | some r =>
    have hv := (Emitter.of_fresh? hf).1
    have hself := takes_take_self hf
    cases type with
    | void => simp [CType.isVoid] at ht
    | pointer t =>
      have hi : r.view.isInteger = true := by rw [hv]; rfl
      simp [exec_bind, exec_quad hself hi, resultInstr, Except.map]
    | array t n =>
      have hi : r.view.isInteger = true := by rw [hv]; rfl
      simp [exec_bind, exec_quad hself hi, resultInstr, Except.map]
    | scalar t =>
      cases t with
      | float =>
        simp [exec_bind, exec_operand hself, register_of_float hv, resultInstr, Except.map]
      | _ =>
        have hi : r.view.isInteger = true := by rw [hv]; rfl
        simp [exec_bind, exec_quad hself hi, resultInstr, Except.map]

theorem takes_of_mem_live {view : Scalar} (h : r ∈ e.bank.val.live view) :
    e.Takes r.cell ∧ r.view = view := by
  simp only [Bank.live, List.mem_filterMap, Prod.exists] at h
  obtain ⟨taken, slot, hmem, hr⟩ := h
  split at hr
  · rename_i htaken
    cases hr
    rw [List.mem_zipIdx_iff_getElem?, htaken] at hmem
    exact ⟨(e.bank.property.status_eq ⟨view, slot⟩).mp hmem, rfl⟩
  · cases hr

/-- Bytes by which the stack is moved before a call so that it is aligned. -/
def callPadding (e : Emitter) : Nat :=
  (e.pushed + (e.bank.val.live .float).length) * wordBytes % stackAlign

/-- The call itself: the live floats pushed, the stack aligned, and both undone. -/
def callCode (e : Emitter) (name : String) : List Instr :=
  let floats := e.bank.val.live .float
  let room : Operand := .imm (Int64.ofNat (callPadding e))
  floats.flatMap pushFloatCode ++
    (if callPadding e ≠ 0 then [.alu .sub .quad room (.quad .rsp)] else []) ++
    [.call name] ++
    (if callPadding e ≠ 0 then [.alu .add .quad room (.quad .rsp)] else []) ++
    popFloatsCode floats

theorem exec_callAligned (name : String) (type : CType) :
    exec (callAligned name type) s e = exec (takeResult type) s (e.emit (callCode e name)) := by
  have hlive : ∀ r ∈ e.bank.val.live .float, e.Takes r.cell := fun r hr => (takes_of_mem_live hr).1
  simp only [callAligned, exec_bind, exec_get, exec_pushFloats hlive, Emitter.withPushed_pushed]
  have hpad : (e.pushed + (e.bank.val.live .float).length) * wordBytes % stackAlign =
    callPadding e := rfl
  have hpop : ∀ is : List Instr, exec (popFloats (e.bank.val.live .float)) s
      ((e.emit is).withPushed (e.pushed + (e.bank.val.live .float).length)) =
      (.ok (), e.emit (is ++ popFloatsCode (e.bank.val.live .float))) := by
    intro is
    rw [exec_popFloats (fun r hr => by simpa using hlive r hr)]
    simp [Emitter.withPushed, Emitter.emit, Emitter.append]
  simp only [hpad]
  split_ifs with h0 <;>
    simp [exec_bind, growStack, shrinkStack, hpop, callCode, h0]

theorem exec_callFunction_none (name : String) (type : CType) :
    exec (callFunction name none type) s e =
      exec (takeResult type) s (e.emit (callCode e name)) := by
  simp only [callFunction, exec_callAligned]

/-- The register of the only argument of a call. -/
def soleTarget (view : Scalar) : Register := if view.isInteger then .quad .rdi else .xmm resultXmm

theorem assignArguments_sole (view : Scalar) :
    assignArguments [view] = .ok [soleTarget view] := by
  cases view <;> rfl

/-- The emitter after the only argument of a call has been moved to its register. -/
def afterArgument (e : Emitter) (r : Reg) : Emitter :=
  (e.emit [moveOutInstr r (soleTarget r.view)]).release r

theorem exec_callFunction_some (h : e.Takes r.cell) (name : String) (type : CType) :
    exec (callFunction name (some r) type) s e =
      exec (takeResult type) s
        ((afterArgument e r).emit (callCode (afterArgument e r) name)) := by
  simp only [callFunction, exec_bind, exec_check h, assignArguments_sole, exec_ofExcept_ok,
    exec_moveOut h]
  rw [exec_free (by simpa using h)]
  simp only [exec_callAligned]
  rfl

theorem exec_callPushed (name : String) (views : List Scalar) (type : CType) :
    exec (callPushed name views type) s e =
      match assignArguments views with
      | .error x => (.error x, e)
      | .ok targets =>
        if e.pushed < views.length then
          (.error (.misuse (.argumentsNotPushed name views.length)), e)
        else
          let e' := (e.emit (popTargetsCode targets)).withPushed (e.pushed - targets.length)
          exec (takeResult type) s (e'.emit (callCode e' name)) := by
  simp only [callPushed, exec_bind]
  cases assignArguments views with
  | error x => rfl
  | ok targets =>
    simp only [exec_ofExcept_ok, exec_get]
    split_ifs
    · rfl
    · simp only [exec_bind, exec_popArguments, exec_callAligned]

/-- Each argument is given the next register of its kind. -/
inductive Assigned : List Gpr → List (Fin 16) → List Scalar → List Register → Prop
  | nil {gprs : List Gpr} {xmms : List (Fin 16)} : Assigned gprs xmms [] []
  | integer {g : Gpr} {gprs : List Gpr} {xmms : List (Fin 16)} {view : Scalar} {views : List Scalar}
    {targets : List Register} (hview : view ≠ .float) (h : Assigned gprs xmms views targets) :
    Assigned (g :: gprs) xmms (view :: views) (.quad g :: targets)
  | float {x : Fin 16} {gprs : List Gpr} {xmms : List (Fin 16)} {views : List Scalar} {targets : List Register}
    (h : Assigned gprs xmms views targets) : Assigned gprs (x :: xmms) (.float :: views) (.xmm x :: targets)

section Assigned

variable {gprs : List Gpr} {xmms : List (Fin 16)} {index : Nat} {views : List Scalar} {targets : List Register}

theorem ok_of_map {α β : Type} {x : Except Error α} {f : α → β} {b : β} (h : x.map f = .ok b) :
    ∃ a, x = .ok a ∧ f a = b := by
  cases x with
  | error e => cases h
  | ok a => exact ⟨a, rfl, Except.ok.inj h⟩

theorem assigned_of_assignFrom (h : assignFrom gprs xmms index views = .ok targets) :
    Assigned gprs xmms views targets := by
  induction views generalizing gprs xmms index targets with
  | nil => cases h; exact .nil
  | cons view views ih =>
    simp only [assignFrom] at h
    split at h
    next hview =>
      cases gprs with
      | nil => cases h
      | cons g gprs =>
        obtain ⟨rest, hrest, rfl⟩ := ok_of_map h
        exact .integer (by rintro rfl; cases hview) (ih hrest)
    next hview =>
      obtain rfl : view = .float := by cases view <;> first | rfl | exact absurd rfl hview
      cases xmms with
      | nil => cases h
      | cons x xmms =>
        obtain ⟨rest, hrest, rfl⟩ := ok_of_map h
        exact .float (ih hrest)

theorem length_of_assignFrom (h : assignFrom gprs xmms index views = .ok targets) :
    targets.length = views.length := by
  have hassigned := assigned_of_assignFrom h
  clear h
  induction hassigned with
  | nil => rfl
  | integer _ _ ih | float _ ih => exact congrArg (· + 1) ih

/-- The registers that are given are among those there are. -/
theorem Assigned.mem (h : Assigned gprs xmms views targets) :
    ∀ t ∈ targets, (∃ g ∈ gprs, t = .quad g) ∨ ∃ x ∈ xmms, t = .xmm x := by
  induction h with
  | nil => simp
  | integer _ _ ih =>
    refine List.forall_mem_cons.mpr ⟨.inl ⟨_, List.mem_cons_self, rfl⟩, fun t ht => (ih t ht).imp_left ?_⟩
    exact fun ⟨g, hg, heq⟩ => ⟨g, .tail _ hg, heq⟩
  | float _ ih =>
    refine List.forall_mem_cons.mpr ⟨.inr ⟨_, List.mem_cons_self, rfl⟩, fun t ht => (ih t ht).imp_right ?_⟩
    exact fun ⟨x, hx, heq⟩ => ⟨x, .tail _ hx, heq⟩

theorem mem_of_assignFrom (h : assignFrom gprs xmms index views = .ok targets) :
    ∀ t ∈ targets, (∃ g ∈ gprs, t = .quad g) ∨ ∃ x ∈ xmms, t = .xmm x :=
  (assigned_of_assignFrom h).mem

end Assigned

theorem error_of_assignFrom {gprs : List Gpr} {xmms : List (Fin 16)} {index : Nat}
    {views : List Scalar} {x : Error} (h : assignFrom gprs xmms index views = .error x) :
    ∃ i view, x = .unsupported (.argument i view) := by
  induction views generalizing gprs xmms index with
  | nil => cases h
  | cons view views ih =>
    simp only [assignFrom] at h
    split at h
    · split at h
      · cases h; exact ⟨index, view, rfl⟩
      · rename_i g gprs
        cases hr : assignFrom gprs xmms (index + 1) views with
        | error y => rw [hr] at h; cases h; exact ih hr
        | ok rest => rw [hr] at h; cases h
    · split at h
      · cases h; exact ⟨index, view, rfl⟩
      · rename_i x xmms
        cases hr : assignFrom gprs xmms (index + 1) views with
        | error y => rw [hr] at h; cases h; exact ih hr
        | ok rest => rw [hr] at h; cases h

theorem exec_printArray (h : e.Takes r.cell) (routine : String) (length : Nat) :
    exec (printArray r routine length) s e =
      if r.view = .long then
        let e' := (e.emit [.mov .quad (.quad r.gpr) (.quad .rdi),
          .mov .quad (.imm (Int64.ofNat length)) (.quad .rsi)]).release r
        (.ok (), e'.emit (callCode e' routine))
      else (.error (.typeMismatch "print array" r.view .long), e) := by
  simp only [printArray, exec_bind, exec_expectView h]
  split_ifs with hv
  · simp only [exec_moveOut h, moveOutInstr, hv, reduceCtorEq, if_false, exec_instr,
      Emitter.emit_emit]
    rw [exec_free (by simpa using h)]
    simp only [exec_callAligned, exec_takeResult_void (t := .void) rfl, exec_pure]
    rfl
  · rfl

theorem exec_returnValue {type : CType} (h : e.Takes r.cell) (ht : type.isVoid = false) :
    exec (returnValue r type) s e =
      if r.view = type.word then
        (.ok (), (e.emit [moveOutInstr r (if r.view = .float then .xmm resultXmm else .quad .rax)]).release r)
      else (.error (.typeMismatch "return" r.view type.word), e) := by
  simp only [returnValue, exec_bind, held_eq_ok ht, exec_ofExcept_ok, exec_expectView h]
  by_cases hv : r.view = type.word
  · simp only [if_pos hv, exec_moveOut h]
    exact exec_free (by simpa using h)
  · simp only [if_neg hv]

end MiniC.Emit
