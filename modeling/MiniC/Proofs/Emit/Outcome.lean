import MiniC.Proofs.Emit.Holding

/-!
# How operations end

`Outcome m pool e ok fails` says how the operation `m` ends from `e`: with a result and a state of
which `ok` holds, or with an error of which `fails` holds. It also says that the ending does not
depend on how strict generation is and that no warning is given, which is true of everything but the
search for registers that are still taken.

The lemmas follow the operations. Each takes what is held before and says what is held after a
success, and which condition on the operands leaves only the limits of the generator as a cause of
failure.
-/

set_option autoImplicit false

namespace MiniC

/-- The constants that generation finds: every integer, and the floats and strings that have a
label. -/
def Pool.Holds (pool : Pool) : Value → Prop
  | .float x => (pool.floatLabel? x).isSome
  | .str text => (pool.stringLabel? text).isSome
  | _ => True

namespace Emit

open MiniC.Emitter (Holding Labelled)
open MiniC.X86 (Gpr Register Operand Instr Line)

/-- The limits of the generator: the only causes for which a checked program is refused. -/
inductive Error.IsLimit : Error → Prop
  | register (view : Scalar) : IsLimit (.noFreeRegister view)
  | argument (index : Nat) (view : Scalar) : IsLimit (.unsupported (.argument index view))
  | printLongs (length : Nat) : IsLimit (.unsupportedType "print" (.array .long length))

/-- A cause of failure other than a register that is still taken, and a limit of the generator if
the operands fit. -/
structure Fault (fits : Prop) (x : Error) : Prop where
  notLeak : ∀ count scope, x ≠ .misuse (.stillLive count scope)
  limit : fits → x.IsLimit

namespace Fault

variable {fits : Prop} {x : Error}

theorem register (fits : Prop) (view : Scalar) : Fault fits (.noFreeRegister view) :=
  ⟨by simp, fun _ => .register view⟩

theorem argument (fits : Prop) (index : Nat) (view : Scalar) :
    Fault fits (.unsupported (.argument index view)) :=
  ⟨by simp, fun _ => .argument index view⟩

theorem of_not (h : ¬ fits) (hx : ∀ count scope, x ≠ .misuse (.stillLive count scope)) :
    Fault fits x :=
  ⟨hx, fun hfits => absurd hfits h⟩

theorem mono {fits' : Prop} (h : Fault fits x) (himp : fits' → fits) : Fault fits' x :=
  ⟨h.notLeak, fun hfits => h.limit (himp hfits)⟩

end Fault

/-- The ending of an operation: its result or error, and the state after it. -/
def Ends {α : Type} (e : Emitter) (ok : α → Emitter → Prop) (fails : Error → Prop)
    (ending : Except Error α × Emitter) : Prop :=
  ending.2.warnings = e.warnings ∧
    match ending.1 with
    | .ok a => ok a ending.2
    | .error x => fails x

/-- How an operation ends, however strict generation is. -/
def Outcome {α : Type} (m : Emit α) (pool : Pool) (e : Emitter) (ok : α → Emitter → Prop)
    (fails : Error → Prop) : Prop :=
  ∃ ending, (∀ strict, exec m ⟨pool, strict⟩ e = ending) ∧ Ends e ok fails ending

namespace Outcome

variable {α β : Type} {m : Emit α} {pool : Pool} {e e' : Emitter}
  {ok ok' : α → Emitter → Prop} {fails fails' : Error → Prop}

theorem of_ok {a : α} (h : ∀ strict, exec m ⟨pool, strict⟩ e = (.ok a, e'))
    (hw : e'.warnings = e.warnings) (hok : ok a e') : Outcome m pool e ok fails :=
  ⟨_, h, hw, hok⟩

theorem of_error {x : Error} (h : ∀ strict, exec m ⟨pool, strict⟩ e = (.error x, e'))
    (hw : e'.warnings = e.warnings) (hx : fails x) : Outcome m pool e ok fails :=
  ⟨_, h, hw, hx⟩

theorem pure {a : α} (hok : ok a e) : Outcome (pure a) pool e ok fails :=
  of_ok (fun _ => exec_pure ..) rfl hok

theorem throw {x : Error} (hx : fails x) : Outcome (throw x : Emit α) pool e ok fails :=
  of_error (fun _ => exec_throw ..) rfl hx

theorem mono (h : Outcome m pool e ok fails) (hok : ∀ a e', ok a e' → ok' a e')
    (hfails : ∀ x, fails x → fails' x) : Outcome m pool e ok' fails' := by
  obtain ⟨⟨o, e'⟩, hexec, hw, ho⟩ := h
  refine ⟨(o, e'), hexec, hw, ?_⟩
  cases o with
  | ok a => exact hok a e' ho
  | error x => exact hfails x ho

theorem ok_of_exec {s : Setting} {a : α} (h : Outcome m s.pool e ok fails)
    (hexec : exec m s e = (.ok a, e')) : ok a e' := by
  obtain ⟨ending, hending, -, hends⟩ := h
  have heq : ending = (.ok a, e') := (hending s.strict).symm.trans hexec
  subst heq
  exact hends

/-- An operation after another starts from where that one succeeded. -/
theorem bind {f : α → Emit β} {ok' : β → Emitter → Prop} (h : Outcome m pool e ok fails)
    (hf : ∀ a e', ok a e' → Outcome (f a) pool e' ok' fails) :
    Outcome (m >>= f) pool e ok' fails := by
  obtain ⟨⟨o, e'⟩, hexec, hw, ho⟩ := h
  cases o with
  | ok a =>
    obtain ⟨ending, hexec', hw', ho'⟩ := hf a e' ho
    exact ⟨ending, fun strict => by rw [exec_bind_ok (hexec strict), hexec' strict],
      hw'.trans hw, ho'⟩
  | error x => exact of_error (fun strict => exec_bind_error (hexec strict)) hw ho

/-- The same with the errors of the first operation weakened on the way. -/
theorem bind' {f : α → Emit β} {ok' : β → Emitter → Prop} (h : Outcome m pool e ok fails)
    (hfails : ∀ x, fails x → fails' x)
    (hf : ∀ a e', ok a e' → Outcome (f a) pool e' ok' fails') :
    Outcome (m >>= f) pool e ok' fails' :=
  (h.mono (fun _ _ hok => hok) hfails).bind hf

end Outcome

section Operations

variable {pool : Pool} {cs : List Cell} {n : Nat} {e0 e : Emitter} {r l : Reg}
  {fails : Error → Prop}

/-- What is held once an operation has put its result into a register of a view. -/
def Holds (view : Scalar) (cs : List Cell) (n : Nat) (e0 : Emitter) (r : Reg) (e : Emitter) : Prop :=
  r.view = view ∧ Holding (r.cell :: cs) n e0 e

/-- An operation that takes a register and appends instructions. -/
theorem ends_of_fresh {view : Scalar} {code : Reg → List Instr} (h : Holding cs n e0 e)
    (fits : Prop) :
    Ends e (Holds view cs n e0) (Fault fits)
      (match e.fresh? view with
      | some r => (.ok r, (e.take r).emit (code r))
      | none => (.error (.noFreeRegister view), e)) := by
  cases hf : e.fresh? view with
  | none => exact ⟨rfl, .register _ view⟩
  | some r => exact ⟨rfl, (Emitter.of_fresh? hf).1, (h.take hf).emit _⟩

/-! ### Constants and objects -/

theorem loadImmediate_outcome (h : Holding cs n e0 e) (v : Value) :
    Outcome (loadImmediate v) pool e (Holds v.type.word cs n e0) (Fault (pool.Holds v)) := by
  cases v with
  | int v => exact ⟨_, fun _ => exec_loadInteger rfl _, ends_of_fresh h _⟩
  | char v => exact ⟨_, fun _ => exec_loadInteger rfl _, ends_of_fresh h _⟩
  | long v => exact ⟨_, fun _ => exec_loadInteger rfl _, ends_of_fresh h _⟩
  | float x =>
    have hm := fun strict => exec_loadFloat (s := ⟨pool, strict⟩) (e := e) x
    simp only [Pool.Holds]
    cases hl : pool.floatLabel? x with
    | none =>
      simp only [hl] at hm
      exact ⟨_, hm, rfl, .of_not (by simp) (by simp)⟩
    | some label =>
      simp only [hl] at hm
      exact ⟨_, hm, ends_of_fresh h _⟩
  | str text =>
    have hm := fun strict => exec_loadString (s := ⟨pool, strict⟩) (e := e) text
    simp only [Pool.Holds]
    cases hl : pool.stringLabel? text with
    | none =>
      simp only [hl] at hm
      exact ⟨_, hm, rfl, .of_not (by simp) (by simp)⟩
    | some label =>
      simp only [hl] at hm
      exact ⟨_, hm, ends_of_fresh h _⟩

theorem addressOf_outcome (h : Holding cs n e0 e) (o : Symbol) (fits : Prop) :
    Outcome (addressOf o) pool e (Holds .long cs n e0) (Fault fits) :=
  ⟨_, fun _ => exec_addressOf o, ends_of_fresh h _⟩

theorem loadSymbol_outcome (h : Holding cs n e0 e) (o : Symbol) :
    Outcome (loadSymbol o) pool e (Holds o.type.word cs n e0)
      (Fault (o.type.isVoid = false)) := by
  by_cases ha : o.type.isArray = true
  · have hview : o.type.word = .long := by cases ht : o.type <;> simp_all [CType.isArray, CType.word]
    rw [loadSymbol, if_pos ha, hview]
    exact addressOf_outcome h o _
  · by_cases ht : o.type.isVoid = false
    · exact ⟨_, fun _ => exec_loadSymbol ht (by simpa using ha), ends_of_fresh h _⟩
    · have hheld : held o.type = .error (.unsupportedType "register class" .void) := by
        cases hv : o.type <;> simp_all [CType.isVoid, held]
      rw [loadSymbol, if_neg ha, hheld]
      exact .of_error (fun _ => exec_bind_error rfl) rfl (.of_not ht (by simp))

theorem storeTo_outcome (h : Holding cs n e0 e) (hr : e.Takes r.cell) (type : CType)
    (dst : Operand) :
    Outcome (storeTo r type dst) pool e (fun _ e' => Holding cs n e0 e')
      (Fault (type.isVoid = false ∧ type.isArray = false ∧ r.view = type.word)) := by
  by_cases hv : type.isVoid = false
  · by_cases ha : type.isArray = false
    · refine ⟨_, fun _ => exec_storeTo hr hv ha dst, ?_⟩
      split
      · exact ⟨rfl, h.emit _⟩
      · rename_i hview
        exact ⟨rfl, .of_not (fun hfits => hview hfits.2.2) (by simp)⟩
    · obtain ⟨element, length, rfl⟩ : ∃ element length, type = .array element length := by
        cases type <;> simp_all [CType.isArray]
      exact .throw (.of_not (fun hfits => ha hfits.2.1) (by simp))
  · obtain rfl : type = .void := by cases type <;> simp_all [CType.isVoid]
    exact .throw (.of_not (fun hfits => hv hfits.1) (by simp))

theorem storeElement_outcome (h : Holding cs n e0 e) (hr : e.Takes r.cell) (o : Symbol)
    (index : Nat) :
    Outcome (storeElement r o index) pool e (fun _ e' => Holding cs n e0 e')
      (Fault (∃ length, o.type = .array r.view length ∧ index < length ∧
        index * r.view.size < 2 ^ 31)) := by
  unfold storeElement
  split
  · rename_i element length ht
    simp only
    split_ifs with hlen hfar
    · refine .throw (.of_not ?_ (by simp))
      rintro ⟨length', ht', hlt, -⟩
      rw [ht] at ht'
      cases ht'
      omega
    · refine (storeTo_outcome h hr (.scalar element) _).mono (fun _ _ hok => hok) fun x hx =>
        hx.mono ?_
      rintro ⟨length', ht', -, -⟩
      rw [ht] at ht'
      cases ht'
      exact ⟨rfl, rfl, rfl⟩
    · refine .throw (.of_not ?_ (by simp))
      rintro ⟨length', ht', -, hnear⟩
      rw [ht] at ht'
      cases ht'
      exact hfar hnear
  · rename_i hno
    refine .throw (.of_not ?_ (by simp))
    rintro ⟨length, ht, -⟩
    exact hno _ _ ht

/-! ### Places in memory -/

theorem dereference_outcome (h : Holding (r.cell :: cs) n e0 e) (type : CType) :
    Outcome (dereference r type) pool e
      (fun x e' => ∃ element, type.element? = some element ∧ Holds element cs n e0 x e')
      (Fault (r.view = .long ∧ type.element?.isSome)) := by
  have hr : e.Takes r.cell := h.takes_of_mem (by simp)
  cases ht : type.element? with
  | none =>
    rw [dereference, ht]
    exact .throw (.of_not (by simp) (by simp))
  | some element =>
    by_cases hv : r.view = .long
    · by_cases hf : element = .float
      · subst hf
        refine ⟨_, fun _ => exec_dereference_float hr ht hv, ?_⟩
        cases hx : e.fresh? .float with
        | none => exact ⟨rfl, .register _ _⟩
        | some x =>
          exact ⟨rfl, .float, rfl, (Emitter.of_fresh? hx).1,
            ((h.take hx).emit _).release_second⟩
      · refine .of_ok (fun _ => exec_dereference hr ht hv hf) rfl ⟨element, rfl, rfl, ?_⟩
        have hcell : (⟨element, r.slot⟩ : Reg).cell = r.cell :=
          Reg.cell_as (by rw [hv]; rfl) (by cases element <;> simp_all [Scalar.isInteger])
        rw [hcell]
        exact h.emit _
    · exact .of_error (fun _ => exec_dereference_mismatch hr ht hv) rfl
        (.of_not (fun hfits => hv hfits.1) (by simp))

theorem storeIndirect_outcome {a : Reg} (h : Holding (a.cell :: r.cell :: cs) n e0 e)
    (type : CType) :
    Outcome (storeIndirect r a type) pool e (fun _ e' => Holding (r.cell :: cs) n e0 e')
      (Fault (a.view = .long ∧ type.element? = some r.view)) := by
  have hr : e.Takes r.cell := h.takes_of_mem (by simp)
  have ha : e.Takes a.cell := h.takes_of_mem (by simp)
  cases ht : type.element? with
  | none =>
    rw [storeIndirect, ht]
    exact .throw (.of_not (by simp) (by simp))
  | some element =>
    refine ⟨_, fun _ => exec_storeIndirect hr ha ht, ?_⟩
    split_ifs with hv hw
    · exact ⟨rfl, (h.emit _).release⟩
    · exact ⟨rfl, .of_not (fun hfits => hw (Option.some.inj hfits.2).symm) (by simp)⟩
    · exact ⟨rfl, .of_not (fun hfits => hv hfits.1) (by simp)⟩

theorem elementAddress_outcome {b i : Reg} (h : Holding (i.cell :: b.cell :: cs) n e0 e)
    (element : Scalar) :
    Outcome (elementAddress b i element) pool e (Holds .long cs n e0)
      (Fault (b.view = .long ∧ i.view = .long)) := by
  refine ⟨_, fun _ =>
    exec_elementAddress (h.takes_of_mem (by simp)) (h.takes_of_mem (by simp)) element, ?_⟩
  split_ifs with hb hi
  · exact ⟨rfl, hb, (h.emit _).release⟩
  · exact ⟨rfl, .of_not (fun hfits => hi hfits.2) (by simp)⟩
  · exact ⟨rfl, .of_not (fun hfits => hb hfits.1) (by simp)⟩

theorem step_outcome (h : Holding cs n e0 e) (o : Symbol) (increment after : Bool) :
    Outcome (step o increment after) pool e (Holds o.type.word cs n e0)
      (Fault (stepAmount? o.type).isSome) := by
  cases ha : stepAmount? o.type with
  | none =>
    rw [step, ha]
    exact .throw (.of_not (by simp) (by simp))
  | some amount =>
    cases after with
    | false => exact ⟨_, fun _ => exec_step_before ha increment, ends_of_fresh h _⟩
    | true =>
      refine ⟨_, fun _ => exec_step_after ha increment, ?_⟩
      cases hv : e.fresh? o.type.word with
      | none => exact ⟨rfl, .register _ _⟩
      | some v =>
        simp only
        cases hc : (e.take v).fresh? o.type.word with
        | none => exact ⟨rfl, .register _ _⟩
        | some c =>
          have hload := (h.take hv).emit [loadInstr o.type (place o) v]
          exact ⟨rfl, (Emitter.of_fresh? hv).1, ((hload.take hc).emit _).release⟩

/-! ### Computations -/

theorem binary_outcome (h : Holding (r.cell :: l.cell :: cs) n e0 e) (op : ArithOp) :
    Outcome (binary op l r) pool e (Holds l.view cs n e0)
      (Fault (l.view = r.view ∧ (l.view = .float → (floatOp? op).isSome))) := by
  refine ⟨_, fun _ => exec_binary (h.takes_of_mem (by simp)) (h.takes_of_mem (by simp)) op, ?_⟩
  by_cases hv : l.view = r.view
  · rw [if_pos hv]
    by_cases hf : l.view = .float
    · rw [if_pos hf]
      cases hop : floatOp? op with
      | none => exact ⟨rfl, .of_not (fun hfits => by simpa using hfits.2 hf) (by simp)⟩
      | some sse => exact ⟨rfl, rfl, (h.emit _).release⟩
    · rw [if_neg hf]
      exact ⟨rfl, rfl, (h.emit _).release⟩
  · rw [if_neg hv]
    exact ⟨rfl, .of_not (fun hfits => hv hfits.1) (by simp)⟩

theorem compare_outcome (h : Holding (r.cell :: l.cell :: cs) n e0 e) (relation : Relation) :
    Outcome (compare relation l r) pool e (Holds .long cs n e0) (Fault (l.view = r.view)) := by
  have hl : e.Takes l.cell := h.takes_of_mem (by simp)
  have hr : e.Takes r.cell := h.takes_of_mem (by simp)
  have hne : l.cell ≠ r.cell := fun heq => by simpa [heq] using h.nodup
  by_cases hv : l.view = r.view
  · by_cases hf : l.view = .float
    · have hgiven := ((h.emit [floatCompareInstr relation l r]).release_second).release
      exact ⟨_, fun _ => exec_compare_float hl hr hne hv hf relation, ends_of_fresh hgiven _⟩
    · by_cases hlong : l.view = .long
      · refine .of_ok (fun _ => exec_compare_long hl hr hv hlong relation) rfl ⟨hv ▸ hlong, ?_⟩
        exact (h.emit _).release_second
      · refine ⟨_, fun _ => exec_compare_narrow hl hr hne hv hf hlong relation, ?_⟩
        cases hx : e.fresh? .long with
        | none => exact ⟨rfl, .register _ _⟩
        | some x =>
          -- the outcome's register is taken while both operands are still held
          have htaken := ((h.emit [compareInstr l r]).take hx).emit (setCode (condition relation) x)
          have hgiven : Holding (x.cell :: r.cell :: cs) n e0 _ :=
            (htaken.perm (List.Perm.trans (List.Perm.cons _ (List.Perm.swap ..))
              (List.Perm.swap ..))).release
          exact ⟨rfl, (Emitter.of_fresh? hx).1, hgiven.release_second⟩
  · exact .of_error (fun _ => exec_compare_mismatch hl hr hv relation) rfl (.of_not hv (by simp))

/-- The view of the result of an operation on one operand. -/
def unaryView : ValueOp → Scalar → Scalar
  | .not, _ => .long
  | _, view => view

theorem unary_outcome (h : Holding (r.cell :: cs) n e0 e) (op : ValueOp) :
    Outcome (unary op r) pool e (Holds (unaryView op r.view) cs n e0)
      (Fault (op = .invert → r.view ≠ .float)) := by
  have hr : e.Takes r.cell := h.takes_of_mem (by simp)
  by_cases hv : r.view = .float
  · cases op with
    | negate =>
      refine ⟨_, fun _ => exec_negate_float hr hv, ?_⟩
      cases hx : e.fresh? .float with
      | none => exact ⟨rfl, .register _ _⟩
      | some x =>
        exact ⟨rfl, (Emitter.of_fresh? hx).1.trans hv.symm, ((h.take hx).emit _).release_second⟩
    | invert =>
      exact .of_error (fun _ => (exec_invert hr).trans (if_pos hv)) rfl
        (.of_not (fun hfits => hfits rfl hv) (by simp))
    | not =>
      refine ⟨_, fun _ => exec_not_float hr hv, ?_⟩
      cases hz : e.fresh? .float with
      | none => exact ⟨rfl, .register _ _⟩
      | some z =>
        have hgiven := ((h.take hz).emit [.sse .xorpd (.reg (.xmm z.xmm)) (.reg (.xmm z.xmm)),
          .sse .ucomisd (.reg (.xmm z.xmm)) (.reg (.xmm r.xmm))]).release.release
        exact ends_of_fresh hgiven _
  · cases op with
    | negate => exact .of_ok (fun _ => exec_negate hr hv) rfl ⟨rfl, h.emit _⟩
    | invert =>
      exact .of_ok (fun _ => (exec_invert hr).trans (if_neg hv)) rfl ⟨rfl, h.emit _⟩
    | not =>
      have hcell : (⟨.long, r.slot⟩ : Reg).cell = r.cell :=
        Reg.cell_as (isInteger_of_ne_float hv) rfl
      refine .of_ok (fun _ => exec_not hr hv) rfl ⟨rfl, ?_⟩
      rw [hcell]
      exact h.emit _

theorem convert_outcome (h : Holding (r.cell :: cs) n e0 e) (source target : Scalar) :
    Outcome (convert r source target) pool e (Holds target cs n e0)
      (Fault (r.view = source)) := by
  have hr : e.Takes r.cell := h.takes_of_mem (by simp)
  by_cases hv : r.view = source
  · by_cases heq : source = target
    · subst heq
      exact .of_ok (fun _ => exec_convert_same hr hv) rfl ⟨hv, h⟩
    · by_cases hs : source = .float
      · subst hs
        have ht : target.isInteger = true := isInteger_of_ne_float (Ne.symm heq)
        refine ⟨_, fun _ => exec_convert_ofFloat hr hv ht, ?_⟩
        cases hx : e.fresh? target with
        | none => exact ⟨rfl, .register _ _⟩
        | some x => exact ⟨rfl, (Emitter.of_fresh? hx).1, ((h.take hx).emit _).release_second⟩
      · have hsi := isInteger_of_ne_float hs
        by_cases ht : target = .float
        · subst ht
          refine ⟨_, fun _ => exec_convert_toFloat hr hv hsi, ?_⟩
          cases hx : e.fresh? .float with
          | none => exact ⟨rfl, .register _ _⟩
          | some x => exact ⟨rfl, (Emitter.of_fresh? hx).1, ((h.take hx).emit _).release_second⟩
        · have hti := isInteger_of_ne_float ht
          have hcell : (⟨target, r.slot⟩ : Reg).cell = r.cell := Reg.cell_as (hv ▸ hsi) hti
          refine .of_ok (fun _ => exec_convert_integer hr hv hsi hti heq) rfl ⟨rfl, ?_⟩
          rw [hcell]
          exact h.emit _
  · exact .of_error (fun _ => exec_convert_mismatch hr hv) rfl (.of_not hv (by simp))

/-! ### Jumps -/

/-- The lines of a float jump define at most the local label. -/
theorem labelled_floatJumpCode (c c' : LabelCounter) (relation : Relation) (target : String) :
    Labelled c c' (floatJumpCode relation target) := by
  intro name hmem
  cases relation <;> simp [floatJumpCode] at hmem
  exact Or.inl hmem

theorem testAndJump_outcome (h : Holding (r.cell :: cs) n e0 e) (relation : Relation)
    (target : String) (fits : Prop) :
    Outcome (testAndJump relation r target) pool e (fun _ e' => Holding cs n e0 e')
      (Fault fits) := by
  have hr : e.Takes r.cell := h.takes_of_mem (by simp)
  by_cases hv : r.view = .float
  · refine ⟨_, fun _ => exec_testAndJump_float hr hv relation target, ?_⟩
    cases hz : e.fresh? .float with
    | none => exact ⟨rfl, .register _ _⟩
    | some z =>
      exact ⟨rfl, ((h.take hz).emit _).release.release.append (labelled_floatJumpCode _ _ _ _)⟩
  · exact .of_ok (fun _ => exec_testAndJump hr hv relation target) rfl ((h.emit _).release.emit _)

theorem compareAndJump_outcome (h : Holding (r.cell :: l.cell :: cs) n e0 e)
    (relation : Relation) (target : String) :
    Outcome (compareAndJump relation l r target) pool e (fun _ e' => Holding cs n e0 e')
      (Fault (l.view = r.view)) := by
  have hne : l.cell ≠ r.cell := fun heq => by simpa [heq] using h.nodup
  refine ⟨_, fun _ => exec_compareAndJump (h.takes_of_mem (by simp)) (h.takes_of_mem (by simp))
    hne relation target, ?_⟩
  split_ifs with hv hf
  · exact ⟨rfl, ((h.emit _).append (labelled_floatJumpCode _ _ _ _)).release_second.release⟩
  · exact ⟨rfl, (h.emit _).release_second.release⟩
  · exact ⟨rfl, .of_not hv (by simp)⟩

theorem freshId_outcome (h : Holding cs n e0 e) (kind : String) :
    Outcome (freshId kind) pool e
      (fun id e' => Holding cs n e0 e' ∧ e0.labels.peek kind ≤ id ∧ id < e'.labels.peek kind)
      fails := by
  refine .of_ok (fun _ => exec_freshId _ _ kind) rfl ⟨h.next kind, h.labels kind, ?_⟩
  show _ < (e.labels.next kind).2.peek kind
  rw [LabelCounter.peek_next, if_pos rfl]
  omega

theorem jump_outcome (h : Holding cs n e0 e) (target : String) :
    Outcome (jump target) pool e (fun _ e' => Holding cs n e0 e') fails :=
  .of_ok (fun _ => exec_jump ..) rfl (h.emit _)

theorem label_outcome (h : Holding cs n e0 e) {kind role : String} {id : Nat}
    (hkind : kind ∈ constructs) (hrole : role ∈ roles) (hlo : e0.labels.peek kind ≤ id)
    (hhi : id < e.labels.peek kind) :
    Outcome (label (controlLabel kind id role)) pool e (fun _ e' => Holding cs n e0 e') fails := by
  refine .of_ok (fun _ => exec_label ..) rfl (h.append fun name hmem => Or.inr ?_)
  obtain rfl : name = controlLabel kind id role := by simpa using hmem
  exact ⟨kind, hkind, id, role, hrole, rfl, hlo, hhi⟩

theorem free_outcome (h : Holding (r.cell :: cs) n e0 e) :
    Outcome (free r) pool e (fun _ e' => Holding cs n e0 e') fails :=
  .of_ok (fun _ => exec_free (h.takes_of_mem (by simp))) rfl h.release

/-! ### Calls -/

/-- What is held once a call has given its result: a register unless the result is `void`. -/
def Taken (type : CType) (cs : List Cell) (n : Nat) (e0 : Emitter) (result : Option Reg)
    (e : Emitter) : Prop :=
  match result with
  | none => type.isVoid = true ∧ Holding cs n e0 e
  | some r => type.isVoid = false ∧ Holds type.word cs n e0 r e

theorem ends_takeResult (h : Holding cs n e0 e) (type : CType) (fits : Prop) :
    ∃ ending, (∀ s, exec (takeResult type) s e = ending) ∧
      Ends e (Taken type cs n e0) (Fault fits) ending := by
  cases ht : type.isVoid with
  | true => exact ⟨_, fun _ => exec_takeResult_void ht, rfl, ht, h⟩
  | false =>
    refine ⟨_, fun _ => exec_takeResult ht, ?_⟩
    cases hf : e.fresh? type.word with
    | none => exact ⟨rfl, .register _ _⟩
    | some r => exact ⟨rfl, ht, (Emitter.of_fresh? hf).1, (h.take hf).emit _⟩

theorem callFunction_none_outcome (h : Holding cs n e0 e) (name : String) (type : CType)
    (fits : Prop) :
    Outcome (callFunction name none type) pool e (Taken type cs n e0) (Fault fits) := by
  obtain ⟨ending, hexec, hends⟩ := ends_takeResult (h.emit (callCode e name)) type fits
  exact ⟨ending, fun _ => (exec_callFunction_none name type).trans (hexec _), hends⟩

theorem callFunction_some_outcome (h : Holding (r.cell :: cs) n e0 e) (name : String)
    (type : CType) (fits : Prop) :
    Outcome (callFunction name (some r) type) pool e (Taken type cs n e0) (Fault fits) := by
  have hgiven : Holding cs n e0 (afterArgument e r) := (h.emit _).release
  obtain ⟨ending, hexec, hends⟩ :=
    ends_takeResult (hgiven.emit (callCode (afterArgument e r) name)) type fits
  exact ⟨ending, fun _ =>
    (exec_callFunction_some (h.takes_of_mem (by simp)) name type).trans (hexec _), hends⟩

theorem pushArgument_outcome (h : Holding (r.cell :: cs) n e0 e) :
    Outcome (pushArgument r) pool e (fun _ e' => Holding cs (n + 1) e0 e') fails := by
  refine .of_ok (fun _ => exec_pushArgument (h.takes_of_mem (by simp))) rfl ?_
  have hpushed : e.pushed + 1 = e0.pushed + (n + 1) := by rw [h.pushed]; omega
  rw [hpushed]
  exact ((h.emit _).withPushed _).release

theorem callPushed_outcome {views : List Scalar} (h : Holding cs (n + views.length) e0 e)
    (name : String) (type : CType) (fits : Prop) :
    Outcome (callPushed name views type) pool e (Taken type cs n e0) (Fault fits) := by
  have hm := fun strict => exec_callPushed (s := ⟨pool, strict⟩) (e := e) name views type
  cases ha : assignArguments views with
  | error x =>
    obtain ⟨index, view, rfl⟩ := error_of_assignFrom ha
    simp only [ha] at hm
    exact ⟨_, hm, rfl, .argument _ index view⟩
  | ok targets =>
    have hlen : targets.length = views.length := length_of_assignFrom ha
    have hpushed : e.pushed = e0.pushed + (n + views.length) := h.pushed
    have henough : ¬ e.pushed < views.length := by omega
    have hleft : e.pushed - targets.length = e0.pushed + n := by omega
    simp only [ha, if_neg henough, hleft] at hm
    have hpopped := (h.emit (popTargetsCode targets)).withPushed n
    obtain ⟨ending, hexec, hends⟩ := ends_takeResult (hpopped.emit (callCode _ name)) type fits
    exact ⟨ending, fun strict => (hm strict).trans (hexec _), hends⟩

theorem printArray_outcome (h : Holding (r.cell :: cs) n e0 e) (routine : String) (length : Nat) :
    Outcome (printArray r routine length) pool e (fun _ e' => Holding cs n e0 e')
      (Fault (r.view = .long)) := by
  refine ⟨_, fun _ => exec_printArray (h.takes_of_mem (by simp)) routine length, ?_⟩
  split_ifs with hv
  · exact ⟨rfl, (h.emit _).release.emit _⟩
  · exact ⟨rfl, .of_not hv (by simp)⟩

theorem returnValue_outcome (h : Holding (r.cell :: cs) n e0 e) (type : CType) :
    Outcome (returnValue r type) pool e (fun _ e' => Holding cs n e0 e')
      (Fault (type.isVoid = false ∧ r.view = type.word)) := by
  by_cases ht : type.isVoid = false
  · refine ⟨_, fun _ => exec_returnValue (h.takes_of_mem (by simp)) ht, ?_⟩
    by_cases hv : r.view = type.word
    · rw [if_pos hv]
      exact ⟨rfl, (h.emit _).release⟩
    · rw [if_neg hv]
      exact ⟨rfl, .of_not (fun hfits => hv hfits.2) (by simp)⟩
  · obtain rfl : type = .void := by cases type <;> simp_all [CType.isVoid]
    exact .of_error (fun _ => exec_bind_error rfl) rfl (.of_not (fun hfits => ht hfits.1) (by simp))

end Operations

end Emit

end MiniC
