import MiniC.Lower.Expr
import MiniC.Proofs.Emit.Outcome
import MiniC.Proofs.Typed.WellTyped

/-!
# How the code of expressions ends

Computing an expression, well typed or not, takes exactly one register if it succeeds and gives back
every other it took on the way; a failure is never about a register that was forgotten. If the
expression is well typed, the register is held as its type, and the only failures are the limits of
the generator: the typing rules are just what the operations ask of their operands.

One lemma for each form of expression carries the induction (`lowers`); conditions and discarded
expressions follow from it.
-/

set_option autoImplicit false

namespace MiniC.Lower

open Emit
open MiniC.Emitter (Holding)
open Typed (Vocabulary)

/-- The constants that a program may mention are in the pool. -/
def Covers (pool : Pool) (V : Vocabulary) : Prop := ∀ v, V.Constant v → pool.Holds v

/-- A vocabulary that leaves nothing out: which registers code takes does not depend on one. -/
abbrev everything : Vocabulary := ⟨[], fun _ => True, fun _ => True, fun _ => True⟩

/-- An expression whose value can be computed: it is well typed, it has a value, and its constants
are in the pool. -/
structure Ready (V : Vocabulary) (pool : Pool) (t : Typed.Expr) : Prop where
  covers : Covers pool V
  typed : t.WellTyped V
  value : t.type.isVoid = false

/-- Computing an expression takes one register, held as its type if it is well typed. -/
def Lowers (V : Vocabulary) (pool : Pool) (t : Typed.Expr) : Prop :=
  ∀ {cs : List Cell} {n : Nat} {e0 e : Emitter}, Holding cs n e0 e →
    Outcome (expr t) pool e
      (fun r e' => Holding (r.cell :: cs) n e0 e' ∧ (t.WellTyped V → r.view = t.type.word))
      (Fault (Ready V pool t))

/-! ### Types and views -/

section Views

variable {V : Vocabulary} {pool : Pool} {t l r : Typed.Expr}

theorem word_of_valueType {type : CType} (h : t.valueType = type) : t.type.word = type.word := by
  rw [← h, Typed.Expr.valueType, CType.word_decay]

theorem isVoid_of_valueType {type : CType} (h : t.valueType = type) :
    t.type.isVoid = type.isVoid := by
  rw [← h, Typed.Expr.valueType]
  cases t.type <;> rfl

theorem word_of_fits {type : CType} (h : t.Fits type) :
    t.type.word = type.word ∧ t.type.isVoid = false ∧ type.isVoid = false := by
  rcases h with ⟨ht, hv⟩ | ⟨hp, rfl⟩
  · exact ⟨word_of_valueType ht, (isVoid_of_valueType ht).trans hv, hv⟩
  · cases type <;> simp_all [CType.isPointer]
    exact ⟨rfl, rfl, rfl⟩

/-- What is well typed and can be compared has a value, held alike on both sides. -/
theorem of_comparable (h : Typed.Comparable l r) :
    l.type.word = r.type.word ∧ l.type.isVoid = false ∧ r.type.isVoid = false := by
  cases h with
  | scalars hl hr =>
    exact ⟨(word_of_valueType hl).trans (word_of_valueType hr).symm, isVoid_of_valueType hl,
      isVoid_of_valueType hr⟩
  | pointers hl hr =>
    exact ⟨(word_of_valueType hl).trans (word_of_valueType hr).symm, isVoid_of_valueType hl,
      isVoid_of_valueType hr⟩
  | pointerNull hl => exact ⟨(word_of_valueType hl).trans rfl, isVoid_of_valueType hl, rfl⟩
  | nullPointer hr => exact ⟨(word_of_valueType hr).symm, rfl, isVoid_of_valueType hr⟩

/-- The view of the result of an operation on two operands. -/
def combineView (op : BinaryOp) (view : Scalar) : Scalar :=
  if op.relation?.isSome then .long else view

/-- Operations that there is code for on operands of a view. -/
def Combines (op : BinaryOp) (view : Scalar) : Prop :=
  op.relation?.isSome = true ∨
    ∃ a, op.arith? = some a ∧ (view = .float → (floatOp? a).isSome = true)

/-- The operators for floats are those that are not for integers only. -/
theorem floatOp?_isSome {op : BinaryOp} {a : ArithOp} (h : op.arith? = some a)
    (hop : op.isIntegerOnly = false) : (floatOp? a).isSome = true := by
  cases op <;> simp_all [BinaryOp.arith?, BinaryOp.isIntegerOnly] <;> subst h <;> rfl

/-- What the typing rules say about an operation on two operands. -/
theorem of_wellTyped_binary {op : BinaryOp} {type : CType}
    (h : (Typed.Expr.binary op l r type).WellTyped V) :
    l.WellTyped V ∧ r.WellTyped V ∧ l.type.isVoid = false ∧ r.type.isVoid = false ∧
      l.type.word = r.type.word ∧ Combines op l.type.word ∧
      type.word = combineView op l.type.word := by
  cases h with
  | arithmetic hop hl hr hlt hrt hs hf =>
    obtain ⟨a, ha⟩ := Option.isSome_iff_exists.mp hop
    have hrel : op.relation? = none := by
      cases op <;> simp_all [BinaryOp.arith?, BinaryOp.relation?]
    rw [word_of_valueType hlt, word_of_valueType hrt]
    exact ⟨hl, hr, isVoid_of_valueType hlt, isVoid_of_valueType hrt, rfl,
      .inr ⟨a, ha, fun hfloat => floatOp?_isSome ha (hf hfloat)⟩, by simp [combineView, hrel]⟩
  | distance hl hr hlt hrt =>
    rw [word_of_valueType hlt, word_of_valueType hrt]
    exact ⟨hl, hr, isVoid_of_valueType hlt, isVoid_of_valueType hrt, rfl,
      .inr ⟨.sub, rfl, fun _ => rfl⟩, rfl⟩
  | compare hop hl hr ht =>
    obtain ⟨hheld, hlv, hrv⟩ := of_comparable ht
    exact ⟨hl, hr, hlv, hrv, hheld, .inl hop, by simp [combineView, hop, CType.word]⟩

end Views

/-! ### One form of expression at a time -/

section Forms

attribute [local simp] expr

variable {V : Vocabulary} {pool : Pool} {cs : List Cell} {n : Nat} {e0 e : Emitter} {r l : Reg}

theorem combine_outcome (h : Holding (r.cell :: l.cell :: cs) n e0 e) (op : BinaryOp) :
    Outcome (combine op l r) pool e (Holds (combineView op l.view) cs n e0)
      (Fault (l.view = r.view ∧ Combines op l.view)) := by
  unfold combine combineView Combines
  cases hrel : op.relation? with
  | some relation =>
    exact (compare_outcome h relation).mono (fun _ _ hr => hr) fun x hx => hx.mono (·.1)
  | none =>
    cases harith : op.arith? with
    | some a =>
      refine (binary_outcome h a).mono (fun _ _ hr => hr) fun x hx => hx.mono ?_
      rintro ⟨hv, hc | ⟨a', ha', hf⟩⟩
      · simp at hc
      · cases ha'
        exact ⟨hv, hf⟩
    | none => exact .throw (.of_not (by simp) (by simp))

theorem lowers_literal (v : Value) : Lowers V pool (.literal v) := by
  intro cs n e0 e h
  refine (loadImmediate_outcome h v).mono (fun r e' hr => ⟨hr.2, fun _ => hr.1⟩) fun x hx =>
    hx.mono ?_
  rintro ⟨hpool, ht, -⟩
  cases ht with
  | literal hv => exact hpool v hv

theorem lowers_object (s : Symbol) : Lowers V pool (.load (.object s)) := by
  intro cs n e0 e h
  exact (loadSymbol_outcome h s).mono (fun r e' hr => ⟨hr.2, fun _ => hr.1⟩) fun x hx =>
    hx.mono (·.value)

theorem lowers_pointee {a : Typed.Expr} (pointer : CType) (ha : Lowers V pool a) :
    Lowers V pool (.load (.pointee a pointer)) := by
  intro cs n e0 e h
  have hready : Ready V pool (.load (.pointee a pointer)) →
      Ready V pool a ∧ a.type.word = .long ∧ pointer.element?.isSome = true := by
    rintro ⟨hpool, ht, -⟩
    cases ht with
    | pointee hwt hat =>
      exact ⟨⟨hpool, hwt, isVoid_of_valueType hat⟩, word_of_valueType hat, rfl⟩
  refine (ha h).bind' (fun x hx => hx.mono fun hr => (hready hr).1) fun r e' hr => ?_
  refine (dereference_outcome hr.1 pointer).mono (fun x e'' hx => ?_) fun x hx => hx.mono ?_
  · obtain ⟨element, hel, hview, hholds⟩ := hx
    exact ⟨hholds, fun _ => by simp [hview, Typed.Expr.type, Typed.Place.type, hel, CType.word]⟩
  · intro hfits
    obtain ⟨hra, hlong, hel⟩ := hready hfits
    exact ⟨(hr.2 hra.typed).trans hlong, hel⟩

theorem lowers_addressOf (s : Symbol) (type : CType) : Lowers V pool (.addressOf s type) := by
  intro cs n e0 e h
  refine (addressOf_outcome h s _).mono (fun r e' hr => ⟨hr.2, fun ht => ?_⟩) fun _ hx => hx
  cases ht with
  | addressOf => exact hr.1

theorem lowers_unary (op : UnaryOp) {t : Typed.Expr} (type : CType) (ht : Lowers V pool t) :
    Lowers V pool (.unary op t type) := by
  intro cs n e0 e h
  have hready : (Typed.Expr.unary op t type).WellTyped V →
      t.WellTyped V ∧ t.type.isVoid = false ∧ ∃ v, op.value? = some v ∧
        type.word = unaryView v t.type.word ∧ (v = .invert → t.type.word ≠ .float) := by
    intro hwt
    cases hwt with
    | negate he het =>
      exact ⟨he, isVoid_of_valueType het, .negate, rfl, (word_of_valueType het).symm, by simp⟩
    | invert he het hs =>
      refine ⟨he, isVoid_of_valueType het, .invert, rfl, (word_of_valueType het).symm,
        fun _ => ?_⟩
      rw [word_of_valueType het]
      rcases hs with rfl | rfl <;> simp [CType.word]
    | not he het => exact ⟨he, het, .not, rfl, rfl, by simp⟩
  rw [expr]
  cases hop : op.value? with
  | none =>
    refine .throw (.of_not (fun hfits => ?_) (by simp))
    obtain ⟨-, -, v, hv, -⟩ := hready hfits.typed
    rw [hop] at hv
    cases hv
  | some v =>
    refine (ht h).bind' (fun x hx => hx.mono fun hfits => ?_) fun r e' hr => ?_
    · exact ⟨hfits.covers, (hready hfits.typed).1, (hready hfits.typed).2.1⟩
    · refine (unary_outcome hr.1 v).mono (fun x e'' hx => ⟨hx.2, fun hwt => ?_⟩) fun x hx =>
        hx.mono fun hfits => ?_
      · obtain ⟨hwt', -, v', hv', hheld, -⟩ := hready hwt
        rw [hop] at hv'
        cases hv'
        rw [hx.1, hr.2 hwt']
        exact hheld.symm
      · obtain ⟨hwt', -, v', hv', -, hint⟩ := hready hfits.typed
        rw [hop] at hv'
        cases hv'
        rw [hr.2 hwt']
        exact hint

/-- Both operands of an operation, and then what is done with them. -/
theorem operands_outcome {β : Type} {f : Reg → Reg → Emit β} {ok : β → Emitter → Prop}
    {op : BinaryOp} {l r : Typed.Expr} {type : CType} (hl : Lowers V pool l) (hr : Lowers V pool r)
    (h : Holding cs n e0 e)
    (hf : ∀ lr rr e', Holding (rr.cell :: lr.cell :: cs) n e0 e' →
      ((Typed.Expr.binary op l r type).WellTyped V →
        lr.view = l.type.word ∧ rr.view = r.type.word) →
      Outcome (f lr rr) pool e' ok (Fault (Ready V pool (.binary op l r type)))) :
    Outcome (do
      let lr ← expr l
      let rr ← expr r
      f lr rr) pool e ok (Fault (Ready V pool (.binary op l r type))) := by
  refine (hl h).bind' (fun x hx => hx.mono fun hfits => ?_) fun lr e1 hlr => ?_
  · obtain ⟨hwt, -, hv, -⟩ := of_wellTyped_binary hfits.typed
    exact ⟨hfits.covers, hwt, hv⟩
  refine (hr hlr.1).bind' (fun x hx => hx.mono fun hfits => ?_) fun rr e2 hrr => ?_
  · obtain ⟨-, hwt, -, hv, -⟩ := of_wellTyped_binary hfits.typed
    exact ⟨hfits.covers, hwt, hv⟩
  refine hf lr rr e2 hrr.1 fun hwt => ?_
  obtain ⟨hlwt, hrwt, -⟩ := of_wellTyped_binary hwt
  exact ⟨hlr.2 hlwt, hrr.2 hrwt⟩

theorem lowers_binary (op : BinaryOp) {l r : Typed.Expr} (type : CType) (hl : Lowers V pool l)
    (hr : Lowers V pool r) : Lowers V pool (.binary op l r type) := by
  intro cs n e0 e h
  refine operands_outcome hl hr h fun lr rr e1 h1 hviews => ?_
  refine (combine_outcome h1 op).mono (fun x e' hx => ⟨hx.2, fun hwt => ?_⟩) fun x hx =>
    hx.mono fun hfits => ?_
  · obtain ⟨-, -, -, -, -, -, hheld⟩ := of_wellTyped_binary hwt
    rw [hx.1, (hviews hwt).1]
    exact hheld.symm
  · obtain ⟨-, -, -, -, hsame, hcomb, -⟩ := of_wellTyped_binary hfits.typed
    rw [(hviews hfits.typed).1, (hviews hfits.typed).2]
    exact ⟨hsame, hcomb⟩

/-- The end of a logical operator: past the code for a decided outcome, whose label is `short`. -/
def shortTail (short stop : String) (value : Int64) (r : Reg) : List X86.Line :=
  [.instr (.jmp stop), .label short, .instr (immediateInstr value r.gpr), .label stop]

theorem exec_shortTail {s : Setting} (hr : e.Takes r.cell) (hv : r.view.isInteger = true)
    (short stop : String) (value : Int64) :
    exec (do
      jump stop
      label short
      moveImmediate r value
      label stop
      return r) s e = (.ok r, e.append (shortTail short stop value r)) := by
  simp only [exec_bind, exec_jump, exec_label]
  rw [exec_moveImmediate (by simpa using hr) hv]
  simp [shortTail, Emitter.emit]

/-- Labels of one construct, numbered between the start of the code and where they stand. -/
theorem labelled_shortTail {kind : String} {id : Nat} {c c' : LabelCounter}
    (hkind : kind ∈ constructs) (hlo : c.peek kind ≤ id) (hhi : id < c'.peek kind) (value : Int64)
    (r : Reg) :
    Emitter.Labelled c c'
      (shortTail (controlLabel kind id "short") (controlLabel kind id "end") value r) := by
  intro name hmem
  simp only [shortTail, List.mem_cons, X86.Line.label.injEq, reduceCtorEq, false_or, or_false,
    List.not_mem_nil] at hmem
  rcases hmem with rfl | rfl
  · exact Or.inr ⟨kind, hkind, id, "short", by decide, rfl, hlo, hhi⟩
  · exact Or.inr ⟨kind, hkind, id, "end", by decide, rfl, hlo, hhi⟩

theorem kind_mem_of_shortCircuit? {op : BinaryOp} {s : ShortCircuit}
    (h : shortCircuit? op = some s) : s.kind ∈ constructs := by
  cases op <;> cases h <;> decide

/-- The operands of a logical operator have values of their own. -/
theorem Ready.of_logical {op : BinaryOp} {l r : Typed.Expr} (h : Ready V pool (.logical op l r)) :
    Ready V pool l ∧ Ready V pool r := by
  obtain ⟨hpool, ht, -⟩ := h
  cases ht with
  | logical hop hlwt hrwt hlt hrt => exact ⟨⟨hpool, hlwt, hlt⟩, ⟨hpool, hrwt, hrt⟩⟩

theorem lowers_logical (op : BinaryOp) {l r : Typed.Expr} (hl : Lowers V pool l)
    (hr : Lowers V pool r) : Lowers V pool (.logical op l r) := by
  intro cs n e0 e h
  rw [expr]
  cases hs : shortCircuit? op with
  | none =>
    refine .throw (.of_not (fun hfits => ?_) (by simp))
    obtain ⟨-, ht, -⟩ := hfits
    cases ht with
    | logical hop => cases op <;> simp_all [shortCircuit?, BinaryOp.isLogical]
  | some s =>
    -- what follows the number is counted from there, so that it is seen to be taken at the labels
    refine (freshId_outcome h s.kind).bind fun id e1 hid => ?_
    obtain ⟨h1, hlo, hhi⟩ := hid
    refine (hl (Holding.refl e1)).bind' (fun x hx => hx.mono fun hf => hf.of_logical.1)
      fun lr e2 hlr => ?_
    refine (testAndJump_outcome hlr.1 s.test _ _).bind fun _ e3 h3 => ?_
    refine (hr h3).bind' (fun x hx => hx.mono fun hf => hf.of_logical.2) fun rr e4 hrr => ?_
    refine (testAndJump_outcome hrr.1 s.test _ _).bind fun _ e5 h5 => ?_
    refine (loadImmediate_outcome h5 (.long (1 - s.value))).bind' (fun x hx => hx.mono fun _ =>
      trivial) fun res e6 hres => ?_
    obtain ⟨hview, h6⟩ := hres
    have hint : res.view.isInteger = true := by rw [hview]; rfl
    refine .of_ok (fun _ => exec_shortTail (h6.takes_of_mem (by simp)) hint _ _ s.value) rfl
      ⟨(h1.trans h6).append ?_, fun _ => hview⟩
    exact labelled_shortTail (kind_mem_of_shortCircuit? hs) hlo
      (Nat.lt_of_lt_of_le hhi (h6.labels _)) _ _

theorem lowers_assignObject (s : Symbol) {v : Typed.Expr} (hv : Lowers V pool v) :
    Lowers V pool (.assign (.object s) v) := by
  intro cs n e0 e h
  have hready : (Typed.Expr.assign (.object s) v).WellTyped V →
      v.WellTyped V ∧ s.type.isArray = false ∧ v.Fits s.type := by
    intro hwt
    cases hwt with
    | assignObject hs ha hvwt ht => exact ⟨hvwt, ha, ht⟩
  refine (hv h).bind' (fun x hx => hx.mono fun hfits => ?_) fun r e1 hr => ?_
  · obtain ⟨hwt, -, hft⟩ := hready hfits.typed
    exact ⟨hfits.covers, hwt, (word_of_fits hft).2.1⟩
  refine ((storeTo_outcome hr.1 (hr.1.takes_of_mem (by simp)) s.type (place s)).mono
    (fun _ _ hok => hok) fun x hx => hx.mono fun hfits => ?_).bind fun _ e2 h2 => .pure ⟨h2, ?_⟩
  · obtain ⟨hwt, ha, hft⟩ := hready hfits.typed
    obtain ⟨hheld, -, hnv⟩ := word_of_fits hft
    exact ⟨hnv, ha, (hr.2 hwt).trans hheld⟩
  · intro hwt
    obtain ⟨hvwt, -, hft⟩ := hready hwt
    exact (hr.2 hvwt).trans (word_of_fits hft).1

theorem lowers_assignPointee {a v : Typed.Expr} (pointer : CType) (ha : Lowers V pool a)
    (hv : Lowers V pool v) : Lowers V pool (.assign (.pointee a pointer) v) := by
  intro cs n e0 e h
  have hready : (Typed.Expr.assign (.pointee a pointer) v).WellTyped V →
      ∃ element, a.WellTyped V ∧ a.valueType = .pointer element ∧ v.WellTyped V ∧
        v.valueType = .scalar element ∧ pointer = .pointer element := by
    intro hwt
    cases hwt with
    | assignPointee hawt hat hvwt hvt => exact ⟨_, hawt, hat, hvwt, hvt, rfl⟩
  refine (hv h).bind' (fun x hx => hx.mono fun hfits => ?_) fun vr e1 hvr => ?_
  · obtain ⟨element, -, -, hvwt, hvt, -⟩ := hready hfits.typed
    exact ⟨hfits.covers, hvwt, isVoid_of_valueType hvt⟩
  refine (ha hvr.1).bind' (fun x hx => hx.mono fun hfits => ?_) fun ar e2 har => ?_
  · obtain ⟨element, hawt, hat, -⟩ := hready hfits.typed
    exact ⟨hfits.covers, hawt, isVoid_of_valueType hat⟩
  refine ((storeIndirect_outcome har.1 pointer).mono (fun _ _ hok => hok) fun x hx =>
    hx.mono fun hfits => ?_).bind fun _ e3 h3 => .pure ⟨h3, fun hwt => ?_⟩
  · obtain ⟨element, hawt, hat, hvwt, hvt, rfl⟩ := hready hfits.typed
    rw [har.2 hawt, hvr.2 hvwt, word_of_valueType hat, word_of_valueType hvt]
    exact ⟨rfl, rfl⟩
  · obtain ⟨element, -, -, hvwt, hvt, rfl⟩ := hready hwt
    exact (hvr.2 hvwt).trans (word_of_valueType hvt)

theorem lowers_step (s : Symbol) (increment after : Bool) :
    Lowers V pool (.step s increment after) := by
  intro cs n e0 e h
  refine (step_outcome h s increment after).mono (fun r e' hr => ⟨hr.2, fun _ => hr.1⟩) fun x hx =>
    hx.mono fun hfits => ?_
  obtain ⟨-, ht, -⟩ := hfits
  cases ht with
  | step hs ht =>
    cases hty : s.type <;> simp_all [CType.isInteger, CType.isPointer, stepAmount?]

theorem lowers_convert {t : Typed.Expr} (source target : Scalar) (ht : Lowers V pool t) :
    Lowers V pool (.convert t source target) := by
  intro cs n e0 e h
  have hready : (Typed.Expr.convert t source target).WellTyped V →
      t.WellTyped V ∧ t.type = .scalar source := by
    intro hwt
    cases hwt with
    | convert he het hne => exact ⟨he, het⟩
  refine (ht h).bind' (fun x hx => hx.mono fun hfits => ?_) fun r e1 hr => ?_
  · obtain ⟨hwt, het⟩ := hready hfits.typed
    exact ⟨hfits.covers, hwt, by rw [het]; rfl⟩
  refine (convert_outcome hr.1 source target).mono (fun x e' hx => ⟨hx.2, fun _ => hx.1⟩)
    fun x hx => hx.mono fun hfits => ?_
  obtain ⟨hwt, het⟩ := hready hfits.typed
  rw [hr.2 hwt, het]
  rfl

theorem lowers_offset {p c : Typed.Expr} (element : Scalar) (subtract : Bool)
    (hp : Lowers V pool p) (hc : Lowers V pool c) :
    Lowers V pool (.offset p c element subtract) := by
  intro cs n e0 e h
  have hready : (Typed.Expr.offset p c element subtract).WellTyped V →
      p.WellTyped V ∧ p.valueType = .pointer element ∧ c.WellTyped V ∧ c.type = .long := by
    intro hwt
    cases hwt with
    | offset hpwt hcwt hpt hct => exact ⟨hpwt, hpt, hcwt, hct⟩
  refine (hp h).bind' (fun x hx => hx.mono fun hfits => ?_) fun b e1 hb => ?_
  · obtain ⟨hpwt, hpt, -⟩ := hready hfits.typed
    exact ⟨hfits.covers, hpwt, isVoid_of_valueType hpt⟩
  refine (hc hb.1).bind' (fun x hx => hx.mono fun hfits => ?_) fun i e2 hi => ?_
  · obtain ⟨-, -, hcwt, hct⟩ := hready hfits.typed
    exact ⟨hfits.covers, hcwt, by rw [hct]; rfl⟩
  -- the index keeps its view when it is negated
  have haddress : ∀ i' e3, Holds i.view (b.cell :: cs) n e0 i' e3 →
      Outcome (elementAddress b i' element) pool e3
        (fun x e' => Holding (x.cell :: cs) n e0 e' ∧
          ((Typed.Expr.offset p c element subtract).WellTyped V → x.view = .long))
        (Fault (Ready V pool (.offset p c element subtract))) := by
    intro i' e3 ⟨hview, h3⟩
    refine (elementAddress_outcome h3 element).mono (fun x e' hx => ⟨hx.2, fun _ => hx.1⟩)
      fun x hx => hx.mono fun hfits => ?_
    obtain ⟨hpwt, hpt, hcwt, hct⟩ := hready hfits.typed
    rw [hview, hb.2 hpwt, hi.2 hcwt, word_of_valueType hpt, hct]
    exact ⟨rfl, rfl⟩
  cases subtract with
  | false => exact haddress i e2 ⟨rfl, hi.1⟩
  | true =>
    exact (unary_outcome hi.1 .negate).bind' (fun x hx => hx.mono (by simp)) haddress

end Forms

/-! ### Calls -/

section Calls

variable {V : Vocabulary} {pool : Pool} {cs : List Cell} {n : Nat} {e0 e : Emitter}

/-- Arguments that can be passed. -/
def ReadyAll (V : Vocabulary) (pool : Pool) (args : List Typed.Expr) : Prop :=
  ∀ a ∈ args, Ready V pool a

theorem pushAll_outcome {args : List Typed.Expr} (hargs : ∀ a ∈ args, Lowers V pool a)
    (h : Holding cs n e0 e) :
    Outcome (pushAll args) pool e
      (fun views e' => views.length = args.length ∧ Holding cs (n + args.length) e0 e')
      (Fault (ReadyAll V pool args)) := by
  induction args generalizing n e with
  | nil => exact .pure ⟨rfl, h⟩
  | cons a args ih =>
    refine (hargs a (by simp) h).bind' (fun x hx => hx.mono fun hf => hf a (by simp))
      fun r e1 hr => ?_
    refine (pushArgument_outcome hr.1).bind fun _ e2 h2 => ?_
    refine (ih (fun a' ha' => hargs a' (by simp [ha'])) h2).bind'
      (fun x hx => hx.mono fun hf a' ha' => hf a' (by simp [ha'])) fun views e3 ⟨hlen, h3⟩ => ?_
    refine .pure ⟨by simp [hlen], ?_⟩
    rw [List.length_cons, Nat.add_comm args.length 1, ← Nat.add_assoc]
    exact h3

theorem call_outcome (name : String) (type : CType) {args : List Typed.Expr}
    (hargs : ∀ a ∈ args, Lowers V pool a) (h : Holding cs n e0 e) :
    Outcome (call name type args) pool e (Taken type cs n e0) (Fault (ReadyAll V pool args)) := by
  match args, hargs with
  | [], _ =>
    rw [call]
    exact callFunction_none_outcome h name type _
  | [a], hargs =>
    rw [call]
    refine (hargs a (by simp) h).bind' (fun x hx => hx.mono fun hf => hf a (by simp))
      fun r e1 hr => ?_
    exact callFunction_some_outcome hr.1 name type _
  | first :: second :: others, hargs =>
    rw [call]
    · refine (hargs first (by simp) h).bind' (fun x hx => hx.mono fun hf => hf first (by simp))
        fun r e1 hr => ?_
      refine (pushArgument_outcome hr.1).bind fun _ e2 h2 => ?_
      refine (pushAll_outcome (fun a ha => hargs a (List.mem_cons_of_mem _ ha)) h2).bind'
        (fun x hx => hx.mono fun hf a ha => hf a (List.mem_cons_of_mem _ ha))
        fun views e3 ⟨hlen, h3⟩ => ?_
      refine callPushed_outcome ?_ name type _
      rw [List.length_cons, hlen, Nat.add_comm _ 1, ← Nat.add_assoc]
      exact h3
    · simp

theorem readyAll_of_fits {args : List Typed.Expr} {types : List CType} (hpool : Covers pool V)
    (hwt : ∀ a ∈ args, a.WellTyped V) (ht : List.Forall₂ Typed.Expr.Fits args types) :
    ReadyAll V pool args := by
  induction ht with
  | nil => intro a ha; simp at ha
  | cons hfit _ ih =>
    intro a ha
    rcases List.mem_cons.mp ha with rfl | ha
    · exact ⟨hpool, hwt a (by simp), (word_of_fits hfit).2.1⟩
    · exact ih (fun a ha => hwt a (by simp [ha])) a ha

theorem readyAll_of_call {name : String} {args : List Typed.Expr} {type : CType}
    (hpool : Covers pool V) (h : (Typed.Expr.call name args type).WellTyped V) :
    ReadyAll V pool args := by
  cases h with
  | call hf ha ht => exact readyAll_of_fits hpool ha ht

theorem lowers_call (name : String) {args : List Typed.Expr} (type : CType)
    (hargs : ∀ a ∈ args, Lowers V pool a) : Lowers V pool (.call name args type) := by
  intro cs n e0 e h
  rw [expr]
  refine (call_outcome name type hargs h).bind'
    (fun x hx => hx.mono fun hf => readyAll_of_call hf.covers hf.typed) fun result e1 hres => ?_
  cases result with
  | none =>
    -- only the result of a `void` function is missing, and that has no value
    refine .throw (.of_not (fun hf => ?_) (by simp))
    have hvalue : type.isVoid = false := hf.value
    rw [hres.1] at hvalue
    cases hvalue
  | some r => exact .pure ⟨hres.2.2, fun _ => hres.2.1⟩

end Calls

/-! ### All expressions -/

/-- Computing any expression takes one register. -/
theorem lowers (V : Vocabulary) (pool : Pool) (t : Typed.Expr) : Lowers V pool t := by
  induction t using Typed.Expr.induct with
  | literal v => exact lowers_literal v
  | object s => exact lowers_object s
  | pointee a pointer ha => exact lowers_pointee pointer ha
  | addressOf s type => exact lowers_addressOf s type
  | unary op t type ht => exact lowers_unary op type ht
  | binary op l r type hl hr => exact lowers_binary op type hl hr
  | logical op l r hl hr => exact lowers_logical op hl hr
  | assignObject s v hv => exact lowers_assignObject s hv
  | assignPointee a pointer v ha hv => exact lowers_assignPointee pointer ha hv
  | step s increment after => exact lowers_step s increment after
  | call name args type hargs => exact lowers_call name type hargs
  | convert t source target ht => exact lowers_convert source target ht
  | offset p c element subtract hp hc => exact lowers_offset element subtract hp hc

section Uses

variable {V : Vocabulary} {pool : Pool} {cs : List Cell} {n : Nat} {e0 e : Emitter}

/-- The register of a value is all that is taken when it has been computed. -/
theorem holding_of_expr {t : Typed.Expr} {s : Setting} {r : Reg} {e' : Emitter}
    (h : exec (expr t) s e = (.ok r, e')) : Holding [r.cell] 0 e e' :=
  ((lowers everything s.pool t (.refl e)).ok_of_exec h).1

/-- The value of a well-typed expression is held as its type. -/
theorem view_of_expr {t : Typed.Expr} {s : Setting} {r : Reg} {e' : Emitter} (ht : t.WellTyped V)
    (h : exec (expr t) s e = (.ok r, e')) : r.view = t.type.word :=
  ((lowers V s.pool t (.refl e)).ok_of_exec h).2 ht

/-- Nothing is taken when arguments have been pushed, and each is a word on the stack. -/
theorem of_pushAll {args : List Typed.Expr} {s : Setting} {views : List Scalar} {e' : Emitter}
    (h : exec (pushAll args) s e = (.ok views, e')) :
    views.length = args.length ∧ Holding [] args.length e e' := by
  have hpushed := (pushAll_outcome (V := everything)
    (fun a _ => lowers _ s.pool a) (.refl e)).ok_of_exec h
  rwa [Nat.zero_add] at hpushed

theorem holding_of_pushAll {args : List Typed.Expr} {s : Setting} {views : List Scalar} {e' : Emitter}
    (h : exec (pushAll args) s e = (.ok views, e')) : Holding [] args.length e e' :=
  (of_pushAll h).2

/-- Of several arguments all are pushed, and the call is of what was pushed. -/
theorem pushAll_of_call {name : String} {type : CType} {a b : Typed.Expr} {args : List Typed.Expr} {s : Setting}
    {result : Option Reg} {e' : Emitter}
    (h : exec (call name type (a :: b :: args)) s e = (.ok result, e')) :
    ∃ views e1, exec (pushAll (a :: b :: args)) s e = (.ok views, e1) ∧
      exec (callPushed name views type) s e1 = (.ok result, e') := by
  rw [call] at h
  · obtain ⟨r, e1, h1, h⟩ := exec_bind_eq_ok h
    obtain ⟨_, e2, h2, h⟩ := exec_bind_eq_ok h
    obtain ⟨views, e3, h3, h⟩ := exec_bind_eq_ok h
    refine ⟨r.view :: views, e3, ?_, h⟩
    rw [pushAll]
    simp only [exec_bind, h1, h2, h3]
    rfl
  · simp

theorem value_of_wellTyped {t : Typed.Expr} (h : t.WellTyped V)
    (hcall : ∀ name args type, t ≠ .call name args type) : t.type.isVoid = false := by
  cases h with
  | literal =>
    rename_i v _
    cases v <;> rfl
  | object hs ht => exact ht
  | assignObject hs ha hv ht => exact (word_of_fits ht).2.2
  | step hs ht =>
    rename_i s _ _
    show s.type.isVoid = false
    cases hty : s.type <;> simp_all [CType.isInteger, CType.isPointer, CType.isVoid]
  | call => exact absurd rfl (hcall _ _ _)
  | _ => rfl

theorem discard_outcome (V : Vocabulary) (h : Holding cs n e0 e) (t : Typed.Expr) :
    Outcome (discard t) pool e (fun _ e' => Holding cs n e0 e')
      (Fault (Covers pool V ∧ t.WellTyped V)) := by
  unfold discard
  split
  · rename_i name args type
    refine (call_outcome name type (fun a _ => lowers V pool a) h).bind'
      (fun x hx => hx.mono fun hf => readyAll_of_call hf.1 hf.2) fun result e1 hres => ?_
    cases result with
    | none => exact .pure hres.2
    | some r => exact free_outcome hres.2.2
  · rename_i hcall
    refine (lowers V pool t h).bind' (fun x hx => hx.mono fun hf => ?_) fun r e1 hr =>
      free_outcome hr.1
    exact ⟨hf.1, hf.2, value_of_wellTyped hf.2 fun name args type heq => hcall name args type heq⟩

theorem test_outcome (h : Holding cs n e0 e) (t : Typed.Expr) (relation : Relation)
    (target : String) :
    Outcome (do testAndJump relation (← expr t) target) pool e (fun _ e' => Holding cs n e0 e')
      (Fault (Ready V pool t)) :=
  (lowers V pool t h).bind fun _ _ hr => testAndJump_outcome hr.1 relation target _

theorem comparison_outcome {op : BinaryOp} {l r : Typed.Expr} {type : CType} {lr rr : Reg}
    (h : Holding (rr.cell :: lr.cell :: cs) n e0 e)
    (hviews : (Typed.Expr.binary op l r type).WellTyped V →
      lr.view = l.type.word ∧ rr.view = r.type.word) (relation : Relation) (target : String) :
    Outcome (compareAndJump relation lr rr target) pool e (fun _ e' => Holding cs n e0 e')
      (Fault (Ready V pool (.binary op l r type))) := by
  refine (compareAndJump_outcome h relation target).mono (fun _ _ hok => hok) fun x hx =>
    hx.mono fun hfits => ?_
  obtain ⟨-, -, -, -, hsame, -⟩ := of_wellTyped_binary hfits.typed
  rw [(hviews hfits.typed).1, (hviews hfits.typed).2]
  exact hsame

/-- A condition jumps or goes on, and holds nothing either way. -/
theorem condition_outcome (V : Vocabulary) (h : Holding cs n e0 e) (t : Typed.Expr)
    (target : String) :
    Outcome (condition t target) pool e (fun _ e' => Holding cs n e0 e')
      (Fault (Ready V pool t)) := by
  induction t using Typed.Expr.induct generalizing cs n e0 e target with
  | binary op l r type _ _ =>
    rw [condition]
    cases hrel : op.relation? with
    | none => exact test_outcome h _ .eq target
    | some relation =>
      by_cases hf : l.type.isFloat = true
      · simp only [if_pos hf]
        refine (freshId_outcome h "fcmp").bind fun id e1 ⟨h1, hlo, hhi⟩ => ?_
        refine operands_outcome (lowers V pool l) (lowers V pool r) (Holding.refl e1)
          fun lr rr e2 h2 hviews => ?_
        refine (comparison_outcome h2 hviews relation _).bind fun _ e3 h3 => ?_
        refine (jump_outcome h3 target).bind fun _ e4 h4 => ?_
        exact label_outcome (h1.trans h4) (by decide) (by decide) hlo
          (Nat.lt_of_lt_of_le hhi (h4.labels _))
      · simp only [if_neg hf]
        exact operands_outcome (lowers V pool l) (lowers V pool r) h fun lr rr e1 h1 hviews =>
          comparison_outcome h1 hviews _ target
  | logical op l r hl hr =>
    cases op with
    | logicalAnd =>
      rw [condition]
      refine (hl h target).bind' (fun x hx => hx.mono fun hf => hf.of_logical.1) fun _ e1 h1 => ?_
      exact (hr h1 target).mono (fun _ _ hok => hok) fun x hx => hx.mono fun hf => hf.of_logical.2
    | logicalOr =>
      rw [condition]
      refine (freshId_outcome h "or").bind fun id e1 ⟨h1, hlo, hhi⟩ => ?_
      refine (lowers V pool l (Holding.refl e1)).bind'
        (fun x hx => hx.mono fun hf => hf.of_logical.1) fun lr e2 hlr => ?_
      refine (testAndJump_outcome hlr.1 .ne _ _).bind fun _ e3 h3 => ?_
      refine (hr h3 target).bind' (fun x hx => hx.mono fun hf => hf.of_logical.2) fun _ e4 h4 => ?_
      exact label_outcome (h1.trans h4) (by decide) (by decide) hlo
          (Nat.lt_of_lt_of_le hhi (h4.labels _))
    | _ =>
      rw [condition]
      all_goals first | exact test_outcome h _ .eq target | simp
  | _ =>
    rw [condition]
    all_goals first | exact test_outcome h _ .eq target | simp

theorem holding_of_condition {t : Typed.Expr} {s : Setting} {target : String} {u : Unit} {e' : Emitter}
    (h : exec (condition t target) s e = (.ok u, e')) : Holding [] 0 e e' :=
  (condition_outcome everything (.refl e) t target).ok_of_exec h

end Uses

end MiniC.Lower
