import MiniC.Proofs.Emit.Growth
import MiniC.Proofs.Lower.ExprOutcome

/-!
# What the code of expressions computes

The code of a well-typed expression without floats and calls computes its value: run from any machine,
it falls through to its end with the value in the register that was given for it, with the memory that
evaluation leaves, and with every register that was taken before unchanged. Divisions that have no result
are the only exception, on both sides.

One lemma for each form of expression carries the induction (`compiled`). Each follows the code from one
state of the emitter to the next; what the instructions of an operation do is said in
`MiniC.Proofs.Emit.Running`.
-/

set_option autoImplicit false

namespace MiniC.Lower

open Emit
open MiniC.Emitter (Holding Grows Keeps Pending added)
open MiniC.X86 (Machine Layout Memory Exit Runs runAll runAll_cons runAll_single runAll_append Fits Instr)
open Typed (Vocabulary eval memory)

/-- The code of an expression has been run: its value is in a register, and the registers that were
taken before it are as they were. -/
structure Done (e : Emitter) (r : Reg) (v : Int) (mem : Memory) (m m' : Machine) : Prop where
  value : m'.regs r.gpr = BitVec.ofInt 64 v
  mem : m'.mem = mem
  keeps : Keeps e m m'

/-- What was appended between two states computes an expression into a register. -/
def Computes (D : Layout) (t : Typed.Expr) (e : Emitter) (r : Reg) (e' : Emitter) : Prop :=
  ∀ {m v mem}, eval (memory D (m.regs .rbp)) t m.mem = .ok (v, mem) →
    Executes D e e' m (Falls (Done e r v mem m))

/-- Wherever code is generated for an expression, it computes the expression. -/
def Compiled (V : Vocabulary) (D : Layout) (t : Typed.Expr) : Prop :=
  t.WellTyped V → t.isIntegral = true → ∀ {s e r e'}, exec (expr t) s e = (.ok r, e') →
    Computes D t e r e'

/-! ### The register of an expression -/

/-- The register that was taken for an integer expression. -/
structure Held (t : Typed.Expr) (e : Emitter) (r : Reg) (e' : Emitter) : Prop where
  holding : Holding [r.cell] 0 e e'
  view : r.view = t.type.word
  integer : t.type.word.isInteger = true

namespace Held

variable {t : Typed.Expr} {e e' : Emitter} {r : Reg}

theorem takes (h : Held t e r e') : e'.Takes r.cell := h.holding.takes_of_mem (by simp)

theorem isInteger (h : Held t e r e') : r.view.isInteger = true := by
  rw [h.view]
  exact h.integer

theorem ne_float (h : Held t e r e') : r.view ≠ .float := by
  intro hf
  have hi := h.isInteger
  rw [hf] at hi
  cases hi

/-- Its register may be written to: nothing was kept in it. -/
theorem not_guards (h : Held t e r e') : ¬ e.Guards r.gpr :=
  Emitter.not_guards_of_not_takes (h.holding.fresh _ (by simp)) h.takes h.isInteger

theorem guards (h : Held t e r e') : e'.Guards r.gpr :=
  Emitter.guards_of_takes h.takes h.isInteger

end Held

section Types

variable {V : Vocabulary} {t : Typed.Expr} {s : Setting} {e e' : Emitter} {r : Reg}

/-- Without floats and calls, the value of an expression is an integer or an address. -/
theorem isInteger_word (hwt : t.WellTyped V) (hi : t.isIntegral = true) :
    t.type.word.isInteger = true := by
  have hobject : ∀ type : CType, (!type.isFloat) = true → type.word.isInteger = true := by
    intro type htype
    cases type with
    | scalar k => cases k <;> simp_all [CType.isFloat, CType.word, Scalar.isInteger]
    | _ => rfl
  have helement : ∀ element : Scalar,
      ((CType.pointer element).element? != some .float) = true → element.isInteger = true := by
    intro element hne
    cases element <;> simp_all [CType.element?, Scalar.isInteger]
  induction t using Typed.Expr.induct with
  | literal v =>
    rw [Typed.Expr.isIntegral] at hi
    cases v <;> simp_all [Value.integer?] <;> rfl
  | object o => exact hobject _ hi
  | pointee a pointer ih =>
    rw [Typed.Expr.isIntegral, Bool.and_eq_true] at hi
    cases hwt with
    | pointee => exact helement _ hi.2
  | addressOf o type =>
    cases hwt with
    | addressOf => rfl
  | unary op t type ih =>
    rw [Typed.Expr.isIntegral] at hi
    cases hwt with
    | negate he ht =>
      have hoperand := ih he hi
      rwa [word_of_valueType ht] at hoperand
    | invert he ht hs => rcases hs with rfl | rfl <;> rfl
    | not => rfl
  | binary op l r type ihl ihr =>
    rw [Typed.Expr.isIntegral, Bool.and_eq_true] at hi
    cases hwt with
    | arithmetic hop hl hr hlt =>
      have hoperand := ihl hl hi.1
      rwa [word_of_valueType hlt] at hoperand
    | distance => rfl
    | compare => rfl
  | logical => rfl
  | assignObject o v ih =>
    rw [Typed.Expr.isIntegral, Bool.and_eq_true] at hi
    exact hobject _ hi.1
  | assignPointee a pointer v iha ihv =>
    rw [Typed.Expr.isIntegral, Bool.and_eq_true, Bool.and_eq_true] at hi
    cases hwt with
    | assignPointee => exact helement _ hi.1.2
  | step o increment after =>
    cases hwt with
    | step hs ht =>
      show o.type.word.isInteger = true
      cases htype : o.type <;> simp_all [CType.isInteger, CType.isPointer, CType.word]
      rfl
  | call => cases hi
  | convert t source target ih =>
    rw [Typed.Expr.isIntegral, Bool.and_eq_true] at hi
    exact hi.2
  | offset => rfl

theorem held_of_exec (hwt : t.WellTyped V) (hi : t.isIntegral = true)
    (h : exec (expr t) s e = (.ok r, e')) : Held t e r e' := by
  have hok := (lowers V s.pool t (Holding.refl e)).ok_of_exec h
  exact ⟨hok.1, hok.2 hwt, isInteger_word hwt hi⟩

end Types

/-! ### Values in registers -/

namespace Done

variable {t : Typed.Expr} {D : Layout} {e e1 : Emitter} {l r : Reg} {a b v : Int}
  {mem mem1 mem2 : Memory} {m m1 m2 : Machine}

theorem of_into (h : Into m r.gpr (BitVec.ofInt 64 v) m1) (hg : ¬ e.Guards r.gpr) :
    Done e r v m.mem m m1 :=
  ⟨h.result, h.mem, Emitter.keeps_of_into h hg⟩

theorem into (h : Done e l a mem m m1) (hi : Into m1 r.gpr (BitVec.ofInt 64 v) m2)
    (hg : ¬ e.Guards r.gpr) : Done e r v mem m m2 :=
  ⟨hi.result, hi.mem.trans h.mem, h.keeps.trans (Emitter.keeps_of_into hi hg) fun _ hc => hc⟩

theorem past {g : X86.Gpr} {w : BitVec 64} (h : Done e l a mem m m1) (hi : Into m1 g w m2)
    (hne : l.gpr ≠ g) (hg : ¬ e.Guards g) : Done e l a mem m m2 :=
  ⟨(hi.others _ hne l.gpr_not_mem.1).trans h.value, hi.mem.trans h.mem,
    h.keeps.trans (Emitter.keeps_of_into hi hg) fun _ hc => hc⟩

/-- An operand is still in its register after the next one has been computed. -/
theorem after (h : Done e l a mem1 m m1) (hl : Held t e l e1) (h' : Done e1 r b mem2 m1 m2) :
    Done e l a mem2 m m2 :=
  ⟨(h'.keeps _ hl.guards).trans h.value, h'.mem,
    h.keeps.trans h'.keeps fun _ hc => hl.holding.takes_of_takes hc⟩

theorem withMem (h : Done e r v mem m m1) (mem' : Memory) :
    Done e r v mem' m (m1.withMem mem') :=
  ⟨h.value, rfl, h.keeps⟩

theorem eval_eq (h : Done e r v mem m m1) (t : Typed.Expr) :
    eval (memory D (m1.regs .rbp)) t m1.mem = eval (memory D (m.regs .rbp)) t mem := by
  rw [h.keeps.base, h.mem]

end Done

section Forms

variable {V : Vocabulary} {D : Layout} {s : Setting} {e e' : Emitter} {r : Reg} {m : Machine}
  {v : Int} {mem : Memory}

/-- Code that takes a register and computes a value into it. -/
theorem executes_fresh {view : Scalar} {code : Reg → List Instr} {x : Error}
    (hview : view.isInteger = true)
    (h : (match e.fresh? view with
      | some r => (.ok r, (e.take r).emit (code r))
      | none => (.error x, e)) = ((.ok r, e') : Except Error Reg × Emitter))
    (hrun : r.view = view → ¬ e.Guards r.gpr →
      ∃ m', runAll D (code r) m = some m' ∧ Done e r v mem m m') :
    Executes D e e' m (Falls (Done e r v mem m)) := by
  cases hf : e.fresh? view with
  | none =>
    rw [hf] at h
    cases h
  | some x =>
    rw [hf] at h
    cases h
    obtain ⟨hx, hfree, -⟩ := Emitter.of_fresh? hf
    refine .instrs rfl (hrun hx ?_)
    exact Emitter.not_guards_of_not_takes hfree (takes_take_self hf) (hx ▸ hview)

/-- An integer constant is one instruction with the number. -/
theorem loadImmediate_eq {value : Value} {n : Int} (h : Typed.number value = .ok n) :
    ∃ w : Int64, w.toInt = n ∧ loadImmediate value = loadInteger value.type.word w ∧
      value.type.word.isInteger = true := by
  cases value with
  | int w =>
    cases h
    exact ⟨w.toInt64, by simp, rfl, rfl⟩
  | char w =>
    cases h
    have hlt := w.toNat_lt
    exact ⟨Int64.ofNat w.toNat, Int64.toInt_ofNat_of_lt (by omega), rfl, rfl⟩
  | long w =>
    cases h
    exact ⟨w, rfl, rfl, rfl⟩
  | float => cases h
  | str => cases h

theorem compiled_literal (value : Value) : Compiled V D (.literal value) := by
  intro hwt hi s e r e' h m v mem hv
  rw [eval] at hv
  obtain ⟨n, hn, hv1⟩ := Typed.bind_eq_ok hv
  cases hv1
  obtain ⟨w, rfl, hload, hint⟩ := loadImmediate_eq hn
  rw [expr, hload, exec_loadInteger hint] at h
  refine executes_fresh hint h fun _ hg => ?_
  exact ⟨_, runAll_single (run_immediateInstr _ _), .of_into (.set _ _ _) hg⟩

theorem executes_addressOf {o : Symbol} (h : exec (addressOf o) s e = (.ok r, e')) :
    Executes D e e' m (Falls (Done e r (o.locate D (m.regs .rbp)).toInt m.mem m)) := by
  rw [exec_addressOf] at h
  refine executes_fresh rfl h fun hview hg => ?_
  have hreg : r.register = .quad r.gpr := by rw [Reg.register, hview]
  refine ⟨_, ?_, .of_into (.set _ _ _) hg⟩
  rw [hreg, BitVec.ofInt_toInt]
  exact runAll_single (run_lea o r.gpr)

theorem compiled_addressOf (o : Symbol) (type : CType) : Compiled V D (.addressOf o type) := by
  intro hwt hi s e r e' h m v mem hv
  rw [expr] at h
  cases hv
  exact executes_addressOf h

theorem run_loadObject {o : Symbol} (ho : Typed.isWord o.type = true) {n : Int}
    (hn : n = (memory D (m.regs .rbp)).read m.mem o) :
    (loadInstr o.type (place o) r).run D m = some (m.set r.gpr (BitVec.ofInt 64 n)) := by
  rw [hn]
  exact run_loadInstr ho (address_place o)

theorem compiled_object (o : Symbol) : Compiled V D (.load (.object o)) := by
  intro hwt hi s e r e' h m v mem hv
  rw [eval] at hv
  rw [expr] at h
  by_cases harray : o.type.isArray = true
  · rw [if_pos harray] at hv
    cases hv
    rw [loadSymbol, if_pos harray] at h
    exact executes_addressOf h
  · rw [if_neg harray] at hv
    split at hv
    · rename_i hword
      cases hv
      have hint : o.type.word.isInteger = true := isInteger_word hwt hi
      cases hwt with
      | object hs ht =>
        rw [exec_loadSymbol ht (by simpa using harray)] at h
        refine executes_fresh hint h fun _ hg => ⟨_, ?_, .of_into (.set _ _ _) hg⟩
        exact runAll_single (run_loadObject hword rfl)
    · cases hv

theorem compiled_pointee {a : Typed.Expr} (pointer : CType) (ih : Compiled V D a) :
    Compiled V D (.load (.pointee a pointer)) := by
  intro hwt hi s e r e' h m v mem hv
  rw [Typed.Expr.isIntegral, Bool.and_eq_true] at hi
  rw [expr] at h
  obtain ⟨x, e1, h1, h2⟩ := exec_bind_eq_ok h
  rw [eval] at hv
  obtain ⟨⟨p, mem1⟩, hp, hv1⟩ := Typed.bind_eq_ok hv
  cases hwt with
  | pointee ha ht =>
    rename_i element
    have hheld := held_of_exec ha hi.1 h1
    have hne : element ≠ .float := by
      rintro rfl
      exact absurd hi.2 (by decide)
    have hlong : x.view = .long := hheld.view.trans (word_of_valueType ht)
    rw [exec_dereference hheld.takes rfl hlong hne] at h2
    cases h2
    obtain ⟨n, hn, hv2⟩ := Typed.bind_eq_ok hv1
    cases hv2
    have hint : element.isInteger = true := isInteger_of_ne_float hne
    simp only [memory, hint, if_true] at hn
    cases hn
    refine (ih ha hi.1 h1 hp).thenInstrs hheld.holding.grows rfl rfl fun m1 hd => ?_
    refine ⟨_, ?_, hd.into (.set _ _ _) hheld.not_guards⟩
    have haddress : m1.address D (.indirect x.gpr) = some (BitVec.ofInt 64 p) := by
      rw [Machine.address, hd.value]
    have hload := run_loadInstr (D := D) (r := x) (t := .scalar element) hint haddress
    rw [hd.mem] at hload
    exact runAll_single hload

theorem compiled_unary (op : UnaryOp) {t : Typed.Expr} (type : CType) (ih : Compiled V D t) :
    Compiled V D (.unary op t type) := by
  intro hwt hi s e r e' h m v mem hv
  rw [Typed.Expr.isIntegral] at hi
  rw [eval] at hv
  obtain ⟨⟨a, mem1⟩, ha, hv1⟩ := Typed.bind_eq_ok hv
  obtain ⟨n, hn, hv2⟩ := Typed.bind_eq_ok hv1
  cases hv2
  -- every operator with a type is computed by an operation on the register of its operand
  have hop : ∃ o, op.value? = some o ∧ t.WellTyped V := by
    cases hwt with
    | negate he => exact ⟨_, rfl, he⟩
    | invert he => exact ⟨_, rfl, he⟩
    | not he => exact ⟨_, rfl, he⟩
  obtain ⟨o, ho, he⟩ := hop
  rw [expr, ho] at h
  obtain ⟨x, e1, h1, h2⟩ := exec_bind_eq_ok h
  have hheld := held_of_exec he hi h1
  have hfits : Fits a := Scalar.wrap_long_of_wrap hheld.integer (Typed.wrap_of_eval he ha)
  cases hwt with
  | negate _ ht =>
    cases ho
    cases hn
    rw [exec_negate hheld.takes hheld.ne_float] at h2
    cases h2
    have hword := word_of_valueType ht
    refine (ih he hi h1 ha).thenInstrs hheld.holding.grows rfl rfl fun m1 hd => ?_
    obtain ⟨m2, hrun, hinto⟩ := run_negate (D := D) (hheld.view.trans hword)
      (hword ▸ hheld.integer) hd.value
    exact ⟨m2, hrun, hd.into hinto hheld.not_guards⟩
  | invert _ ht =>
    cases ho
    cases hn
    rw [exec_invert hheld.takes, if_neg hheld.ne_float] at h2
    cases h2
    have hword := word_of_valueType ht
    refine (ih he hi h1 ha).thenInstrs hheld.holding.grows rfl rfl fun m1 hd => ?_
    obtain ⟨m2, hrun, hinto⟩ := run_invert (D := D) (hheld.view.trans hword)
      (hword ▸ hheld.integer) hd.value
    exact ⟨m2, hrun, hd.into hinto hheld.not_guards⟩
  | not =>
    cases ho
    cases hn
    rw [exec_not hheld.takes hheld.ne_float] at h2
    cases h2
    refine (ih he hi h1 ha).thenInstrs hheld.holding.grows rfl rfl fun m1 hd => ?_
    obtain ⟨m2, hrun, hinto⟩ := run_isZero (D := D) hfits hd.value
    exact ⟨m2, hrun, hd.into hinto hheld.not_guards⟩

/-- Two operands one after the other: the left one is still in its register at the end. -/
theorem executes_operands {tl tr : Typed.Expr} {l : Reg} {e1 e2 : Emitter} {a b : Int}
    {mem1 mem2 : Memory} (hl : Held tl e l e1) (hr : Held tr e1 r e2)
    (hcl : Computes D tl e l e1) (hcr : Computes D tr e1 r e2)
    (ha : eval (memory D (m.regs .rbp)) tl m.mem = .ok (a, mem1))
    (hb : eval (memory D (m.regs .rbp)) tr mem1 = .ok (b, mem2)) :
    Executes D e e2 m (Falls fun m2 => Done e l a mem2 m m2 ∧
      m2.regs r.gpr = BitVec.ofInt 64 b) := by
  refine (hcl ha).andThen hl.holding.grows hr.holding.grows fun m1 hd => ?_
  refine (hcr ((hd.eval_eq tr).trans hb)).mono ?_
  rintro x m2 ⟨rfl, hd'⟩
  exact ⟨rfl, hd.after hl hd', hd'.value⟩

theorem cell_ne_of_held {tl tr : Typed.Expr} {l : Reg} {e1 e2 : Emitter} (hl : Held tl e l e1)
    (hr : Held tr e1 r e2) : l.cell ≠ r.cell := by
  intro heq
  exact hr.holding.fresh r.cell (by simp) (heq ▸ hl.takes)

theorem gpr_ne_of_held {tl tr : Typed.Expr} {l : Reg} {e1 e2 : Emitter} (hl : Held tl e l e1)
    (hr : Held tr e1 r e2) : l.gpr ≠ r.gpr := by
  intro heq
  exact hr.not_guards (heq ▸ hl.guards)

/-- A register that is free after some code was free before it. -/
theorem not_guards_of_grown {e1 : Emitter} {cs : List Cell} {n : Nat} (h : Holding cs n e e1)
    {g : X86.Gpr} (hg : ¬ e1.Guards g) : ¬ e.Guards g :=
  fun hguards => hg (hguards.mono fun _ hc => h.takes_of_takes hc)

theorem compiled_binary (op : BinaryOp) {tl tr : Typed.Expr} (type : CType)
    (ihl : Compiled V D tl) (ihr : Compiled V D tr) : Compiled V D (.binary op tl tr type) := by
  intro hwt hi s e r e' h m v mem hv
  rw [Typed.Expr.isIntegral, Bool.and_eq_true] at hi
  rw [expr] at h
  obtain ⟨l, e1, h1, h1'⟩ := exec_bind_eq_ok h
  obtain ⟨x, e2, h2, h3⟩ := exec_bind_eq_ok h1'
  rw [eval] at hv
  obtain ⟨⟨a, mem1⟩, ha, hv1⟩ := Typed.bind_eq_ok hv
  obtain ⟨⟨b, mem2⟩, hb, hv2⟩ := Typed.bind_eq_ok hv1
  obtain ⟨n, hn, hv3⟩ := Typed.bind_eq_ok hv2
  cases hv3
  obtain ⟨hlwt, hrwt, -, -, hsame, -, hword⟩ := of_wellTyped_binary hwt
  have hl := held_of_exec hlwt hi.1 h1
  have hr := held_of_exec hrwt hi.2 h2
  have hboth := executes_operands hl hr (ihl hlwt hi.1 h1) (ihr hrwt hi.2 h2) ha hb
  have hgrows := hl.holding.grows.trans hr.holding.grows
  have hlt : e2.Takes l.cell := hr.holding.takes_of_takes hl.takes
  have hviews : l.view = x.view := by rw [hl.view, hr.view, hsame]
  have harange := Typed.wrap_of_eval hlwt ha
  have hbrange := Typed.wrap_of_eval hrwt hb
  unfold combine at h3
  unfold Typed.combine at hn
  cases hrel : op.relation? with
  | none =>
    rw [hrel] at h3 hn
    have htype : type.word = tl.type.word := by rw [hword, combineView, hrel]; rfl
    cases harith : op.arith? with
    | none =>
      rw [harith] at hn
      cases hn
    | some o =>
      rw [harith] at h3 hn
      simp only at h3 hn
      rw [exec_binary hlt hr.takes, if_pos hviews, if_neg hl.ne_float] at h3
      cases h3
      refine hboth.thenInstrs hgrows rfl rfl fun m2 hm2 => ?_
      obtain ⟨hd, hbreg⟩ := hm2
      have harange' : type.wrap a = a := by rwa [CType.wrap, htype]
      have hbrange' : type.wrap b = b := by rwa [CType.wrap, htype, hsame]
      obtain ⟨m3, hrun, hinto⟩ := run_arith (D := D) (hl.view.trans htype.symm)
        (htype ▸ hl.integer) harange' hbrange' hn hd.value hbreg
      exact ⟨m3, hrun, hd.into hinto hl.not_guards⟩
  | some relation =>
    rw [hrel] at h3 hn
    cases hn
    have hfa : Fits a := Scalar.wrap_long_of_wrap hl.integer harange
    have hfb : Fits b := Scalar.wrap_long_of_wrap hr.integer hbrange
    -- whichever register the outcome is put into
    have hcompare : ∀ y : Reg, ¬ e.Guards y.gpr → ∀ m2 : Machine,
        Done e l a mem m m2 ∧ m2.regs x.gpr = BitVec.ofInt 64 b →
        ∃ m3, runAll D (compareInstr l x :: setCode (Emit.condition relation) y) m2 = some m3 ∧
          Done e y (Typed.truth (relation.holds a b)) mem m m3 := by
      rintro y hy m2 ⟨hd, hbreg⟩
      obtain ⟨m3, hrun, hinto⟩ := run_relation (D := D) relation y hfa hfb hd.value hbreg
      exact ⟨m3, hrun, hd.into hinto hy⟩
    by_cases hlong : l.view = .long
    · simp only at h3
      rw [exec_compare_long hlt hr.takes hviews hlong] at h3
      cases h3
      exact hboth.thenInstrs hgrows rfl rfl
        (hcompare _ (not_guards_of_grown hl.holding hr.not_guards))
    · simp only at h3
      rw [exec_compare_narrow hlt hr.takes (cell_ne_of_held hl hr) hviews hl.ne_float hlong] at h3
      cases hf : e2.fresh? .long with
      | none =>
        rw [hf] at h3
        cases h3
      | some y =>
        rw [hf] at h3
        cases h3
        obtain ⟨hy, hfree, -⟩ := Emitter.of_fresh? hf
        have hguards := Emitter.not_guards_of_not_takes hfree (takes_take_self hf) (by rw [hy]; rfl)
        refine hboth.thenInstrs hgrows ?_ rfl
          (hcompare r (not_guards_of_grown (hl.holding.trans hr.holding) hguards))
        simp

/-- An object that is one value is as large as a register holds it. -/
theorem size_word {type : CType} (hv : type.isVoid = false) (ha : type.isArray = false) :
    type.word.size = type.size := by
  cases type with
  | void => cases hv
  | array => cases ha
  | _ => rfl

theorem compiled_assignObject (o : Symbol) {t : Typed.Expr} (ih : Compiled V D t) :
    Compiled V D (.assign (.object o) t) := by
  intro hwt hi s e r e' h m v mem hv
  rw [Typed.Expr.isIntegral, Bool.and_eq_true] at hi
  rw [expr] at h
  obtain ⟨x, e1, h1, h2⟩ := exec_bind_eq_ok h
  rw [eval] at hv
  obtain ⟨⟨n, mem1⟩, hn, hv1⟩ := Typed.bind_eq_ok hv
  cases hv1
  cases hwt with
  | assignObject hs ha hvwt ht =>
    obtain ⟨hword, -, hvoid⟩ := word_of_fits ht
    have hheld := held_of_exec hvwt hi.2 h1
    have hview : x.view = o.type.word := hheld.view.trans hword
    obtain ⟨_, e2, h3, h4⟩ := exec_bind_eq_ok h2
    rw [storeSymbol, exec_storeTo hheld.takes hvoid ha, if_pos hview] at h3
    cases h3
    cases h4
    refine (ih hvwt hi.2 h1 hn).thenInstrs hheld.holding.grows rfl rfl fun m1 hd => ?_
    refine ⟨_, runAll_single (run_storeInstr hheld.isInteger (address_place o)), ?_⟩
    rw [hview, size_word hvoid ha, hd.keeps.base, hd.mem, hd.value]
    exact hd.withMem _

theorem compiled_assignPointee {ta tv : Typed.Expr} (pointer : CType) (iha : Compiled V D ta)
    (ihv : Compiled V D tv) : Compiled V D (.assign (.pointee ta pointer) tv) := by
  intro hwt hi s e r e' h m v mem hv
  rw [Typed.Expr.isIntegral, Bool.and_eq_true, Bool.and_eq_true] at hi
  rw [expr] at h
  -- the value is computed before the address
  obtain ⟨x, e1, h1, h1'⟩ := exec_bind_eq_ok h
  obtain ⟨y, e2, h2, h3⟩ := exec_bind_eq_ok h1'
  rw [eval] at hv
  obtain ⟨⟨n, mem1⟩, hn, hv1⟩ := Typed.bind_eq_ok hv
  obtain ⟨⟨p, mem2⟩, hp, hv2⟩ := Typed.bind_eq_ok hv1
  cases hwt with
  | assignPointee hawt hat hvwt hvt =>
    rename_i element
    obtain ⟨mem3, hmem, hv3⟩ := Typed.bind_eq_ok hv2
    cases hv3
    have hx := held_of_exec hvwt hi.2 h1
    have hy := held_of_exec hawt hi.1.1 h2
    have hview : x.view = element := hx.view.trans (word_of_valueType hvt)
    have hlong : y.view = .long := hy.view.trans (word_of_valueType hat)
    have hint : element.isInteger = true := hview ▸ hx.isInteger
    simp only [memory, hint, if_true] at hmem
    cases hmem
    obtain ⟨_, e3, h4, h5⟩ := exec_bind_eq_ok h3
    rw [exec_storeIndirect (hy.holding.takes_of_takes hx.takes) hy.takes rfl, if_pos hlong,
      if_pos hview] at h4
    cases h4
    cases h5
    refine (executes_operands hx hy (ihv hvwt hi.2 h1) (iha hawt hi.1.1 h2) hn hp).thenInstrs
      (hx.holding.grows.trans hy.holding.grows) rfl rfl fun m2 hm2 => ?_
    obtain ⟨hd, hpreg⟩ := hm2
    have haddress : m2.address D (.indirect y.gpr) = some (BitVec.ofInt 64 p) := by
      rw [Machine.address, hpreg]
    refine ⟨_, runAll_single (run_storeInstr hx.isInteger haddress), ?_⟩
    rw [hview, hd.mem, hd.value]
    exact hd.withMem _

theorem wrap_of_wider {source target : Scalar} (hs : source.isInteger = true)
    (ht : target.isInteger = true) (h : ¬ target.size < source.size) {n : Int}
    (hn : source.wrap n = n) : target.wrap n = n := by
  cases target with
  | long => exact Scalar.wrap_long_of_wrap hs hn
  | int =>
    cases source with
    | char =>
      have hchar : n % 2 ^ 8 = n := hn
      exact Int.bmod_eq_of_le (by omega) (by omega)
    | int => exact hn
    | long => exact absurd (by decide) h
    | float => cases hs
  | char =>
    cases source with
    | char => exact hn
    | int => exact absurd (by decide) h
    | long => exact absurd (by decide) h
    | float => cases hs
  | float => cases ht

theorem compiled_convert {t : Typed.Expr} (source target : Scalar) (ih : Compiled V D t) :
    Compiled V D (.convert t source target) := by
  intro hwt hi s e r e' h m v mem hv
  rw [Typed.Expr.isIntegral, Bool.and_eq_true, Bool.and_eq_true] at hi
  obtain ⟨⟨hit, hsource⟩, htarget⟩ := hi
  rw [expr] at h
  obtain ⟨x, e1, h1, h2⟩ := exec_bind_eq_ok h
  rw [eval] at hv
  obtain ⟨⟨n, mem1⟩, hn, hv1⟩ := Typed.bind_eq_ok hv
  simp only [hsource, htarget, Bool.and_self, if_true] at hv1
  cases hv1
  cases hwt with
  | convert he ht hne =>
    have hheld := held_of_exec he hit h1
    have hview : x.view = source := by rw [hheld.view, ht]; rfl
    have hrange : source.wrap n = n := by
      have hwrap := Typed.wrap_of_eval he hn
      rwa [ht] at hwrap
    rw [exec_convert_integer hheld.takes hview hsource htarget hne] at h2
    cases h2
    refine (ih he hit h1 hn).thenInstrs hheld.holding.grows rfl rfl fun m1 hd => ?_
    by_cases hsize : target.size < source.size
    · rw [if_pos hsize]
      obtain ⟨m2, hrun, hinto⟩ := run_normalizeCode (D := D) (r := ⟨target, x.slot⟩) htarget hd.value
      exact ⟨m2, hrun, hd.into hinto hheld.not_guards⟩
    · rw [if_neg hsize, wrap_of_wider hsource htarget hsize hrange]
      exact ⟨m1, rfl, hd.value, hd.mem, hd.keeps⟩

theorem compiled_offset {tp tc : Typed.Expr} (element : Scalar) (subtract : Bool)
    (ihp : Compiled V D tp) (ihc : Compiled V D tc) :
    Compiled V D (.offset tp tc element subtract) := by
  intro hwt hi s e r e' h m v mem hv
  rw [Typed.Expr.isIntegral, Bool.and_eq_true] at hi
  rw [expr] at h
  obtain ⟨x, e1, h1, h1'⟩ := exec_bind_eq_ok h
  obtain ⟨y, e2, h2, h2'⟩ := exec_bind_eq_ok h1'
  rw [eval] at hv
  obtain ⟨⟨a, mem1⟩, ha, hv1⟩ := Typed.bind_eq_ok hv
  obtain ⟨⟨n, mem2⟩, hn, hv2⟩ := Typed.bind_eq_ok hv1
  cases hv2
  cases hwt with
  | offset hpwt hcwt hpt hct =>
    have hx := held_of_exec hpwt hi.1 h1
    have hy := held_of_exec hcwt hi.2 h2
    have hxlong : x.view = .long := hx.view.trans (word_of_valueType hpt)
    have hylong : y.view = .long := by rw [hy.view, hct]; rfl
    have hxt : e2.Takes x.cell := hy.holding.takes_of_takes hx.takes
    have hboth := executes_operands hx hy (ihp hpwt hi.1 h1) (ihc hcwt hi.2 h2) ha hn
    have hgrows := hx.holding.grows.trans hy.holding.grows
    cases subtract with
    | false =>
      simp only [Bool.false_eq_true, if_false, exec_bind, exec_pure] at h2' ⊢
      rw [exec_elementAddress hxt hy.takes, if_pos hxlong, if_pos hylong] at h2'
      cases h2'
      refine hboth.thenInstrs hgrows rfl rfl fun m2 hm2 => ?_
      obtain ⟨hd, hnreg⟩ := hm2
      exact ⟨_, runAll_single (run_elementAddress hd.value hnreg element.size),
        hd.into (.set _ _ _) hx.not_guards⟩
    | true =>
      simp only [if_true, exec_bind, exec_negate hy.takes hy.ne_float] at h2' ⊢
      rw [exec_elementAddress (by simpa using hxt) (by simpa using hy.takes), if_pos hxlong,
        if_pos hylong] at h2'
      cases h2'
      have htext : (((e2.emit (.neg .quad (.quad y.gpr) :: normalizeCode y)).emit
          [.lea (.mem (.indexed r.gpr y.gpr element.size)) (.quad r.gpr)]).release y).text =
          (e2.emit ((.neg .quad (.quad y.gpr) :: normalizeCode y) ++
            [.lea (.mem (.indexed r.gpr y.gpr element.size)) (.quad r.gpr)])).text := by
        simp
      refine hboth.thenInstrs hgrows htext rfl fun m2 hm2 => ?_
      obtain ⟨hd, hnreg⟩ := hm2
      obtain ⟨m3, hrun, hinto⟩ := run_negate (D := D) (show y.view = CType.long.word from hylong)
        rfl hnreg
      have hd' : Done e r a mem m m3 := hd.past hinto (gpr_ne_of_held hx hy)
        (not_guards_of_grown hx.holding hy.not_guards)
      have hnreg' : m3.regs y.gpr = BitVec.ofInt 64 (-n) := by
        rw [hinto.result, CType.wrap]
        exact X86.ofInt_wrap_long _
      have hsub : a - element.size * n = a + element.size * -n := by
        rw [Int.mul_neg, Int.sub_eq_add_neg]
      rw [hsub]
      refine ⟨_, ?_, hd'.into (.set _ _ _) hx.not_guards⟩
      rw [runAll_append hrun]
      exact runAll_single (run_elementAddress hd'.value hnreg' element.size)

theorem stepAmount?_eq {type : CType} (h : type.isInteger = true ∨ type.isPointer = true) :
    ∃ amount, stepAmount? type = some amount ∧ Typed.stride type = amount := by
  cases type with
  | scalar k =>
    have hk : k.isInteger = true := by simpa [CType.isInteger, CType.isPointer] using h
    exact ⟨1, by simp [stepAmount?, hk], rfl⟩
  | pointer element => exact ⟨element.size, rfl, rfl⟩
  | _ => simp [CType.isInteger, CType.isPointer] at h

/-- Counting a register that holds an object's value, and storing it. -/
theorem run_countStore {o : Symbol} {amount : Nat} (ho : stepAmount? o.type = some amount)
    (hview : r.view = o.type.word) {n : Int} (hn : m.regs r.gpr = BitVec.ofInt 64 n)
    (increment : Bool) :
    let new := o.type.wrap (if increment then n + amount else n - amount)
    ∃ m1, Into m r.gpr (BitVec.ofInt 64 new) m1 ∧
      runAll D ((stepInstr increment amount r :: normalizeCode r) ++ [storeInstr r (place o)]) m =
        some (m1.withMem ((memory D (m.regs .rbp)).write m.mem o new)) := by
  obtain ⟨hvoid, harray, hint⟩ := of_stepAmount? ho
  obtain ⟨m1, hrun, hinto⟩ := run_count (D := D) hview hint hn increment amount
  refine ⟨m1, hinto, ?_⟩
  have hbase : m1.regs .rbp = m.regs .rbp :=
    hinto.others _ r.gpr_not_mem.2.1.symm (by decide)
  have hstore := run_storeInstr (D := D) (m := m1) (r := r) (hview ▸ hint) (address_place o)
  rw [hview, size_word hvoid harray, hbase, hinto.mem, hinto.result] at hstore
  rw [runAll_append hrun]
  exact runAll_single hstore

/-- Counting an object up or down before its value is taken. -/
theorem executes_stepBefore {o : Symbol} {amount : Nat} {increment : Bool} {old new : Int}
    (hword : Typed.isWord o.type = true) (ho : stepAmount? o.type = some amount)
    (hold : old = (memory D (m.regs .rbp)).read m.mem o)
    (hnew : new = o.type.wrap (if increment then old + amount else old - amount))
    (h : exec (step o increment false) s e = (.ok r, e')) :
    Executes D e e' m (Falls (Done e r new ((memory D (m.regs .rbp)).write m.mem o new) m)) := by
  obtain ⟨-, -, hint⟩ := of_stepAmount? ho
  rw [exec_step_before ho] at h
  refine executes_fresh hint h fun hview hg => ?_
  have hload := run_loadObject (r := r) hword hold
  have hd : Done e r old m.mem m (m.set r.gpr (BitVec.ofInt 64 old)) := .of_into (.set ..) hg
  obtain ⟨m1, hinto, hrun⟩ := run_countStore (D := D) ho hview hd.value increment
  rw [hd.keeps.base, hd.mem, ← hnew] at hrun
  rw [← hnew] at hinto
  exact ⟨_, (runAll_cons hload).trans hrun, (hd.into hinto hg).withMem _⟩

/-- Counting an object after its value is taken: a copy is counted in a second register. -/
theorem executes_stepAfter {o : Symbol} {amount : Nat} {increment : Bool} {old new : Int}
    (hword : Typed.isWord o.type = true) (ho : stepAmount? o.type = some amount)
    (hold : old = (memory D (m.regs .rbp)).read m.mem o)
    (hnew : new = o.type.wrap (if increment then old + amount else old - amount))
    (h : exec (step o increment true) s e = (.ok r, e')) :
    Executes D e e' m (Falls (Done e r old ((memory D (m.regs .rbp)).write m.mem o new) m)) := by
  obtain ⟨-, -, hint⟩ := of_stepAmount? ho
  rw [exec_step_after ho] at h
  cases hf : e.fresh? o.type.word with
  | none =>
    rw [hf] at h
    cases h
  | some x =>
    cases hf' : (e.take x).fresh? o.type.word with
    | none =>
      simp only [hf, hf'] at h
      cases h
    | some y =>
      simp only [hf, hf'] at h
      cases h
      obtain ⟨hx, hfree, -⟩ := Emitter.of_fresh? hf
      obtain ⟨hy, hfree', -⟩ := Emitter.of_fresh? hf'
      have hg : ¬ e.Guards r.gpr :=
        Emitter.not_guards_of_not_takes hfree (takes_take_self hf) (hx ▸ hint)
      have hg' : ¬ (e.take r).Guards y.gpr :=
        Emitter.not_guards_of_not_takes hfree' (takes_take_self hf') (hy ▸ hint)
      have hne : r.gpr ≠ y.gpr := fun heq =>
        hg' (heq ▸ Emitter.guards_of_takes (takes_take_self hf) (hx ▸ hint))
      have hgy : ¬ e.Guards y.gpr := fun hguards =>
        hg' (hguards.mono fun _ hc => (Emitter.takes_take hf _).mpr (.inr hc))
      -- the value stays in its register while the copy is made, counted and stored
      have hload := run_loadObject (r := r) hword hold
      have hd : Done e r old m.mem m (m.set r.gpr (BitVec.ofInt 64 old)) := .of_into (.set ..) hg
      have hcopy : Done e r old m.mem m
          ((m.set r.gpr (BitVec.ofInt 64 old)).set y.gpr (BitVec.ofInt 64 old)) :=
        hd.past (.set _ y.gpr (BitVec.ofInt 64 old)) hne hgy
      obtain ⟨m1, hinto, hrun⟩ := run_countStore (D := D) ho hy
        (Into.set _ y.gpr (BitVec.ofInt 64 old)).result increment
      rw [hcopy.keeps.base, hcopy.mem, ← hnew] at hrun
      have hall : runAll D (loadInstr o.type (place o) r ::
          .mov .quad (.quad r.gpr) (.quad y.gpr) ::
          ((stepInstr increment amount y :: normalizeCode y) ++ [storeInstr y (place o)])) m =
          some (m1.withMem ((memory D (m.regs .rbp)).write m.mem o new)) := by
        rw [runAll_cons hload, runAll_cons (run_mov_quad _ _), Machine.set_regs,
          Function.update_self, hrun]
      refine .instrs ?_ ⟨_, hall, (hcopy.past hinto hne hgy).withMem _⟩
      simp

theorem compiled_step (o : Symbol) (increment after : Bool) :
    Compiled V D (.step o increment after) := by
  intro hwt hi s e r e' h m v mem hv
  rw [expr] at h
  rw [eval] at hv
  split at hv
  · rename_i hword
    cases hwt with
    | step hs ht =>
      obtain ⟨amount, ho, hstride⟩ := stepAmount?_eq ht
      rw [hstride] at hv
      cases after with
      | false =>
        cases hv
        exact executes_stepBefore hword ho rfl rfl h
      | true =>
        cases hv
        exact executes_stepAfter hword ho rfl rfl h
  · cases hv

end Forms

/-! ### Logical operators -/

/-- Code has been run that leaves no value in a register. -/
structure Passed (e : Emitter) (mem : Memory) (m m' : Machine) : Prop where
  mem : m'.mem = mem
  keeps : Keeps e m m'

section Passed

variable {e e1 : Emitter} {r : Reg} {v : Int} {mem mem1 : Memory} {m m1 m2 : Machine}

theorem Done.passed (h : Done e r v mem m m1) (hregs : m2.regs = m1.regs)
    (hmem : m2.mem = m1.mem) : Passed e mem m m2 :=
  ⟨hmem.trans h.mem, fun g hg => (congrFun hregs g).trans (h.keeps g hg)⟩

theorem Passed.trans (h : Passed e mem1 m m1) (h' : Passed e1 mem m1 m2)
    (htakes : ∀ c, e.Takes c → e1.Takes c) : Passed e mem m m2 :=
  ⟨h'.mem, h.keeps.trans h'.keeps htakes⟩

theorem Passed.done (h : Passed e mem m m1) (h' : Done e1 r v m1.mem m1 m2)
    (htakes : ∀ c, e.Takes c → e1.Takes c) : Done e r v mem m m2 :=
  ⟨h'.value, h'.mem.trans h.mem, h.keeps.trans h'.keeps htakes⟩

theorem Passed.eval_eq {D : Layout} (h : Passed e mem m m1) (t : Typed.Expr) :
    eval (memory D (m1.regs .rbp)) t m1.mem = eval (memory D (m.regs .rbp)) t mem := by
  rw [h.keeps.base, h.mem]

end Passed

section Logical

variable {V : Vocabulary} {D : Layout} {s : Setting} {e e1 e' : Emitter} {r : Reg} {m : Machine}
  {t : Typed.Expr}

/-- An expression that is compared with zero decides a jump. -/
theorem compiled_test {relation : Relation} {target : String} (ih : Compiled V D t)
    (hwt : t.WellTyped V) (hi : t.isIntegral = true) (hrel : relation = .eq ∨ relation = .ne)
    (h : exec (expr t) s e = (.ok r, e1))
    (h' : exec (testAndJump relation r target) s e1 = (.ok (), e')) :
    Holding [] 0 e e' ∧ ∀ {m a mem}, eval (memory D (m.regs .rbp)) t m.mem = .ok (a, mem) →
      Executes D e e' m (Turns (relation.holds a 0) target (Passed e mem m)) := by
  have hheld := held_of_exec hwt hi h
  refine ⟨(testAndJump_outcome hheld.holding relation target True).ok_of_exec h', ?_⟩
  intro m a mem ha
  have hfits : Fits a := Scalar.wrap_long_of_wrap hheld.integer (Typed.wrap_of_eval hwt ha)
  have hgrows : Grows e1 e' := by
    rw [exec_testAndJump hheld.takes hheld.ne_float] at h'
    cases h'
    exact (((Grows.refl e1).emit _).release r).emit _
  refine (ih hwt hi h ha).andThen hheld.holding.grows hgrows fun m1 hd => ?_
  refine (executes_testAndJump hrel hheld.takes hheld.ne_float h' hfits hd.value).mono ?_
  rintro x m2 ⟨rfl, hregs, hmem⟩
  exact ⟨rfl, hd.passed hregs hmem⟩

/-- The end of a logical operator: a jump to `short` is followed by the value of a decided outcome. -/
theorem executes_shortTail {short stop : String} {value : Int64} {P P0 : Machine → Prop}
    (h : Executes D e e1 m fun x m' => x = .next ∧ P m' ∨ x = .jump short ∧ P0 m')
    (hshort : Pending e e1 short) (hstop : Pending e e1 stop) (hne : short ≠ stop)
    (hset : ∀ m', P0 m' → P (m'.set r.gpr (BitVec.ofInt 64 value.toInt))) :
    Executes D e (e1.append (shortTail short stop value r)) m (Falls P) := by
  have hcode : e1.append (shortTail short stop value r) =
      (((e1.emit [.jmp stop]).append [.label short]).emit [immediateInstr value r.gpr]).append
        [.label stop] := by
    simp [shortTail, Emitter.emit]
  have hgrows : Grows e1 (e1.emit [.jmp stop]) := .of_emit rfl rfl
  have hjump : Executes D e (e1.emit [.jmp stop]) m fun x m' =>
      x = .jump stop ∧ P m' ∨ x = .jump short ∧ P0 m' := by
    refine h.thenJump hshort.grows ?_ ?_
    · rintro m' (⟨-, hP⟩ | ⟨hx, -⟩)
      · exact .inl ⟨rfl, hP⟩
      · cases hx
    · rintro l m' (⟨hx, -⟩ | hQ)
      · cases hx
      · exact .inr hQ
  have hland : Executes D e ((e1.emit [.jmp stop]).append [.label short]) m fun x m' =>
      x = .jump stop ∧ P m' ∨ x = .next ∧ P0 m' := by
    refine hjump.upTo (hshort.step hgrows) ?_ ?_ ?_
    · rintro m' (⟨hx, -⟩ | ⟨hx, -⟩) <;> cases hx
    · rintro m' (⟨hx, -⟩ | ⟨-, hP⟩)
      · cases hx
        exact absurd rfl hne
      · exact .inr ⟨rfl, hP⟩
    · rintro l m' hl (hQ | ⟨hx, -⟩)
      · exact .inl hQ
      · cases hx
        exact absurd rfl hl
  have hstop' := (hstop.step hgrows).label (hshort.step hgrows) (Ne.symm hne)
  have hvalue : Executes D e (((e1.emit [.jmp stop]).append [.label short]).emit
      [immediateInstr value r.gpr]) m fun x m' => x = .jump stop ∧ P m' ∨ x = .next ∧ P m' := by
    refine hland.trans hstop'.grows (.of_emit rfl rfl) ?_ ?_
    · rintro m' (⟨hx, -⟩ | ⟨-, hP⟩)
      · cases hx
      · refine (Executes.instrs rfl ⟨_, runAll_single (run_immediateInstr value r.gpr), hset m' hP⟩).mono ?_
        exact fun x m'' hQ => .inr hQ
    · rintro l m' (hQ | ⟨hx, -⟩)
      · exact .inl hQ
      · cases hx
  rw [hcode]
  refine hvalue.upTo (hstop'.step (.of_emit rfl rfl)) ?_ ?_ ?_
  · rintro m' (⟨hx, -⟩ | ⟨-, hP⟩)
    · cases hx
    · exact ⟨rfl, hP⟩
  · rintro m' (⟨-, hP⟩ | ⟨hx, -⟩)
    · exact ⟨rfl, hP⟩
    · cases hx
  · rintro l m' hl (⟨hx, -⟩ | ⟨hx, -⟩)
    · cases hx
      exact absurd rfl hl
    · cases hx

theorem of_shortCircuit? {op : BinaryOp} {c : ShortCircuit} (h : shortCircuit? op = some c) :
    ∃ b, Typed.decisive? op = some b ∧ (c.test = .eq ∨ c.test = .ne) ∧
      (∀ a, c.test.holds a 0 = ((a != 0) == b)) ∧ c.value.toInt = Typed.truth b ∧
      (1 - c.value).toInt = Typed.truth (!b) := by
  cases op <;> cases h
  · refine ⟨false, rfl, .inl rfl, fun a => ?_, by decide, by decide⟩
    simp [Relation.holds, bne]
  · refine ⟨true, rfl, .inr rfl, fun a => ?_, by decide, by decide⟩
    simp [Relation.holds]

/-- The operands of a logical operator, up to where an outcome that neither decided is loaded. -/
theorem executes_undecided {tl tr : Typed.Expr} {b : Bool} {target : String} {e2 e3 : Emitter}
    {v : Int} {mem : Memory}
    (hl : ∀ {m a mem}, eval (memory D (m.regs .rbp)) tl m.mem = .ok (a, mem) →
      Executes D e e1 m (Turns ((a != 0) == b) target (Passed e mem m)))
    (hr : ∀ {m a mem}, eval (memory D (m.regs .rbp)) tr m.mem = .ok (a, mem) →
      Executes D e1 e2 m (Turns ((a != 0) == b) target (Passed e1 mem m)))
    (hload : ∀ {m}, Executes D e2 e3 m (Falls (Done e2 r (Typed.truth !b) m.mem m)))
    (h1 : Holding [] 0 e e1) (h2 : Holding [] 0 e1 e2) (h3 : Grows e2 e3)
    (hv : (do
      let (a, mem1) ← eval (memory D (m.regs .rbp)) tl m.mem
      if (a != 0) = b then return (Typed.truth b, mem1)
      else
        let (a', mem2) ← eval (memory D (m.regs .rbp)) tr mem1
        return (Typed.truth (a' != 0), mem2)) = .ok (v, mem)) :
    Executes D e e3 m fun x m' => x = .next ∧ Done e r v mem m m' ∨
      x = .jump target ∧ v = Typed.truth b ∧ Passed e mem m m' := by
  have htakes : ∀ c, e.Takes c → e1.Takes c := fun _ hc => h1.takes_of_takes hc
  have htakes' : ∀ c, e.Takes c → e2.Takes c := fun c hc => h2.takes_of_takes (htakes c hc)
  obtain ⟨⟨a, mem1⟩, ha, hv1⟩ := Typed.bind_eq_ok hv
  refine (hl ha).trans h1.grows (h2.grows.trans h3) (fun m1 hQ => ?_) fun l m1 hQ => ?_
  · -- the left operand has not decided
    obtain ⟨hnot, hpassed⟩ := hQ.of_next
    have hne : ¬ (a != 0) = b := by simpa using hnot
    simp only [if_neg hne] at hv1
    obtain ⟨⟨a', mem2⟩, ha', hv2⟩ := Typed.bind_eq_ok hv1
    cases hv2
    refine (hr ((hpassed.eval_eq tr).trans ha')).trans h2.grows h3 (fun m2 hQ' => ?_)
      fun l m2 hQ' => ?_
    · obtain ⟨hnot', hpassed'⟩ := hQ'.of_next
      have hother : (a' != 0) = !b := by
        revert hnot'
        cases (a' != 0) <;> cases b <;> decide
      refine hload.mono ?_
      rintro x m3 ⟨rfl, hd⟩
      rw [hother]
      exact .inl ⟨rfl, (hpassed.trans hpassed' htakes).done hd htakes'⟩
    · obtain ⟨hdecided, rfl, hpassed'⟩ := hQ'.of_jump
      rw [beq_iff_eq.mp hdecided]
      exact .inr ⟨rfl, rfl, hpassed.trans hpassed' htakes⟩
  · obtain ⟨hdecided, rfl, hpassed⟩ := hQ.of_jump
    simp only [if_pos (beq_iff_eq.mp hdecided)] at hv1
    cases hv1
    exact .inr ⟨rfl, rfl, hpassed⟩

theorem compiled_logical (op : BinaryOp) {tl tr : Typed.Expr} (ihl : Compiled V D tl)
    (ihr : Compiled V D tr) : Compiled V D (.logical op tl tr) := by
  intro hwt hi s e r e' h m v mem hv
  rw [Typed.Expr.isIntegral, Bool.and_eq_true] at hi
  cases hwt with
  | logical hop hlwt hrwt hlt hrt =>
    rw [expr] at h
    cases hc : shortCircuit? op with
    | none => cases op <;> simp_all [shortCircuit?, BinaryOp.isLogical]
    | some c =>
      obtain ⟨b, hb, htest, hholds, hvalue, hother⟩ := of_shortCircuit? hc
      rw [hc] at h
      obtain ⟨id, e1, h1, h⟩ := exec_bind_eq_ok h
      obtain ⟨l, e2, h2, h⟩ := exec_bind_eq_ok h
      obtain ⟨_, e3, h3, h⟩ := exec_bind_eq_ok h
      obtain ⟨x, e4, h4, h⟩ := exec_bind_eq_ok h
      obtain ⟨_, e5, h5, h⟩ := exec_bind_eq_ok h
      obtain ⟨res, e6, h6, h7⟩ := exec_bind_eq_ok h
      obtain ⟨htext, hnumber, hlabels⟩ := of_freshId h1 (kind_mem_of_shortCircuit? hc)
      have hshort := hlabels "short" (by decide)
      have hstop := hlabels "end" (by decide)
      obtain ⟨hholdl, hl⟩ := compiled_test ihl hlwt hi.1 htest h2 h3
      obtain ⟨hholdr, hr⟩ := compiled_test ihr hrwt hi.2 htest h4 h5
      simp only [hholds] at hl hr
      -- the register for the outcome, which was free all along
      obtain ⟨hview, hholdres⟩ := (loadImmediate_outcome (Holding.refl e5) _).ok_of_exec h6
      have hrest := (hholdl.trans hholdr).trans hholdres
      have hint : res.view.isInteger = true := by rw [hview]; rfl
      have hg : ¬ e.Guards res.gpr := not_guards_of_grown hnumber <|
        Emitter.not_guards_of_not_takes (hrest.fresh _ (by simp)) (hrest.takes_of_mem (by simp)) hint
      have hload : ∀ {m}, Executes D e5 e6 m (Falls (Done e5 res (Typed.truth !b) m.mem m)) := by
        intro m
        have h6' : exec (loadInteger .long (1 - c.value)) s e5 = (.ok res, e6) := h6
        rw [exec_loadInteger rfl] at h6'
        refine executes_fresh rfl h6' fun _ hg => ?_
        rw [← hother]
        exact ⟨_, runAll_single (run_immediateInstr _ _), .of_into (.set _ _ _) hg⟩
      rw [exec_shortTail (hrest.takes_of_mem (by simp)) hint] at h7
      cases h7
      rw [eval, hb] at hv
      have hboth := executes_undecided hl hr hload hholdl hholdr hholdres.grows hv
      have htakes : ∀ c, e.Takes c → e1.Takes c := fun _ hc => hnumber.takes_of_takes hc
      have hall : Executes D e e6 m fun x m' => x = .next ∧ Done e r v mem m m' ∨
          x = .jump (controlLabel c.kind id "short") ∧ v = Typed.truth b ∧ Passed e mem m m' := by
        refine (hboth.numbered htext hnumber.labels).mono ?_
        rintro x m' (⟨rfl, hd⟩ | ⟨rfl, hdecided, hpassed⟩)
        · exact .inl ⟨rfl, hd.value, hd.mem, hd.keeps.mono htakes⟩
        · exact .inr ⟨rfl, hdecided, hpassed.mem, hpassed.keeps.mono htakes⟩
      refine executes_shortTail hall (hshort.step hrest.grows) (hstop.step hrest.grows) ?_ ?_
      · intro heq
        have hkind := kind_mem_of_shortCircuit? hc
        exact absurd (controlLabel_inj hkind hkind heq).2.2 (by decide)
      · rintro m' ⟨rfl, hpassed⟩
        rw [← hvalue]
        exact hpassed.done (.of_into (.set _ _ _) hg) fun _ hc => hc

/-! ### All expressions -/

/-- The code of any expression computes it. -/
theorem compiled (V : Vocabulary) (D : Layout) (t : Typed.Expr) : Compiled V D t := by
  induction t using Typed.Expr.induct with
  | literal v => exact compiled_literal v
  | object o => exact compiled_object o
  | pointee a pointer ih => exact compiled_pointee pointer ih
  | addressOf o type => exact compiled_addressOf o type
  | unary op t type ih => exact compiled_unary op type ih
  | binary op l r type ihl ihr => exact compiled_binary op type ihl ihr
  | logical op l r ihl ihr => exact compiled_logical op ihl ihr
  | assignObject o v ih => exact compiled_assignObject o ih
  | assignPointee a pointer v iha ihv => exact compiled_assignPointee pointer iha ihv
  | step o increment after => exact compiled_step o increment after
  | call name args type => exact fun _ hi => nomatch hi
  | convert t source target ih => exact compiled_convert source target ih
  | offset p c element subtract ihp ihc => exact compiled_offset element subtract ihp ihc

end Logical

/-! ### The statement for programs -/

section Program

variable {V : Vocabulary} {D : Layout} {s : Setting} {e e' : Emitter} {r : Reg} {t : Typed.Expr}

/-- The code of a well-typed expression without floats and calls, wherever it stands in a program
that has not used its labels before. Evaluation gives a value unless a division has none; the value
is in the range of its type, and the code falls through to its end with the value in the whole
register, the memory that evaluation leaves, and every other register unchanged that is taken or not
the generator's to use, the base of the frame and the top of the stack among them. -/
theorem expr_computes (hwt : t.WellTyped V) (hi : t.isIntegral = true)
    (h : exec (expr t) s e = (.ok r, e')) (m : Machine) :
    e'.text.toList = e.text.toList ++ added e e' ∧
    eval (memory D (m.regs .rbp)) t m.mem ≠ .error .outside ∧
    ∀ v mem, eval (memory D (m.regs .rbp)) t m.mem = .ok (v, mem) →
      t.type.wrap v = v ∧
      ∀ before after, X86.Older e.labels before →
        ∃ m', X86.Reaches D (before ++ added e e' ++ after) (before.length, m)
            (before.length + (added e e').length, m') ∧
          m'.regs r.gpr = BitVec.ofInt 64 v ∧ m'.mem = mem ∧
          ∀ g, e.Guards g → m'.regs g = m.regs g := by
  refine ⟨(held_of_exec hwt hi h).holding.grows.text, Typed.eval_ne_outside hwt hi, ?_⟩
  intro v mem hv
  refine ⟨Typed.wrap_of_eval hwt hv, fun before after hold => ?_⟩
  obtain ⟨x, m', ⟨rfl, hd⟩, hleaves⟩ := compiled V D t hwt hi h hv before after hold
  exact ⟨m', hleaves, hd.value, hd.mem, hd.keeps⟩

end Program

/-- A `long` at the top of the frame. -/
def counter : Symbol where
  name := "n"
  type := .long
  address := .frame (-8)

/-- `*&n = 7 / -2 && n++`, which counts `n` up and then clears it. -/
def counted : Typed.Expr :=
  .assign (.pointee (.addressOf counter (.pointer .long)) (.pointer .long))
    (.logical .logicalAnd (.binary .div (.literal (.int 7)) (.literal (.int (-2))) .int)
      (.step counter true true))

theorem eval_counted (D : Layout) (base : BitVec 64) :
    eval (memory D base) counted (fun _ => 0) = .ok (0, (memory D base).write
      ((memory D base).write (fun _ => 0) counter 1) counter 0) := by
  have hread : (memory D base).read (fun _ => 0) counter = 0 := by
    simp [memory, counter, Memory.read, CType.wrap, CType.word, Scalar.wrap, CType.size,
      Scalar.size]
  have hquotient : eval (memory D base) (.binary .div (.literal (.int 7)) (.literal (.int (-2)))
      .int) (fun _ => 0) = .ok (-3, fun _ => 0) := rfl
  have hstep : eval (memory D base) (.step counter true true) (fun _ => 0) =
      .ok (0, (memory D base).write (fun _ => 0) counter 1) := by
    rw [eval, if_pos (by decide), hread]
    rfl
  rw [counted, eval, eval, hquotient]
  simp only [bind, Except.bind, Typed.decisive?, hstep]
  simp [pure, Except.pure, Typed.truth, eval, memory, CType.element?, Scalar.isInteger, bind,
    Except.bind, counter, CType.size, Scalar.size]

theorem counted_wellTyped :
    counted.WellTyped ⟨[], fun o => o = counter, fun _ => False, fun _ => False⟩ := by
  have hquotient : (Typed.Expr.binary .div (.literal (.int 7)) (.literal (.int (-2)))
      .int).WellTyped ⟨[], fun o => o = counter, fun _ => False, fun _ => False⟩ :=
    .arithmetic rfl (.literal trivial) (.literal trivial) rfl rfl (by decide) (by decide)
  exact .assignPointee (.addressOf rfl (.inl rfl)) rfl
    (.logical rfl hquotient (.step rfl (.inl rfl)) rfl rfl) rfl

/-- The code of `*&n = 7 / -2 && n++` run on a machine whose memory and registers are zero. -/
theorem counted_computes :
    let m : Machine := ⟨fun _ => 0, none, fun _ => 0⟩
    let D : Layout := fun _ => 0
    ∃ e', exec (expr counted) ⟨default, false⟩ default = (.ok ⟨.long, 0⟩, e') ∧
      ∃ m', X86.Reaches D (added default e') (0, m) ((added default e').length, m') ∧
        m'.regs .rbx = 0 ∧ m'.mem = (memory D 0).write ((memory D 0).write (fun _ => 0) counter 1)
          counter 0 ∧ m'.regs .rbp = 0 := by
  intro m D
  obtain ⟨e', hexec⟩ := exec_eq_ok (m := expr counted) (s := ⟨default, false⟩) (e := default)
    (a := ⟨.long, 0⟩) (by cbv)
  obtain ⟨-, -, hruns⟩ := expr_computes (D := D) counted_wellTyped rfl hexec m
  obtain ⟨-, hplaced⟩ := hruns 0 _ (eval_counted D _)
  obtain ⟨m', hreaches, hvalue, hmem, hkeeps⟩ := hplaced [] [] (by simp [X86.Older])
  refine ⟨e', hexec, m', ?_, hvalue, hmem, hkeeps _ (Emitter.guards_rbp _)⟩
  simpa using hreaches

end MiniC.Lower
