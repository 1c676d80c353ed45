import MiniC.Proofs.Emit.Supply
import MiniC.Proofs.Lower.Ownership

/-!
# How many registers an expression needs

Operands are computed from left to right and the left one stays in its register, so the registers that an
expression needs can be counted on its tree: one more for the right operand than it needs by itself. `need` is
this number for expressions without floats. It is exact: with so many registers free the code can be
generated, from every state, and with fewer it cannot, for want of a register.
-/

set_option autoImplicit false

namespace MiniC

/-- Values of the type are held in general registers. -/
def CType.isGeneral (type : CType) : Bool := !type.isVoid && type.word.isInteger

namespace Typed

mutual

/-- All values are held in general registers: no floats are computed with, every call has a result, and passes no
more arguments than there are registers for them. -/
@[simp] def Expr.isGeneral : Expr → Bool
  | .literal v => v.type.isGeneral
  | .load (.object s) => s.type.isGeneral
  | .load (.pointee address pointer) => (Place.pointee address pointer).type.isGeneral && address.isGeneral
  | .addressOf _ type => type.isGeneral
  | .unary _ operand type => type.isGeneral && operand.isGeneral
  | .binary _ left right type => type.isGeneral && left.isGeneral && right.isGeneral
  | .logical _ left right => left.isGeneral && right.isGeneral
  | .assign (.object s) value => s.type.isGeneral && value.isGeneral
  | .assign (.pointee address pointer) value =>
    (Place.pointee address pointer).type.isGeneral && address.isGeneral && value.isGeneral
  | .step s _ _ => s.type.isGeneral
  | .call _ arguments type => type.isGeneral && arguments.length ≤ 6 && Expr.areGeneral arguments
  | .convert operand _ target => target.isInteger && operand.isGeneral
  | .offset pointer count _ _ => pointer.isGeneral && count.isGeneral

@[simp] def Expr.areGeneral : List Expr → Bool
  | [] => true
  | e :: es => e.isGeneral && Expr.areGeneral es

end

end Typed

namespace Lower

open Emit
open Typed (Vocabulary)
open Emitter (Holding)

mutual

/-- How many registers have to be free. -/
@[simp] def need : Typed.Expr → Nat
  | .literal _ | .load (.object _) | .addressOf _ _ => 1
  | .load (.pointee address _) => need address
  | .unary _ operand _ => need operand
  | .binary op left right _ =>
    -- the outcome of comparing what is narrower than a register has a register of its own
    if op.relation?.isSome ∧ left.type.word ≠ .long then max (max (need left) (need right + 1)) 3
    else max (need left) (need right + 1)
  | .logical _ left right => max (need left) (need right)
  | .assign (.object _) value => need value
  | .assign (.pointee address _) value => max (need value) (need address + 1)
  | .step _ _ after => if after then 2 else 1
  | .call _ arguments _ => max 1 (needAll arguments)
  | .convert operand _ _ => need operand
  | .offset pointer count _ _ => max (need pointer) (need count + 1)

/-- How many registers have to be free to compute expressions one by one. -/
@[simp] def needAll : List Typed.Expr → Nat
  | [] => 0
  | e :: es => max (need e) (needAll es)

end

theorem need_pos (t : Typed.Expr) : 1 ≤ need t := by
  induction t using Typed.Expr.induct with
  | literal | object | addressOf => simp
  | pointee _ _ ha => rwa [need]
  | unary _ _ _ ht => rwa [need]
  | binary op l r type hl hr =>
    rw [need]
    split <;> omega
  | logical _ _ _ hl hr => rw [need]; omega
  | assignObject _ _ hv => rwa [need]
  | assignPointee _ _ _ ha hv => rw [need]; omega
  | step _ _ after => rw [need]; split <;> omega
  | call => rw [need]; omega
  | convert _ _ _ ht => rwa [need]
  | offset _ _ _ _ hp hc => rw [need]; omega

/-- What an expression computes is held in a general register. -/
theorem type_isGeneral {t : Typed.Expr} (h : t.isGeneral = true) : t.type.isGeneral = true := by
  cases t with
  | load p => cases p <;> simp_all [Typed.Expr.type, Typed.Place.type]
  | assign p v => cases p <;> simp_all [Typed.Expr.type, Typed.Place.type]
  | logical => rfl
  | offset => rfl
  | convert => simp_all [Typed.Expr.type, CType.isGeneral, CType.isVoid, CType.word]
  | _ => simp_all [Typed.Expr.type]

theorem of_isGeneral {type : CType} (h : type.isGeneral = true) :
    type.isVoid = false ∧ type.word.isInteger = true := by
  simpa [CType.isGeneral] using h

/-- The registers that an expression needs are just as many as its code asks for. -/
def Exact (t : Typed.Expr) : Prop :=
  ∀ {V : Vocabulary} {s : Setting} {e : Emitter}, t.WellTyped V → t.isGeneral = true →
    (∀ text, V.strings text → (s.pool.stringLabel? text).isSome = true) → Demands e.free (need t) (expr t) s e

section Operands

variable {V : Vocabulary} {s : Setting} {e e' e1 e2 : Emitter} {t : Typed.Expr} {r : Reg}

/-- An operand that has been computed is in a general register, and there is one less free. -/
theorem of_operand (ht : t.WellTyped V) (hg : t.isGeneral = true) (h : exec (expr t) s e = (.ok r, e')) :
    r.view = t.type.word ∧ r.view.isInteger = true ∧ e'.free + 1 = e.free := by
  have hview := view_of_expr ht h
  have hint : r.view.isInteger = true := by rw [hview, (of_isGeneral (type_isGeneral hg)).2]
  exact ⟨hview, hint, Emitter.free_of_holding (holding_of_expr h) hint⟩

theorem ne_float_of_isInteger {view : Scalar} (h : view.isInteger = true) : view ≠ .float := by
  rintro rfl
  cases h

theorem holding_of_test {relation : Relation} {target : String} {a : Reg} {u : Unit} {n : Emitter}
    (h : exec (expr t) s e = (.ok a, n)) (h' : exec (testAndJump relation a target) s n = (.ok u, e')) :
    Holding [] 0 e e' :=
  (testAndJump_outcome (holding_of_expr h) relation target True).ok_of_exec h'

/-- An operand that is tested is given back before what follows. -/
theorem demands_test {β : Type} {m : Emit β} {n : Nat} {target : String} (ht : t.WellTyped V)
    (hg : t.isGeneral = true) (h : exec (expr t) s e = (.ok r, e')) (relation : Relation)
    (hm : ∀ e'', e''.free = e.free → Demands e.free n m s e'') :
    Demands e.free n (testAndJump relation r target >>= fun _ => m) s e' := by
  have hf := ne_float_of_isInteger (of_operand ht hg h).2.1
  have hexec := exec_testAndJump (s := s) ((holding_of_expr h).takes_of_mem List.mem_cons_self) hf relation target
  refine ((demands_ok e.free hexec).bind fun _ e'' h' => ?_).of_eq (Nat.zero_max n)
  exact hm e'' (Emitter.free_of_holding_nil (holding_of_test h h'))

end Operands

theorem exact_binary (op : BinaryOp) {l r : Typed.Expr} (type : CType) (hl : Exact l) (hr : Exact r) :
    Exact (.binary op l r type) := by
  intro V s e ht hg hpool
  obtain ⟨hlt, hrt, -, -, hsame, hcomb, -⟩ := of_wellTyped_binary ht
  simp only [Typed.Expr.isGeneral, Bool.and_eq_true] at hg
  obtain ⟨⟨-, hlg⟩, hrg⟩ := hg
  -- what is done with the operands, which are both held
  have hcombine : ∀ {lr rr e1 e2}, exec (expr l) s e = (.ok lr, e1) → exec (expr r) s e1 = (.ok rr, e2) →
      Demands e.free (if op.relation?.isSome ∧ l.type.word ≠ .long then 3 else 0) (combine op lr rr) s e2 := by
    intro lr rr e1 e2 h1 h2
    obtain ⟨hlv, hli, hlf⟩ := of_operand hlt hlg h1
    obtain ⟨hrv, hri, hrf⟩ := of_operand hrt hrg h2
    have hheld := (holding_of_expr h1).trans (holding_of_expr h2)
    have hlc : e2.Takes lr.cell := hheld.takes_of_mem (by simp)
    have hrc : e2.Takes rr.cell := hheld.takes_of_mem (by simp)
    have hne : lr.cell ≠ rr.cell := fun heq => by simpa [heq] using hheld.nodup
    have hview : lr.view = rr.view := by rw [hlv, hrv, hsame]
    have hf := ne_float_of_isInteger hli
    unfold combine
    cases hrel : op.relation? with
    | some relation =>
      by_cases hlong : l.type.word = .long
      · simp only [Option.isSome_some, hlong, ne_eq, not_true_eq_false, and_false, if_false]
        exact demands_ok _ (exec_compare_long hlc hrc hview (hlv.trans hlong) relation)
      · simp only [Option.isSome_some, hlong, ne_eq, not_false_eq_true, and_self, if_true]
        exact ((demands_compare_narrow hlc hrc hne hview hf (hlv ▸ hlong)).shift hrf).shift hlf
    | none =>
      simp only [Option.isSome_none, Bool.false_eq_true, false_and, if_false]
      rcases hcomb with hsome | ⟨a, ha, -⟩
      · rw [hrel] at hsome
        cases hsome
      · rw [ha]
        have hexec := exec_binary (s := s) hlc hrc a
        rw [if_pos hview, if_neg hf] at hexec
        exact demands_ok _ hexec
  rw [expr]
  refine ((hl hlt hlg hpool).bind fun lr e1 h1 => ((hr hrt hrg hpool).shift (of_operand hlt hlg h1).2.2).bind
    fun rr e2 h2 => hcombine h1 h2).of_eq ?_
  rw [need]
  split <;> omega

theorem exact_logical (op : BinaryOp) {l r : Typed.Expr} (hl : Exact l) (hr : Exact r) :
    Exact (.logical op l r) := by
  intro V s e ht hg hpool
  simp only [Typed.Expr.isGeneral, Bool.and_eq_true] at hg
  obtain ⟨hlg, hrg⟩ := hg
  cases ht with
  | logical hop hlt hrt hlv hrv =>
    obtain ⟨sc, hsc⟩ : ∃ sc, shortCircuit? op = some sc := by
      cases op <;> simp_all [BinaryOp.isLogical, shortCircuit?]
    rw [expr, hsc, need]
    refine ((demands_ok e.free (exec_freshId s e sc.kind)).bind fun id e1 h1 => ?_).of_eq (Nat.zero_max _)
    obtain ⟨-, hheld, -⟩ := of_freshId h1 (kind_mem_of_shortCircuit? hsc)
    rw [← Emitter.free_of_holding_nil hheld]
    refine (hl hlt hlg hpool).bind fun lr e2 h2 => demands_test hlt hlg h2 sc.test fun e3 hfree3 => ?_
    rw [← hfree3]
    -- loading the value asks for one register, and so does every operand
    refine ((hr hrt hrg hpool).bind fun rr e4 h4 => demands_test hrt hrg h4 sc.test fun e5 hfree5 => ?_).of_eq
      (Nat.max_eq_left (need_pos r))
    rw [← hfree5]
    have hload : Demands e5.free 1 (loadImmediate (.long (1 - sc.value))) s e5 :=
      demands_loadImmediate rfl fun _ hstr => by cases hstr
    refine hload.andThen fun x e6 h6 => ?_
    have hinteger : exec (loadInteger .long (1 - sc.value)) s e5 = (.ok x, e6) := h6
    rw [exec_loadInteger rfl] at hinteger
    obtain ⟨hx, rfl⟩ := of_taking hinteger
    have hview : x.view.isInteger = true := by rw [(Emitter.of_fresh? hx).1]; rfl
    exact ⟨_, _, exec_shortTail (by simpa using takes_take_self hx) hview _ _ _⟩

theorem exact_assignPointee (pointer : CType) {a v : Typed.Expr} (ha : Exact a) (hv : Exact v) :
    Exact (.assign (.pointee a pointer) v) := by
  intro V s e ht hg hpool
  simp only [Typed.Expr.isGeneral, Bool.and_eq_true] at hg
  obtain ⟨⟨-, hag⟩, hvg⟩ := hg
  cases ht with
  | @assignPointee _ _ element hat hap hvt hve =>
    rw [expr, need]
    refine ((hv hvt hvg hpool).bind fun r e1 h1 => ((ha hat hag hpool).shift (of_operand hvt hvg h1).2.2).andThen
      fun ar e2 h2 => ?_)
    have hheld := (holding_of_expr h1).trans (holding_of_expr h2)
    have hlong : ar.view = .long := (view_of_expr hat h2).trans (word_of_valueType hap)
    have hview : r.view = element := (view_of_expr hvt h1).trans (word_of_valueType hve)
    have hrc : e2.Takes r.cell := hheld.takes_of_mem (by simp)
    have hac : e2.Takes ar.cell := hheld.takes_of_mem (by simp)
    have helement : (CType.pointer element).element? = some element := rfl
    have hexec := exec_storeIndirect (s := s) hrc hac helement
    rw [if_pos hlong, if_pos hview] at hexec
    exact ⟨_, _, exec_bind_ok hexec⟩

theorem exact_offset (element : Scalar) (subtract : Bool) {p c : Typed.Expr} (hp : Exact p) (hc : Exact c) :
    Exact (.offset p c element subtract) := by
  intro V s e ht hg hpool
  simp only [Typed.Expr.isGeneral, Bool.and_eq_true] at hg
  obtain ⟨hpg, hcg⟩ := hg
  cases ht with
  | offset hpt hct hpp hcl =>
    rw [expr, need]
    refine ((hp hpt hpg hpool).bind fun b e1 h1 => ((hc hct hcg hpool).shift (of_operand hpt hpg h1).2.2).andThen
      fun i e2 h2 => ?_)
    have hheld := (holding_of_expr h1).trans (holding_of_expr h2)
    have hb : b.view = .long := (view_of_expr hpt h1).trans (word_of_valueType hpp)
    have hi : i.view = .long := (view_of_expr hct h2).trans (by rw [hcl]; rfl)
    have haddress : ∀ {e3 : Emitter}, e3.Takes b.cell → e3.Takes i.cell →
        ∃ x e', exec (elementAddress b i element) s e3 = (.ok x, e') := by
      intro e3 hbt hit
      have hexec := exec_elementAddress (s := s) hbt hit element
      rw [if_pos hb, if_pos hi] at hexec
      exact ⟨_, _, hexec⟩
    have hbt : e2.Takes b.cell := hheld.takes_of_mem (by simp)
    have hit : e2.Takes i.cell := hheld.takes_of_mem (by simp)
    cases subtract with
    | false => exact haddress hbt hit
    | true =>
      have hnegate := exec_negate (s := s) hit (by rw [hi]; decide)
      obtain ⟨x, e', hx⟩ := @haddress (e2.emit _) (by simpa using hbt) (by simpa using hit)
      exact ⟨x, e', (exec_bind_ok hnegate).trans hx⟩

/-! ### Calls -/

/-- The registers of arguments are given back, so that nothing more is in reach. -/
theorem holding_of_pushArgument {t : Typed.Expr} {s : Setting} {e n e' : Emitter} {r : Reg} {u : Unit}
    (h : exec (expr t) s e = (.ok r, n)) (h' : exec (pushArgument r) s n = (.ok u, e')) : Holding [] 1 e e' := by
  have houtcome : Outcome (pushArgument r) s.pool n (fun _ e' => Holding [] 1 e e') fun _ => True :=
    pushArgument_outcome (holding_of_expr h)
  exact houtcome.ok_of_exec h'

theorem demands_pushAll {V : Vocabulary} {s : Setting} {e : Emitter} {args : List Typed.Expr}
    (hargs : ∀ a ∈ args, Exact a) (ht : ∀ a ∈ args, a.WellTyped V) (hg : Typed.Expr.areGeneral args = true)
    (hpool : ∀ text, V.strings text → (s.pool.stringLabel? text).isSome = true) :
    Demands e.free (needAll args) (pushAll args) s e := by
  induction args generalizing e with
  | nil => exact demands_ok _ (exec_pure ..)
  | cons a args ih =>
    obtain ⟨ha, hargs⟩ := List.forall_mem_cons.mp hargs
    obtain ⟨hat, hts⟩ := List.forall_mem_cons.mp ht
    simp only [Typed.Expr.areGeneral, Bool.and_eq_true] at hg
    rw [pushAll, needAll]
    refine (ha hat hg.1 hpool).bind fun r e1 h1 => ?_
    have hr : e1.Takes r.cell := (holding_of_expr h1).takes_of_mem List.mem_cons_self
    refine ((demands_ok e.free (exec_pushArgument hr)).bind fun _ e2 h2 => ?_).of_eq (Nat.zero_max _)
    -- the next argument starts with as many free registers as this one did
    rw [← Emitter.free_of_holding_nil (holding_of_pushArgument h1 h2)]
    exact (ih hargs hts hg.2).andThen fun views e3 _ => ⟨_, _, exec_pure ..⟩

theorem views_of_pushAll {V : Vocabulary} {s : Setting} {e e' : Emitter} {args : List Typed.Expr}
    {views : List Scalar} (ht : ∀ a ∈ args, a.WellTyped V) (hg : Typed.Expr.areGeneral args = true)
    (h : exec (pushAll args) s e = (.ok views, e')) : ∀ view ∈ views, view.isInteger = true := by
  induction args generalizing e views with
  | nil =>
    rw [pushAll] at h
    cases h
    exact fun _ hmem => absurd hmem List.not_mem_nil
  | cons a args ih =>
    obtain ⟨hat, hts⟩ := List.forall_mem_cons.mp ht
    simp only [Typed.Expr.areGeneral, Bool.and_eq_true] at hg
    rw [pushAll] at h
    obtain ⟨r, e1, h1, h⟩ := exec_bind_eq_ok h
    obtain ⟨_, e2, h2, h⟩ := exec_bind_eq_ok h
    obtain ⟨views', e3, h3, h⟩ := exec_bind_eq_ok h
    cases h
    exact List.forall_mem_cons.mpr ⟨(of_operand hat hg.1 h1).2.1, ih hts hg.2 h3⟩

theorem call_eq_pushAll (name : String) (type : CType) (a b : Typed.Expr) (args : List Typed.Expr) :
    call name type (a :: b :: args) = (do
      let views ← pushAll (a :: b :: args)
      callPushed name views type) := by
  rw [call]
  · conv_rhs => rw [pushAll]
    simp only [bind_assoc, pure_bind]
  · simp

theorem exact_call (name : String) {args : List Typed.Expr} (type : CType) (hargs : ∀ a ∈ args, Exact a) :
    Exact (.call name args type) := by
  intro V s e ht hg hpool
  simp only [Typed.Expr.isGeneral, Bool.and_eq_true, decide_eq_true_eq] at hg
  obtain ⟨⟨htype, hlen⟩, hag⟩ := hg
  obtain ⟨hvoid, hint⟩ := of_isGeneral htype
  have hat : ∀ a ∈ args, a.WellTyped V := by
    cases ht with
    | call hf ha hfits => exact ha
  have hcall : Demands e.free (max 1 (needAll args)) (call name type args) s e := by
    -- the register of an argument is given back, or its value pushed, before the result takes one
    cases args with
    | nil =>
      rw [call]
      exact demands_callFunction_none hvoid hint
    | cons a others =>
      cases others with
      | nil =>
        obtain ⟨hag', -⟩ := Bool.and_eq_true_iff.mp hag
        rw [call]
        have ha : Demands e.free (need a) (expr a) s e :=
          hargs a List.mem_cons_self (hat a List.mem_cons_self) hag' hpool
        refine (ha.bind fun r e1 h1 => demands_callFunction_some (holding_of_expr h1) hvoid hint).of_eq ?_
        rw [needAll, needAll]
        omega
      | cons b others =>
        rw [call_eq_pushAll]
        refine ((demands_pushAll hargs hat hag hpool).bind fun views e1 h1 => ?_).of_eq (Nat.max_comm ..)
        obtain ⟨hviews, hheld⟩ := of_pushAll h1
        rw [← hviews] at hheld hlen
        exact demands_callPushed hheld (views_of_pushAll hat hag h1) hlen hvoid hint
  rw [expr, need]
  refine hcall.andThen fun result e1 h1 => ?_
  cases result with
  | some r => exact ⟨_, _, exec_pure ..⟩
  | none =>
    -- only a function without a result gives none
    have houtcome : Outcome (call name type args) s.pool e (Taken type [] 0 e) _ :=
      call_outcome name type (fun a _ => lowers V s.pool a) (.refl e)
    exact absurd (houtcome.ok_of_exec h1).1 (by simp [hvoid])

theorem exact_of_wellTyped (t : Typed.Expr) : Exact t := by
  induction t using Typed.Expr.induct with
  | literal v =>
    intro V s e ht hg hpool
    rw [expr, need]
    cases ht with
    | literal hv =>
      -- a string needs a label in the pool besides a register
      refine demands_loadImmediate (of_isGeneral (type_isGeneral hg)).2 ?_
      rintro text rfl
      exact hpool text hv
  | object o =>
    intro V s e ht hg hpool
    rw [expr, need]
    obtain ⟨hvoid, hint⟩ := of_isGeneral (type_isGeneral hg)
    exact demands_loadSymbol hvoid hint
  | pointee a pointer ha =>
    intro V s e ht hg hpool
    simp only [Typed.Expr.isGeneral, Bool.and_eq_true] at hg
    cases ht with
    | pointee hat hap =>
      rw [expr, need]
      refine (ha hat hg.2 hpool).andThen fun r e1 h1 => ?_
      have hlong : r.view = .long := (view_of_expr hat h1).trans (word_of_valueType hap)
      exact ⟨_, _, exec_dereference ((holding_of_expr h1).takes_of_mem List.mem_cons_self) rfl hlong
        (ne_float_of_isInteger (of_isGeneral hg.1).2)⟩
  | addressOf o type =>
    intro V s e ht hg hpool
    rw [expr, need]
    exact demands_addressOf o
  | unary op t type ht =>
    intro V s e hwt hg hpool
    simp only [Typed.Expr.isGeneral, Bool.and_eq_true] at hg
    have hunary : ∀ {v : ValueOp}, op.value? = some v → t.WellTyped V →
        Demands e.free (need (.unary op t type)) (expr (.unary op t type)) s e := by
      intro v hop htt
      rw [expr, need, hop]
      refine (ht htt hg.2 hpool).andThen fun r e1 h1 => ?_
      have hr : e1.Takes r.cell := (holding_of_expr h1).takes_of_mem List.mem_cons_self
      have hf := ne_float_of_isInteger (of_operand htt hg.2 h1).2.1
      cases v with
      | negate => exact ⟨_, _, exec_negate hr hf⟩
      | invert => exact ⟨_, _, by rw [exec_invert hr, if_neg hf]⟩
      | not => exact ⟨_, _, exec_not hr hf⟩
    cases hwt with
    | negate he => exact hunary rfl he
    | invert he => exact hunary rfl he
    | not he => exact hunary rfl he
  | binary op l r type hl hr => exact exact_binary op type hl hr
  | logical op l r hl hr => exact exact_logical op hl hr
  | assignObject o v hv =>
    intro V s e ht hg hpool
    simp only [Typed.Expr.isGeneral, Bool.and_eq_true] at hg
    cases ht with
    | assignObject hs ha hvt hfits =>
      rw [expr, need]
      refine (hv hvt hg.2 hpool).andThen fun r e1 h1 => ?_
      obtain ⟨hword, -, hvoid⟩ := word_of_fits hfits
      have hr : e1.Takes r.cell := (holding_of_expr h1).takes_of_mem List.mem_cons_self
      have hexec := exec_storeTo (s := s) hr hvoid ha (place o)
      rw [if_pos ((view_of_expr hvt h1).trans hword)] at hexec
      exact ⟨_, _, exec_bind_ok hexec⟩
  | assignPointee a pointer v ha hv => exact exact_assignPointee pointer ha hv
  | step o increment after =>
    intro V s e ht hg hpool
    rw [expr, need]
    cases ht with
    | step hs hty =>
      obtain ⟨amount, hamount⟩ : ∃ amount, stepAmount? o.type = some amount := by
        cases ho : o.type <;> simp_all [CType.isInteger, CType.isPointer, stepAmount?]
      exact demands_step hamount increment after
  | call name args type hargs => exact exact_call name type hargs
  | convert t source target ht =>
    intro V s e hwt hg hpool
    simp only [Typed.Expr.isGeneral, Bool.and_eq_true] at hg
    cases hwt with
    | convert he hty hne =>
      rw [expr, need]
      refine (ht he hg.2 hpool).andThen fun r e1 h1 => ?_
      obtain ⟨hview, hint, -⟩ := of_operand he hg.2 h1
      have hsource : r.view = source := hview.trans (by rw [hty]; rfl)
      exact ⟨_, _, exec_convert_integer ((holding_of_expr h1).takes_of_mem List.mem_cons_self) hsource
        (hsource ▸ hint) hg.1 hne⟩
  | offset p c element subtract hp hc => exact exact_offset element subtract hp hc

/-- The code of a well-typed expression without floats can be generated if as many registers are free as it needs,
and otherwise a register is wanting. -/
theorem expr_needs {V : Vocabulary} {t : Typed.Expr} {s : Setting} (ht : t.WellTyped V) (hg : t.isGeneral = true)
    (hpool : ∀ text, V.strings text → (s.pool.stringLabel? text).isSome = true) (e : Emitter) :
    (need t ≤ e.free → ∃ r e', exec (expr t) s e = (.ok r, e')) ∧
      (e.free < need t → ∃ view e', exec (expr t) s e = (.error (.noFreeRegister view), e')) :=
  have h : Demands e.free (need t) (expr t) s e := exact_of_wellTyped t ht hg hpool
  ⟨h.ok, h.error⟩

/-- `"ab"[1] < 'c'`, which holds two values when a register is taken for the outcome. -/
def early : Typed.Expr :=
  .binary .less (.load (.pointee (.offset (.literal (.str "ab")) (.literal (.long 1)) .char false) (.pointer .char)))
    (.literal (.char 99)) .long

theorem expr_needs_early :
    (∃ r e', exec (expr early) ⟨(Pool.internString {} "ab").2, false⟩ {} = (.ok r, e')) ∧
      ∃ view e', exec (expr early) ⟨(Pool.internString {} "ab").2, false⟩
        ((({} : Emitter).take ⟨.long, 0⟩).take ⟨.long, 1⟩) = (.error (.noFreeRegister view), e') := by
  have ht : early.WellTyped ⟨[], fun _ => False, fun _ => False, (· = "ab")⟩ :=
    .compare rfl (.pointee (.offset (.literal rfl) (.literal trivial) rfl rfl) rfl) (.literal trivial)
      (.scalars rfl rfl)
  have hpool : ∀ text, text = "ab" → ((Pool.internString {} "ab").2.stringLabel? text).isSome = true := by
    rintro text rfl
    rfl
  exact ⟨(expr_needs ht rfl hpool _).1 (by decide), (expr_needs ht rfl hpool _).2 (by decide)⟩

end Lower

end MiniC
