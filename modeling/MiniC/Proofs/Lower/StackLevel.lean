import MiniC.Proofs.Emit.CallLevel
import MiniC.Proofs.Lower.StmtOutcome
import MiniC.Proofs.Typed.Symbols

/-!
# Expressions and statements leave the stack where it was

Whatever expression or statement is emitted, and whatever is on the stack before its code, the same is on
it after. The code of a call pushes its arguments while the later ones are computed, calls among them, and
pops them again. Jumps inside an expression are to labels that are defined later in it; a condition may jump
to the label it is given, and a statement to the label where the `return`s of its function meet. All of
these jumps are made where the stack is as at the start.

The code also keeps to bounds: it goes to the objects that the tree mentions and to the constants of the pool,
and to no other place that an instruction can name, and it leaves alone what it has not taken itself.
-/

set_option autoImplicit false

namespace MiniC.Lower

open Emit
open MiniC.X86 (Places)
open MiniC.Emitter (Level Moved Pending)

section Bounds

variable {B : Bounds} {s : Setting} {e e' : Emitter}

/-- A number for labels has been taken, and nothing was appended. -/
theorem level_freshId {kind : String} {id : Nat} (h : exec (freshId kind) s e = (.ok id, e'))
    (hkind : kind ∈ constructs) (outside : String → Prop) :
    Level B outside e e' ∧ ∀ role ∈ roles, Pending e e' (controlLabel kind id role) := by
  obtain ⟨htext, hholding, hpending⟩ := of_freshId h hkind
  exact ⟨Emitter.level_of_text_eq htext hholding.labels hholding.pushed outside, hpending⟩

theorem suit_freshId {kind : String} {id : Nat} (hB : B.Suit s e) (h : exec (freshId kind) s e = (.ok id, e')) :
    B.Suit s e' := by
  rw [exec_freshId] at h
  cases h
  exact ⟨hB.taken, hB.pool⟩

/-- What may be jumped to from code with a label after it: the label, and what is outside. -/
def upTo (outside : String → Prop) (stop l : String) : Prop := outside l ∨ l = stop

/-! ### Expressions -/

/-- An expression leaves the stack where it was, jumps nowhere else and keeps to bounds. -/
def Balanced (B : Bounds) (t : Typed.Expr) : Prop := ∀ outside, Levels B outside (expr t) B.Owns

theorem levels_combine {outside : String → Prop} (op : BinaryOp) (l r : Reg) [B.Owns l] [B.Owns r] :
    Levels B outside (combine op l r) B.Owns := by
  unfold combine
  split
  · exact (quiet_compare l r _).levels
  · exact (quiet_binary l r _).levels
  · exact levels_throw _

/-- Both tests jump to the one label and the way past it to the other; each is defined where nothing more
has been pushed. -/
theorem balanced_logical (op : BinaryOp) {l r : Typed.Expr} (hl : Balanced B l) (hr : Balanced B r) :
    Balanced B (.logical op l r) := by
  intro outside s e a e' hB hexec
  rw [expr] at hexec
  cases hshort : shortCircuit? op with
  | none =>
    rw [hshort] at hexec
    cases hexec
  | some sc =>
    rw [hshort] at hexec
    have hkind := kind_mem_of_shortCircuit? hshort
    obtain ⟨id, e1, h1, hexec⟩ := exec_bind_eq_ok hexec
    obtain ⟨lr, e2, h2, hexec⟩ := exec_bind_eq_ok hexec
    obtain ⟨_, e3, h3, hexec⟩ := exec_bind_eq_ok hexec
    obtain ⟨rr, e4, h4, hexec⟩ := exec_bind_eq_ok hexec
    obtain ⟨_, e5, h5, hexec⟩ := exec_bind_eq_ok hexec
    obtain ⟨result, e6, h6, hexec⟩ := exec_bind_eq_ok hexec
    obtain ⟨_, e7, h7, hexec⟩ := exec_bind_eq_ok hexec
    obtain ⟨_, e8, h8, hexec⟩ := exec_bind_eq_ok hexec
    obtain ⟨_, e9, h9, hexec⟩ := exec_bind_eq_ok hexec
    obtain ⟨_, e10, h10, hexec⟩ := exec_bind_eq_ok hexec
    cases hexec
    generalize hss : controlLabel sc.kind id "short" = short at *
    generalize hst : controlLabel sc.kind id "end" = stop at *
    -- up to the first label both may be jumped to
    obtain ⟨hlevel, hpending⟩ := level_freshId h1 hkind (upTo (upTo outside stop) short)
    have hpshort : Pending e e1 short := hss ▸ hpending "short" (by decide)
    have hpstop : Pending e e1 stop := hst ▸ hpending "end" (by decide)
    have hnshort := Emitter.ne_unorderedTarget hpshort.named
    have hnstop := Emitter.ne_unorderedTarget hpstop.named
    have hoshort : upTo (upTo outside stop) short short := .inr rfl
    have hostop : upTo (upTo outside stop) short stop := .inl (.inr rfl)
    obtain ⟨hlr, hB2, hleft⟩ := hl (upTo (upTo outside stop) short) (suit_freshId hB h1) h2
    obtain ⟨-, hB3, htest⟩ := steady_testAndJump hoshort hnshort _ lr hB2 h3
    obtain ⟨hrr, hB4, hright⟩ := hr (upTo (upTo outside stop) short) hB3 h4
    obtain ⟨-, hB5, htest'⟩ := steady_testAndJump hoshort hnshort _ rr hB4 h5
    obtain ⟨hresult, hB6, -⟩ := quiet_loadImmediate _ hB5 h6
    obtain ⟨-, hB7, hjump⟩ := steady_jump hostop hnstop hB6 h7
    have htests : Level B (upTo (upTo outside stop) short) e1 e7 :=
      hleft.trans (htest.trans (hright.trans (htest'.trans
        (((quiet_loadImmediate _).levels hB5 h6).2.2.trans hjump))))
    have hp7 : Pending e e7 short := hpshort.step htests.grows
    rw [exec_label] at h8 h10
    cases h8
    cases h10
    have hB8 : B.Suit s (e7.append [.label short]) := ⟨hB7.taken, hB7.pool⟩
    obtain ⟨-, hB9, -⟩ := quiet_moveImmediate a _ hB8 h9
    have hmove : Level B (upTo outside stop) _ e9 :=
      ((quiet_moveImmediate a _).levels hB8 h9).2.2
    have hfirst := ((hlevel.trans htests).label hp7).trans hmove
    refine ⟨hresult, ⟨hB9.taken, hB9.pool⟩, hfirst.label ?_⟩
    -- the first label is not the second, which is still to be defined
    have hne : stop ≠ short := by
      rw [← hss, ← hst]
      exact labels_ne hkind id (by decide)
    exact ((hpstop.step htests.grows).label hp7 hne).step hmove.grows

/-- Each argument is on the stack when the next one is computed. -/
theorem moved_pushAll {args : List Typed.Expr} (hargs : ∀ a ∈ args, Balanced B a) {views : List Scalar}
    (hB : B.Suit s e) (h : exec (pushAll args) s e = (.ok views, e')) (outside : String → Prop) :
    B.Suit s e' ∧ Moved B outside e e' ∧ e'.pushed = e.pushed + views.length := by
  induction args generalizing e views outside with
  | nil =>
    rw [pushAll] at h
    cases h
    exact ⟨hB, (Level.refl outside _).toMoved, rfl⟩
  | cons a args ih =>
    rw [pushAll] at h
    obtain ⟨r, e1, h1, h⟩ := exec_bind_eq_ok h
    obtain ⟨_, e2, h2, h⟩ := exec_bind_eq_ok h
    obtain ⟨rest, e3, h3, h⟩ := exec_bind_eq_ok h
    cases h
    obtain ⟨ha, hothers⟩ := List.forall_mem_cons.mp hargs
    obtain ⟨hr, hB1, hlevel⟩ := ha outside hB h1
    obtain ⟨hB2, hpush, hcount⟩ := moved_pushArgument r hB1 h2 fun _ => False
    obtain ⟨hB3, hrest, hrestCount⟩ := ih hothers hB2 h3 fun _ => False
    have hlevelCount := hlevel.pushed
    have hfirst := hlevel.toMoved.trans hpush (by omega) fun _ => False.elim
    refine ⟨hB3, hfirst.trans hrest (by omega) fun _ => False.elim, ?_⟩
    rw [hrestCount, hcount, hlevelCount, List.length_cons]
    omega

/-- However many arguments there are, all that is pushed for a call is popped. -/
theorem levels_call (name : String) (type : CType) {args : List Typed.Expr}
    (hargs : ∀ a ∈ args, Balanced B a) (outside : String → Prop) :
    Levels B outside (call name type args) fun result => ∀ r ∈ result, B.Owns r := by
  match args with
  | [] =>
    rw [call]
    exact levels_callAligned name type
  | [a] =>
    rw [call]
    exact (hargs a List.mem_cons_self outside).bind fun r _ => levels_callFunction r name type
  | first :: second :: others =>
    intro s e result e' hB hexec
    rw [call] at hexec
    · obtain ⟨r, e1, h1, hexec⟩ := exec_bind_eq_ok hexec
      obtain ⟨_, e2, h2, hexec⟩ := exec_bind_eq_ok hexec
      obtain ⟨views, e3, h3, h4⟩ := exec_bind_eq_ok hexec
      obtain ⟨ha, hothers⟩ := List.forall_mem_cons.mp hargs
      obtain ⟨hr, hB1, hlevel⟩ := ha outside hB h1
      obtain ⟨hB2, hpush, hcount⟩ := moved_pushArgument r hB1 h2 fun _ => False
      obtain ⟨hB3, hrest, hrestCount⟩ := moved_pushAll hothers hB2 h3 fun _ => False
      obtain ⟨hresult, hB4, hcall, hcallCount⟩ := moved_callPushed hB3 h4 fun _ => False
      have hlevelCount := hlevel.pushed
      rw [List.length_cons] at hcallCount
      have hfirst := hlevel.toMoved.trans hpush (by omega) fun _ => False.elim
      have hpushes := hfirst.trans hrest (by omega) fun _ => False.elim
      exact ⟨hresult, hB4, hpushes.trans hcall (by omega) fun _ => False.elim, by omega⟩
    · simp

/-- Every expression leaves the stack where it was, and goes to the objects that it mentions. -/
theorem balanced (t : Typed.Expr) (h : ∀ o ∈ t.symbols, B.places.Admits o) : Balanced B t := by
  induction t using Typed.Expr.induct with
  | literal v =>
    intro outside
    rw [expr]
    exact (quiet_loadImmediate v).levels
  | object o =>
    intro outside
    rw [expr]
    exact (quiet_loadSymbol (h o (by simp [Typed.Expr.symbols, Typed.Place.symbols]))).levels
  | pointee a pointer ha =>
    intro outside
    rw [expr]
    exact (ha h outside).bind fun r _ => (quiet_dereference r pointer).levels
  | addressOf o type =>
    intro outside
    rw [expr]
    exact (quiet_addressOf (h o (by simp [Typed.Expr.symbols]))).levels
  | unary op t type ht =>
    intro outside
    rw [expr]
    split
    · exact levels_throw _
    · exact (ht h outside).bind fun r _ => (quiet_unary r _).levels
  | binary op l r type hl hr =>
    intro outside
    rw [Typed.Expr.symbols, List.forall_mem_append] at h
    rw [expr]
    exact (hl h.1 outside).bind fun lr _ => (hr h.2 outside).bind fun rr _ => levels_combine op lr rr
  | logical op l r hl hr =>
    rw [Typed.Expr.symbols, List.forall_mem_append] at h
    exact balanced_logical op (hl h.1) (hr h.2)
  | assignObject o v hv =>
    intro outside
    rw [Typed.Expr.symbols, Typed.Place.symbols, List.forall_mem_append, List.forall_mem_singleton] at h
    rw [expr]
    exact (hv h.2 outside).bind fun r hr => (quiet_storeSymbol r h.1).levels.andThen fun _ => levels_pure hr
  | assignPointee a pointer v ha hv =>
    intro outside
    rw [Typed.Expr.symbols, Typed.Place.symbols, List.forall_mem_append] at h
    rw [expr]
    refine (hv h.2 outside).bind fun r hr => (ha h.1 outside).bind fun ar _ => ?_
    exact (quiet_storeIndirect r ar pointer).levels.andThen fun _ => levels_pure hr
  | step o increment after =>
    intro outside
    rw [expr]
    exact (quiet_step (h o (by simp [Typed.Expr.symbols])) increment after).levels
  | call name args type hargs =>
    intro outside
    rw [Typed.Expr.symbols] at h
    have hall : ∀ a ∈ args, Balanced B a := fun a ha =>
      hargs a ha fun o ho => h o (Typed.mem_symbolsAll.2 ⟨a, ha, ho⟩)
    rw [expr]
    refine (levels_call name type hall outside).bind fun result hresult => ?_
    cases result with
    | none => exact levels_throw _
    | some r => exact levels_pure (hresult r rfl)
  | convert t source target ht =>
    intro outside
    rw [expr]
    exact (ht h outside).bind fun r _ => (quiet_convert r source target).levels
  | offset p c element subtract hp hc =>
    intro outside
    rw [Typed.Expr.symbols, List.forall_mem_append] at h
    rw [expr]
    refine (hp h.1 outside).bind fun base _ => (hc h.2 outside).bind fun index hindex => ?_
    have haddress : ∀ r, B.Owns r → Levels B outside (elementAddress base r element) B.Owns :=
      fun r _ => (quiet_elementAddress base r element).levels
    cases subtract with
    | true => exact (quiet_unary index .negate).levels.bind haddress
    | false => exact (levels_pure hindex).bind haddress

theorem level_of_expr {t : Typed.Expr} {r : Reg} (h : exec (expr t) s e = (.ok r, e')) (outside : String → Prop) :
    Level .anywhere outside e e' :=
  (balanced t (fun o _ => X86.admits_anywhere o) outside (Bounds.suit_anywhere s e) h).2.2

end Bounds

section Conditions

variable {B : Bounds} {outside : String → Prop}

theorem steady_discard {t : Typed.Expr} (h : ∀ o ∈ t.symbols, B.places.Admits o) :
    Steady B outside (discard t) := by
  unfold discard
  split
  · rename_i name args type
    rw [Typed.Expr.symbols] at h
    have hall : ∀ a ∈ args, Balanced B a := fun a ha =>
      balanced a fun o ho => h o (Typed.mem_symbolsAll.2 ⟨a, ha, ho⟩)
    refine (levels_call name type hall outside).bind fun result hresult => ?_
    cases result with
    | none => exact steady_pure _
    | some r =>
      have := hresult r rfl
      exact (quiet_free r).levels
  · exact (balanced _ h outside).bind fun r _ => (quiet_free r).levels

/-! ### Conditions -/

section Target

variable {target : String} (ho : outside target) (hne : target ≠ unorderedTarget)
include ho hne

theorem steady_test {t : Typed.Expr} (ht : Balanced B t) (relation : Relation) :
    Steady B outside (do testAndJump relation (← expr t) target) :=
  (ht outside).bind fun r _ => steady_testAndJump ho hne relation r

/-- A float comparison that holds goes past the jump to the target. -/
theorem steady_floatComparison (relation : Relation) {l r : Typed.Expr} (hl : Balanced B l)
    (hr : Balanced B r) :
    Steady B outside (do
      let id ← freshId "fcmp"
      let taken := controlLabel "fcmp" id "true"
      let l ← expr l
      let r ← expr r
      compareAndJump relation l r taken
      jump target
      label taken) := by
  intro s e a e' hB hexec
  obtain ⟨id, e1, h1, hexec⟩ := exec_bind_eq_ok hexec
  obtain ⟨lr, e2, h2, hexec⟩ := exec_bind_eq_ok hexec
  obtain ⟨rr, e3, h3, hexec⟩ := exec_bind_eq_ok hexec
  obtain ⟨_, e4, h4, hexec⟩ := exec_bind_eq_ok hexec
  obtain ⟨_, e5, h5, h6⟩ := exec_bind_eq_ok hexec
  rw [exec_label] at h6
  cases h6
  obtain ⟨hlevel, hpending⟩ := level_freshId h1 (by decide) (upTo outside (controlLabel "fcmp" id "true"))
  have hp := hpending "true" (by decide)
  have hpn := Emitter.ne_unorderedTarget hp.named
  have htaken : upTo outside (controlLabel "fcmp" id "true") (controlLabel "fcmp" id "true") := .inr rfl
  obtain ⟨hlr, hB2, hleft⟩ := hl (upTo outside (controlLabel "fcmp" id "true")) (suit_freshId hB h1) h2
  obtain ⟨hrr, hB3, hright⟩ := hr (upTo outside (controlLabel "fcmp" id "true")) hB2 h3
  obtain ⟨-, hB4, hcompare⟩ := steady_compareAndJump htaken hpn relation lr rr hB3 h4
  have hout : upTo outside (controlLabel "fcmp" id "true") target := .inl ho
  obtain ⟨-, hB5, hjump⟩ := steady_jump hout hne hB4 h5
  have hbody := hleft.trans (hright.trans (hcompare.trans hjump))
  exact ⟨trivial, ⟨hB5.taken, hB5.pool⟩, (hlevel.trans hbody).label (hp.step hbody.grows)⟩

omit ho hne in
theorem steady_either {l : Typed.Expr} (hl : Balanced B l) {m : Emit Unit}
    (hm : ∀ outside', (∀ l, outside l → outside' l) → Steady B outside' m) :
    Steady B outside (do
      let id ← freshId "or"
      let taken := controlLabel "or" id "true"
      let l ← expr l
      jumpIfNotZero l taken
      m
      label taken) := by
  intro s e a e' hB hexec
  obtain ⟨id, e1, h1, hexec⟩ := exec_bind_eq_ok hexec
  obtain ⟨lr, e2, h2, hexec⟩ := exec_bind_eq_ok hexec
  obtain ⟨_, e3, h3, hexec⟩ := exec_bind_eq_ok hexec
  obtain ⟨_, e4, h4, h5⟩ := exec_bind_eq_ok hexec
  rw [exec_label] at h5
  cases h5
  obtain ⟨hlevel, hpending⟩ := level_freshId h1 (by decide) (upTo outside (controlLabel "or" id "true"))
  have hp := hpending "true" (by decide)
  have hpn := Emitter.ne_unorderedTarget hp.named
  have htaken : upTo outside (controlLabel "or" id "true") (controlLabel "or" id "true") := .inr rfl
  obtain ⟨hlr, hB2, hleft⟩ := hl (upTo outside (controlLabel "or" id "true")) (suit_freshId hB h1) h2
  obtain ⟨-, hB3, htest⟩ := steady_testAndJump htaken hpn .ne lr hB2 h3
  obtain ⟨-, hB4, hright⟩ := hm (upTo outside (controlLabel "or" id "true")) (fun _ => .inl) hB3 h4
  have hbody := hleft.trans (htest.trans hright)
  exact ⟨trivial, ⟨hB4.taken, hB4.pool⟩, (hlevel.trans hbody).label (hp.step hbody.grows)⟩

omit ho in
/-- A condition leaves the stack where it was, whether it jumps or goes on. -/
theorem steady_condition (t : Typed.Expr) (h : ∀ o ∈ t.symbols, B.places.Admits o) {outside : String → Prop}
    (ho : outside target) : Steady B outside (condition t target) := by
  induction t using Typed.Expr.induct generalizing outside with
  | binary op l r type _ _ =>
    have hops := h
    rw [Typed.Expr.symbols, List.forall_mem_append] at hops
    have hl := balanced l hops.1
    have hr := balanced r hops.2
    rw [condition]
    split
    · exact steady_test ho hne (balanced _ h) .eq
    · split
      · exact steady_floatComparison ho hne _ hl hr
      · exact (hl outside).bind fun lr _ => (hr outside).bind fun rr _ => steady_compareAndJump ho hne _ lr rr
  | logical op l r hl hr =>
    have hops := h
    rw [Typed.Expr.symbols, List.forall_mem_append] at hops
    cases op with
    | logicalAnd =>
      rw [condition]
      exact (hl hops.1 ho).andThen fun _ => hr hops.2 ho
    | logicalOr =>
      rw [condition]
      exact steady_either (balanced l hops.1) fun outside' himp => hr hops.2 (himp _ ho)
    | _ =>
      rw [condition]
      all_goals first | exact steady_test ho hne (balanced _ h) .eq | simp
  | _ =>
    rw [condition]
    all_goals first | exact steady_test ho hne (balanced _ h) .eq | simp

end Target

end Conditions

/-! ### Parts of statements -/

section Parts

variable {B : Bounds} {outside : String → Prop}

theorem steady_print {value : Typed.Expr} (h : ∀ o ∈ value.symbols, B.places.Admits o) :
    Steady B outside (print value) := by
  have hcall : ∀ routine : String, Steady B outside (do
      let r ← expr value
      let _ ← callFunction routine (some r) .void) := fun routine =>
    (balanced value h outside).bind fun r _ => (levels_callFunction r routine .void).andThen fun _ => steady_pure _
  have hlength : ∀ (routine : String) (length : Nat), Steady B outside (do
      let address ← expr value
      printArray address routine length) := fun routine length =>
    (balanced value h outside).bind fun r _ => steady_printArray r routine length
  unfold print
  dsimp only
  split
  · exact hlength "printarray" _
  · exact hlength "printfloatarray" _
  · exact hcall "printstring"
  · exact levels_throw _
  · exact hcall "printint"
  · exact hcall "printchar"
  · exact hcall "printlong"
  · exact hcall "printfloat"
  · exact hcall "printstring"
  · exact hcall "printlong"
  · exact levels_throw _

theorem quiet_zero (element : Scalar) : Quiet B (zero element) B.Owns := by
  unfold zero
  split
  · exact quiet_loadImmediate _
  · exact quiet_loadImmediate _
  · exact quiet_loadImmediate _
  · exact (quiet_loadImmediate _).bind fun r _ => quiet_convert r .long .float

theorem steady_storeElements {o : Symbol} (ho : B.places.Admits o) (index : Nat) {values : List Typed.Expr}
    (h : ∀ o ∈ Typed.symbolsAll values, B.places.Admits o) :
    Steady B outside (storeElements o index values) := by
  induction values generalizing index with
  | nil =>
    rw [storeElements]
    exact steady_pure _
  | cons value values ih =>
    rw [Typed.symbolsAll, List.forall_mem_append] at h
    rw [storeElements]
    refine (balanced value h.1 outside).bind fun r _ => (quiet_storeElement r ho index).levels.andThen fun _ => ?_
    exact (quiet_free r).levels.andThen fun _ => ih (index + 1) h.2

theorem quiet_fillElements (r : Reg) [B.Owns r] {o : Symbol} (h : B.places.Admits o)
    (index count : Nat) : Still B (fillElements r o index count) := by
  induction count generalizing index with
  | zero => exact quiet_pure trivial
  | succ count ih =>
    rw [fillElements]
    exact (quiet_storeElement r h index).andThen fun _ => ih (index + 1)

theorem steady_localInit {o : Symbol} (ho : B.places.Admits o) {init : Typed.LocalInit}
    (h : ∀ o ∈ init.symbols, B.places.Admits o) : Steady B outside (localInit o init) := by
  cases init with
  | scalar value =>
    refine (balanced value h outside).bind fun r _ => (quiet_storeSymbol r ho).levels.andThen fun _ => ?_
    exact (quiet_free r).levels
  | elements values =>
    unfold localInit
    dsimp only
    split
    · refine (steady_storeElements ho 0 h).andThen fun _ => ?_
      split
      · refine (quiet_zero _).levels.bind fun r _ => (quiet_fillElements r ho _ _).levels.andThen fun _ => ?_
        exact (quiet_free r).levels
      · exact steady_pure _
    · exact levels_throw _

theorem returnLabel_ne_unorderedTarget (name : String) : returnLabel name ≠ unorderedTarget := by
  intro heq
  have hlist := congrArg String.toList heq
  rw [toList_returnLabel] at hlist
  cases hlist

theorem steady_ret {f : Routine} (ho : outside (returnLabel f.name)) {value : Option Typed.Expr}
    (h : ∀ o ∈ Typed.symbolsOption value, B.places.Admits o) : Steady B outside (ret f value) := by
  have hjump : Steady B outside (jump (returnLabel f.name)) :=
    steady_jump ho (returnLabel_ne_unorderedTarget f.name)
  cases value with
  | none => exact hjump
  | some value =>
    have hvalue := balanced value fun o ho => h o (Typed.mem_symbolsOption.2 ⟨value, rfl, ho⟩)
    exact (hvalue outside).bind fun r _ => (quiet_returnValue r f.result).levels.andThen fun _ => hjump

theorem steady_optionalCondition {c : Option Typed.Expr} (h : ∀ o ∈ Typed.symbolsOption c, B.places.Admits o)
    {target : String} (ho : outside target) (hne : target ≠ unorderedTarget) :
    Steady B outside (optionalCondition c target) := by
  cases c with
  | none => exact steady_pure _
  | some c => exact steady_condition hne c (fun o ho => h o (Typed.mem_symbolsOption.2 ⟨c, rfl, ho⟩)) ho

theorem steady_optionalDiscard {t : Option Typed.Expr} (h : ∀ o ∈ Typed.symbolsOption t, B.places.Admits o) :
    Steady B outside (optionalDiscard t) := by
  cases t with
  | none => exact steady_pure _
  | some t => exact steady_discard fun o ho => h o (Typed.mem_symbolsOption.2 ⟨t, rfl, ho⟩)

end Parts

/-! ### Statements -/

/-- A located operation that leaves the stack where it was, and whose lines stay within some places. -/
def LevelsAt {α : Type} (R : Places) (outside : String → Prop) (m : Located α) : Prop :=
  ∀ ⦃s e a e'⦄, R.Pooled s.pool → perform m s e = (.ok a, e') → Level (.within R) outside e e'

section Statements

variable {α β : Type} {R : Places} {outside : String → Prop} {f : Routine} {s : Setting} {e e1 e2 e' : Emitter}

theorem LevelsAt.located {m : Emit α} (h : Steady (.within R) outside m) (place : Location) :
    LevelsAt R outside (located place m) :=
  fun _ _ _ _ hpool hperform => (h ⟨fun _ => False.elim, hpool⟩ (exec_of_perform hperform)).2.2

theorem LevelsAt.bind {m : Located α} {g : α → Located β} (h : LevelsAt R outside m)
    (hg : ∀ a, LevelsAt R outside (g a)) : LevelsAt R outside (m >>= g) := by
  intro s e b e' hpool hperform
  obtain ⟨a, e1, h1, h2⟩ := perform_bind_eq_ok hperform
  exact (h hpool h1).trans (hg a hpool h2)

theorem levelsAt_pure (a : α) : LevelsAt R outside (pure a : Located α) := by
  intro s e b e' _ hperform
  cases hperform
  exact Level.refl outside e

theorem levelsAt_finish (place : Location) : LevelsAt R outside (finish place) :=
  .located (quiet_releaseLeaks _).levels place

theorem levelsAt_single {m : Emit Unit} (h : Steady (.within R) outside m) (place : Location) :
    LevelsAt R outside (do located place m; finish place) :=
  (LevelsAt.located h place).bind fun _ => levelsAt_finish place

/-- A statement leaves the stack where it was, and jumps nowhere but to the end of its function. -/
def BalancedStmt (R : Places) (f : Routine) (st : Typed.Stmt) : Prop :=
  ∀ outside : String → Prop, outside (returnLabel f.name) → LevelsAt R outside (stmt f st)

theorem levelsAt_stmts {body : List Typed.Stmt} (h : ∀ st ∈ body, BalancedStmt R f st)
    (ho : outside (returnLabel f.name)) : LevelsAt R outside (stmts f body) := by
  induction body with
  | nil =>
    rw [stmts]
    exact levelsAt_pure ()
  | cons st body ih =>
    rw [stmts]
    exact (h st List.mem_cons_self outside ho).bind fun _ =>
      ih fun st' hst' => h st' (List.mem_cons_of_mem _ hst')

theorem levelsAt_optionalStmt {st : Option Typed.Stmt} (h : ∀ st' ∈ st, BalancedStmt R f st')
    (ho : outside (returnLabel f.name)) : LevelsAt R outside (optionalStmt f st) := by
  cases st with
  | none =>
    rw [optionalStmt]
    exact levelsAt_pure ()
  | some st =>
    rw [optionalStmt]
    exact h st rfl outside ho

/-- A loop: the label of its start is defined before the rounds, the one of its end after them. -/
theorem level_rounds {B : Bounds} {kind : String} {id : Nat} (hkind : kind ∈ constructs)
    (hfresh : exec (freshId kind) s e = (.ok id, e1))
    (h : ∀ inside : String → Prop, (∀ l, outside l → inside l) →
      inside (controlLabel kind id "start") ∧ controlLabel kind id "start" ≠ unorderedTarget →
      inside (controlLabel kind id "end") ∧ controlLabel kind id "end" ≠ unorderedTarget →
      Level B inside (e1.append [.label (controlLabel kind id "start")]) e2) :
    Level B outside e (e2.append [.label (controlLabel kind id "end")]) := by
  obtain ⟨htext, hholding, hpending⟩ := of_freshId hfresh hkind
  have hpstart := hpending "start" (by decide)
  have hpstop := hpending "end" (by decide)
  have hround := h (upTo (upTo outside (controlLabel kind id "end")) (controlLabel kind id "start"))
    (fun _ ho => .inl (.inl ho)) ⟨.inr rfl, Emitter.ne_unorderedTarget hpstart.named⟩
    ⟨.inl (.inr rfl), Emitter.ne_unorderedTarget hpstop.named⟩
  have hrounds : Level B (upTo outside (controlLabel kind id "end")) e e2 := by
    refine Level.loop hround ?_ hpstart.named hholding.labels hholding.pushed
    simp [htext]
  have hne : controlLabel kind id "end" ≠ controlLabel kind id "start" :=
    labels_ne hkind id (by decide)
  exact hrounds.label ((hpstop.label hpstart hne).step hround.grows)

theorem balanced_whileLoop {c : Typed.Expr} {body : Typed.Stmt} (place : Location)
    (hc : ∀ o ∈ c.symbols, R.Admits o) (hbody : BalancedStmt R f body) :
    BalancedStmt R f (.whileLoop c body place) := by
  intro outside ho s e a e' hpool hperform
  rw [stmt] at hperform
  obtain ⟨id, e1, h1, hperform⟩ := perform_bind_eq_ok hperform
  obtain ⟨_, e2, h2, hperform⟩ := perform_bind_eq_ok hperform
  obtain ⟨_, e3, h3, hperform⟩ := perform_bind_eq_ok hperform
  obtain ⟨_, e4, h4, hperform⟩ := perform_bind_eq_ok hperform
  obtain ⟨_, e5, h5, hperform⟩ := perform_bind_eq_ok hperform
  obtain ⟨_, e6, h6, h7⟩ := perform_bind_eq_ok hperform
  obtain rfl := perform_label h2
  obtain rfl := perform_label h6
  -- both labels of the loop may be jumped to from inside it
  refine (level_rounds (by decide) (exec_of_perform h1) fun inside hin hstart hstop => ?_).trans
    (levelsAt_finish place hpool h7)
  refine (LevelsAt.located (steady_condition hstop.2 c hc hstop.1) place hpool h3).trans ?_
  refine (hbody _ (hin _ ho) hpool h4).trans ?_
  exact LevelsAt.located (steady_jump hstart.1 hstart.2) place hpool h5

theorem balanced_forLoop {init : Option Typed.Stmt} {c update : Option Typed.Expr} {body : Typed.Stmt}
    (place : Location) (hinit : ∀ st ∈ init, BalancedStmt R f st)
    (hc : ∀ o ∈ Typed.symbolsOption c, R.Admits o) (hu : ∀ o ∈ Typed.symbolsOption update, R.Admits o)
    (hbody : BalancedStmt R f body) : BalancedStmt R f (.forLoop init c update body place) := by
  intro outside ho s e a e' hpool hperform
  rw [stmt] at hperform
  obtain ⟨_, e0, h0, hperform⟩ := perform_bind_eq_ok hperform
  obtain ⟨id, e1, h1, hperform⟩ := perform_bind_eq_ok hperform
  obtain ⟨_, e2, h2, hperform⟩ := perform_bind_eq_ok hperform
  obtain ⟨_, e3, h3, hperform⟩ := perform_bind_eq_ok hperform
  obtain ⟨_, e4, h4, hperform⟩ := perform_bind_eq_ok hperform
  obtain ⟨_, e5, h5, hperform⟩ := perform_bind_eq_ok hperform
  obtain ⟨_, e6, h6, hperform⟩ := perform_bind_eq_ok hperform
  obtain ⟨_, e7, h7, h8⟩ := perform_bind_eq_ok hperform
  obtain rfl := perform_label h2
  obtain rfl := perform_label h7
  -- the first part is not in the loop
  refine (levelsAt_optionalStmt hinit ho hpool h0).trans ((level_rounds (by decide) (exec_of_perform h1)
    fun inside hin hstart hstop => ?_).trans (levelsAt_finish place hpool h8))
  refine (LevelsAt.located (steady_optionalCondition hc hstop.1 hstop.2) place hpool h3).trans ?_
  refine (hbody _ (hin _ ho) hpool h4).trans ?_
  refine (LevelsAt.located (steady_optionalDiscard hu) place hpool h5).trans ?_
  exact LevelsAt.located (steady_jump hstart.1 hstart.2) place hpool h6

theorem balanced_cond {c : Typed.Expr} {thenBranch : Typed.Stmt} {elseBranch : Option Typed.Stmt}
    (place : Location) (hc : ∀ o ∈ c.symbols, R.Admits o) (hthen : BalancedStmt R f thenBranch)
    (helse : ∀ st ∈ elseBranch, BalancedStmt R f st) :
    BalancedStmt R f (.cond c thenBranch elseBranch place) := by
  intro outside ho s e a e' hpool hperform
  rw [stmt] at hperform
  obtain ⟨id, e1, h1, hperform⟩ := perform_bind_eq_ok hperform
  obtain ⟨_, e2, h2, hperform⟩ := perform_bind_eq_ok hperform
  obtain ⟨_, e3, h3, hperform⟩ := perform_bind_eq_ok hperform
  obtain ⟨_, e4, h4, hperform⟩ := perform_bind_eq_ok hperform
  obtain ⟨_, e5, h5, hperform⟩ := perform_bind_eq_ok hperform
  obtain ⟨_, e6, h6, hperform⟩ := perform_bind_eq_ok hperform
  obtain ⟨_, e7, h7, h8⟩ := perform_bind_eq_ok hperform
  obtain rfl := perform_label h3
  obtain rfl := perform_label h6
  obtain rfl := perform_label h8
  have hkind : "if" ∈ constructs := by decide
  obtain ⟨hlevel, hpending⟩ := level_freshId (exec_of_perform h1) hkind
    (upTo (upTo outside (controlLabel "if" id "end")) (controlLabel "if" id "false"))
  have hnfalse := Emitter.ne_unorderedTarget (hpending "false" (by decide)).named
  have hnstop := Emitter.ne_unorderedTarget (hpending "end" (by decide)).named
  -- the condition, and the label of the first branch, which nothing jumps to
  have hcond : Level (.within R) (upTo (upTo outside (controlLabel "if" id "end")) (controlLabel "if" id "false")) e1 e2 :=
    LevelsAt.located (steady_condition hnfalse c hc (.inr rfl)) place hpool h2
  have hp2 := fun role hrole => (hpending role hrole).step hcond.grows
  have hopened := ((hlevel.trans hcond).mono fun _ => .inl).label (hp2 "then" (by decide))
  -- the first branch, up to the jump past the second
  have hbranch : Level (.within R) (upTo (upTo outside (controlLabel "if" id "end")) (controlLabel "if" id "false")) _
      e5 :=
    (hthen _ (.inl (.inl ho)) hpool h4).trans
      (LevelsAt.located (steady_jump (.inl (.inr rfl)) hnstop) place hpool h5)
  have hp5 := fun role hrole (hne : role ≠ "then") =>
    ((hp2 role hrole).label (hp2 "then" (by decide)) (labels_ne hkind id hne)).step hbranch.grows
  have hpfalse := hp5 "false" (by decide) (by decide)
  have hpstop := hp5 "end" (by decide) (by decide)
  have hfirst : Level (.within R) (upTo outside (controlLabel "if" id "end")) e _ :=
    (hopened.trans hbranch).label hpfalse
  -- the second branch
  have hsecond : Level (.within R) (upTo outside (controlLabel "if" id "end")) _ e7 :=
    levelsAt_optionalStmt helse (.inl ho) hpool h7
  have hne : controlLabel "if" id "end" ≠ controlLabel "if" id "false" :=
    labels_ne hkind id (by decide)
  exact (hfirst.trans hsecond).label ((hpstop.label hpfalse hne).step hsecond.grows)

/-- Every statement leaves the stack where it was, and goes to the objects that it mentions. -/
theorem balancedStmt (f : Routine) (st : Typed.Stmt) (h : ∀ o ∈ st.symbols, R.Admits o) : BalancedStmt R f st := by
  induction st using Typed.Stmt.induct with
  | block body hbody =>
    intro outside ho
    rw [Typed.Stmt.symbols] at h
    rw [stmt]
    exact levelsAt_stmts (fun st hst => hbody st hst fun o ho => h o (Typed.mem_stmtSymbols.2 ⟨st, hst, ho⟩)) ho
  | print t place =>
    intro outside ho
    rw [stmt]
    exact levelsAt_single (steady_print h) place
  | declare o init place =>
    intro outside ho
    rw [Typed.Stmt.symbols, List.forall_mem_cons] at h
    cases init with
    | none =>
      rw [stmt]
      exact (levelsAt_pure ()).bind fun _ => levelsAt_finish place
    | some init =>
      rw [stmt]
      exact levelsAt_single (steady_localInit h.1 h.2) place
  | expr t place =>
    intro outside ho
    rw [stmt]
    exact levelsAt_single (steady_discard h) place
  | cond c thenBranch elseBranch place hthen helse =>
    rw [Typed.Stmt.symbols, List.forall_mem_append, List.forall_mem_append] at h
    exact balanced_cond place h.1.1 (hthen h.1.2) fun st hst =>
      helse st hst fun o ho => h.2 o (Typed.mem_stmtSymbolsOption.2 ⟨st, hst, ho⟩)
  | whileLoop c body place hbody =>
    rw [Typed.Stmt.symbols, List.forall_mem_append] at h
    exact balanced_whileLoop place h.1 (hbody h.2)
  | forLoop init c update body place hinit hbody =>
    rw [Typed.Stmt.symbols, List.forall_mem_append, List.forall_mem_append, List.forall_mem_append] at h
    obtain ⟨⟨⟨hi, hc⟩, hu⟩, hb⟩ := h
    exact balanced_forLoop place (fun st hst =>
      hinit st hst fun o ho => hi o (Typed.mem_stmtSymbolsOption.2 ⟨st, hst, ho⟩)) hc hu (hbody hb)
  | ret value place =>
    intro outside ho
    rw [stmt]
    exact levelsAt_single (steady_ret ho h) place
  | empty =>
    intro outside ho
    rw [stmt]
    exact levelsAt_pure ()

end Statements

end MiniC.Lower
