import MiniC.Proofs.Lower.ExprValue
import MiniC.Proofs.Lower.StmtOutcome
import MiniC.Proofs.Typed.Variables

/-!
# What the code of statements does

The code of a well-typed statement over integer expressions does what the statement does: run from any
machine, it is left in the way the statement ends, at its own end or by a jump to the end of the function
with the result in the register for it, and with the memory that the statement leaves.

The induction is on how the statement is executed, so a loop may go round any number of times. A jump out
of a statement goes to a label that is older than the statement: this is why the labels of the statements
around it are never mistaken for its own.
-/

set_option autoImplicit false

namespace MiniC.Lower

open Emit
open MiniC.Emitter (Holding Grows Pending)
open MiniC.X86 (Machine Layout Memory Exit Fits Line)
open Typed (Vocabulary eval memory Exec Ending)

/-! ### Conditions -/

/-- What was appended between two states jumps if an expression is zero. -/
def Decides (D : Layout) (t : Typed.Expr) (target : String) (e e' : Emitter) : Prop :=
  ∀ ⦃m v mem⦄, eval (memory D (m.regs .rbp)) t m.mem = .ok (v, mem) →
    Executes D e e' m (Turns (v == 0) target (Passed e mem m))

section Conditions

variable {V : Vocabulary} {D : Layout} {s : Setting} {e e' : Emitter} {target : String}

theorem decides_value {t : Typed.Expr} (hwt : t.WellTyped V) (hi : t.isIntegral = true)
    (h : exec (do let r ← expr t; jumpIfZero r target) s e = (.ok (), e')) :
    Decides D t target e e' := by
  intro m v mem hv
  obtain ⟨r, e1, h1, h2⟩ := exec_bind_eq_ok h
  exact (compiled_test (compiled V D t) hwt hi (.inl rfl) h1 h2).2 hv

theorem holds_negate (relation : Relation) (a b : Int) :
    relation.negate.holds a b = !relation.holds a b := by
  rw [Bool.eq_iff_iff]
  cases relation <;> simp [Relation.negate, Relation.holds]

theorem truth_eq_zero (b : Bool) : (Typed.truth b == 0) = !b := by
  cases b <;> rfl

theorem decides_comparison {op : BinaryOp} {relation : Relation} (hrel : op.relation? = some relation)
    {tl tr : Typed.Expr} {type : CType} (hwt : (Typed.Expr.binary op tl tr type).WellTyped V)
    (hi : tl.isIntegral = true ∧ tr.isIntegral = true)
    (h : exec (do
      let l ← expr tl
      let r ← expr tr
      compareAndJump relation.negate l r target) s e = (.ok (), e')) :
    Decides D (.binary op tl tr type) target e e' := by
  intro m v mem hv
  obtain ⟨l, e1, h1, h⟩ := exec_bind_eq_ok h
  obtain ⟨r, e2, h2, h3⟩ := exec_bind_eq_ok h
  rw [eval] at hv
  obtain ⟨⟨a, mem1⟩, ha, hv1⟩ := Typed.bind_eq_ok hv
  obtain ⟨⟨b, mem2⟩, hb, hv2⟩ := Typed.bind_eq_ok hv1
  simp only [Typed.combine, hrel] at hv2
  cases hv2
  obtain ⟨hlwt, hrwt, -, -, hsame, -, -⟩ := of_wellTyped_binary hwt
  have hl := held_of_exec hlwt hi.1 h1
  have hr := held_of_exec hrwt hi.2 h2
  have hlt : e2.Takes l.cell := hr.holding.takes_of_takes hl.takes
  have hviews : l.view = r.view := by rw [hl.view, hr.view, hsame]
  have hfa : Fits a := Scalar.wrap_long_of_wrap hl.integer (Typed.wrap_of_eval hlwt ha)
  have hfb : Fits b := Scalar.wrap_long_of_wrap hr.integer (Typed.wrap_of_eval hrwt hb)
  have hboth := executes_operands hl hr (compiled V D tl hlwt hi.1 h1)
    (compiled V D tr hrwt hi.2 h2) ha hb
  have hgrows : Grows e2 e' := by
    rw [exec_compareAndJump hlt hr.takes (cell_ne_of_held hl hr), if_pos hviews,
      if_neg hl.ne_float] at h3
    cases h3
    exact .of_emit rfl rfl
  refine hboth.andThen (hl.holding.grows.trans hr.holding.grows) hgrows fun m2 hm2 => ?_
  obtain ⟨hd, hbreg⟩ := hm2
  refine (executes_compareAndJump hlt hr.takes (cell_ne_of_held hl hr) hviews hl.ne_float h3 hfa hfb
    hd.value hbreg).mono ?_
  rintro x m3 ⟨rfl, hregs, hmem⟩
  rw [truth_eq_zero, ← holds_negate]
  exact ⟨rfl, hd.passed hregs hmem⟩

theorem decides_and {tl tr : Typed.Expr} {e1 : Emitter} (hl : Decides D tl target e e1)
    (hr : Decides D tr target e1 e') (h1 : Holding [] 0 e e1) (h2 : Grows e1 e') :
    Decides D (.logical .logicalAnd tl tr) target e e' := by
  intro m v mem hv
  rw [eval] at hv
  obtain ⟨⟨a, mem1⟩, ha, hv1⟩ := Typed.bind_eq_ok hv
  simp only [Typed.decisive?] at hv1
  refine (hl ha).trans h1.grows h2 (fun m1 hQ => ?_) fun l m1 hQ => ?_
  · obtain ⟨hnot, hpassed⟩ := hQ.of_next
    have hne : ¬ (a != 0) = false := by
      rw [bne, hnot]
      decide
    rw [if_neg hne] at hv1
    obtain ⟨⟨b, mem2⟩, hb, hv2⟩ := Typed.bind_eq_ok hv1
    cases hv2
    refine (hr ((hpassed.eval_eq tr).trans hb)).mono ?_
    rintro x m2 ⟨rfl, hpassed'⟩
    rw [truth_eq_zero, bne, Bool.not_not]
    exact ⟨rfl, hpassed.trans hpassed' fun _ hc => h1.takes_of_takes hc⟩
  · obtain ⟨hzero, rfl, hpassed⟩ := hQ.of_jump
    have heq : (a != 0) = false := by
      rw [bne, hzero]
      rfl
    rw [if_pos heq] at hv1
    cases hv1
    exact ⟨rfl, hpassed⟩

/-- The left operand of `||` jumps past the test of the right one. -/
theorem decides_or {tl tr : Typed.Expr} {e1 e2 : Emitter} {taken : String}
    (hl : ∀ {m a mem}, eval (memory D (m.regs .rbp)) tl m.mem = .ok (a, mem) →
      Executes D e e1 m (Turns (a != 0) taken (Passed e mem m)))
    (hr : Decides D tr target e1 e2) (h1 : Holding [] 0 e e1) (h2 : Grows e1 e2)
    (htaken : Pending e e2 taken) (htarget : ¬ e.labels.From target) :
    Decides D (.logical .logicalOr tl tr) target e (e2.append [.label taken]) := by
  have hne : target ≠ taken := by
    rintro rfl
    exact htarget htaken.named.from
  intro m v mem hv
  rw [eval] at hv
  obtain ⟨⟨a, mem1⟩, ha, hv1⟩ := Typed.bind_eq_ok hv
  simp only [Typed.decisive?] at hv1
  -- before the label: it is reached at the end or by the jump, unless the whole is false
  have htests : Executes D e e2 m fun x m' =>
      x = .jump taken ∧ (v == 0) = false ∧ Passed e mem m m' ∨
        Turns (v == 0) target (Passed e mem m) x m' := by
    refine (hl ha).trans h1.grows h2 (fun m1 hQ => ?_) fun l m1 hQ => ?_
    · obtain ⟨hnot, hpassed⟩ := hQ.of_next
      have hfalse : ¬ (a != 0) = true := by
        rw [hnot]
        decide
      rw [if_neg hfalse] at hv1
      obtain ⟨⟨b, mem2⟩, hb, hv2⟩ := Typed.bind_eq_ok hv1
      cases hv2
      refine (hr ((hpassed.eval_eq tr).trans hb)).mono ?_
      rintro x m2 ⟨rfl, hpassed'⟩
      rw [truth_eq_zero, bne, Bool.not_not]
      exact .inr ⟨rfl, hpassed.trans hpassed' fun _ hc => h1.takes_of_takes hc⟩
    · obtain ⟨htrue, rfl, hpassed⟩ := hQ.of_jump
      rw [if_pos htrue] at hv1
      cases hv1
      exact .inl ⟨rfl, rfl, hpassed⟩
  refine htests.upTo htaken ?_ ?_ ?_
  · rintro m' (⟨hx, -⟩ | hturns)
    · cases hx
    · exact hturns
  · rintro m' (⟨-, hv, hpassed⟩ | hturns)
    · rw [hv]
      exact ⟨rfl, hpassed⟩
    · exact absurd hturns.of_jump.2.1.symm hne
  · rintro l m' hl' (⟨hx, -⟩ | hturns)
    · cases hx
      exact absurd rfl hl'
    · exact hturns

/-- The code of a condition jumps to a label if the condition is false. The label was there before: it
is none of those that the code defines. -/
theorem decides_condition {t : Typed.Expr} (hwt : t.WellTyped V) (hi : t.isIntegral = true)
    (htarget : ¬ e.labels.From target) (h : exec (condition t target) s e = (.ok (), e')) :
    Decides D t target e e' := by
  induction t using Typed.Expr.induct generalizing e e' with
  | binary op tl tr type =>
    have hparts := hi
    rw [Typed.Expr.isIntegral, Bool.and_eq_true] at hparts
    rw [condition] at h
    split at h
    · exact decides_value hwt hi h
    · rename_i relation hrel
      have hfloat : ¬ tl.type.isFloat = true := by
        have hword := isInteger_word (of_wellTyped_binary hwt).1 hparts.1
        intro hfloat
        cases htype : tl.type with
        | scalar k => cases k <;> simp_all [CType.isFloat, CType.word, Scalar.isInteger]
        | _ => simp [htype, CType.isFloat] at hfloat
      rw [if_neg hfloat] at h
      exact decides_comparison hrel hwt hparts h
  | logical op tl tr ihl ihr =>
    rw [Typed.Expr.isIntegral, Bool.and_eq_true] at hi
    cases hwt with
    | logical hop hlwt hrwt hlt hrt =>
      cases op with
      | logicalAnd =>
        rw [condition] at h
        obtain ⟨_, e1, h1, h2⟩ := exec_bind_eq_ok h
        have hhold := holding_of_condition h1
        have htarget' : ¬ e1.labels.From target := fun hfrom => htarget (hfrom.mono hhold.labels)
        exact decides_and (ihl hlwt hi.1 htarget h1) (ihr hrwt hi.2 htarget' h2) hhold
          (holding_of_condition h2).grows
      | logicalOr =>
        rw [condition] at h
        obtain ⟨id, e1, h1, h⟩ := exec_bind_eq_ok h
        obtain ⟨l, e2, h2, h⟩ := exec_bind_eq_ok h
        obtain ⟨_, e3, h3, h⟩ := exec_bind_eq_ok h
        obtain ⟨_, e4, h4, h5⟩ := exec_bind_eq_ok h
        rw [exec_label] at h5
        cases h5
        obtain ⟨htext, hnumber, hlabels⟩ := of_freshId h1 (by decide)
        obtain ⟨hholdl, hl⟩ := compiled_test (compiled V D tl) hlwt hi.1 (.inr rfl) h2 h3
        have hholdr := holding_of_condition h4
        have htarget' : ¬ e3.labels.From target := fun hfrom =>
          htarget (hfrom.mono (hnumber.trans hholdl).labels)
        have htaken := (hlabels "true" (by decide)).step (hholdl.trans hholdr).grows
        have hleft : ∀ {m a mem}, eval (memory D (m.regs .rbp)) tl m.mem = .ok (a, mem) →
            Executes D e e3 m (Turns (a != 0) (controlLabel "or" id "true") (Passed e mem m)) := by
          intro m a mem ha
          refine ((hl ha).numbered htext hnumber.labels).mono ?_
          rintro x m' ⟨rfl, hpassed⟩
          exact ⟨rfl, hpassed.mem, hpassed.keeps.mono fun _ hc => hnumber.takes_of_takes hc⟩
        exact decides_or hleft (ihr hrwt hi.2 htarget' h4) (hnumber.trans hholdl) hholdr.grows htaken
          htarget
      | _ => cases hop
  | call => cases hi
  | _ => exact decides_value hwt hi h

end Conditions

/-! ### How statements are left -/

/-- Where the code of a statement is left: a return jumps to the end of the function. -/
def exitOf (f : Routine) : Ending → Exit
  | .normal => .next
  | .returned _ => .jump (returnLabel f.name)

/-- The code of a statement has been run: it was left in the way the statement ends, and a value that is
returned is in the register for it. -/
structure Ends (e : Emitter) (f : Routine) (x : Ending) (mem : Memory) (m : Machine) (exit : Exit)
    (m' : Machine) : Prop where
  exit : exit = exitOf f x
  result : ∀ v, x = .returned (some v) → m'.regs .rax = BitVec.ofInt 64 v
  passed : Passed e mem m m'

namespace Ends

variable {e e1 : Emitter} {f : Routine} {x : Ending} {mem mem1 : Memory} {m m1 m' : Machine}
  {exit : Exit}

theorem of_passed (h : Passed e mem m m') : Ends e f .normal mem m .next m' :=
  ⟨rfl, nofun, h⟩

theorem of_next (h : Ends e f .normal mem m exit m') : exit = .next ∧ Passed e mem m m' :=
  ⟨h.exit, h.passed⟩

theorem after (h : Passed e mem1 m m1) (h' : Ends e1 f x mem m1 exit m')
    (htakes : ∀ c, e.Takes c → e1.Takes c) : Ends e f x mem m exit m' :=
  ⟨h'.exit, h'.result, h.trans h'.passed htakes⟩

/-- A jump out of a statement goes to no label that is named later. -/
theorem not_from {l : String} (h : Ends e f x mem m (.jump l) m') (c : LabelCounter) :
    ¬ c.From l := by
  cases x with
  | normal => cases h.exit
  | returned v =>
    cases h.exit
    exact c.not_from_returnLabel f.name

end Ends

/-! ### Parts of statements -/

section Parts

variable {V : Vocabulary} {D : Layout} {s : Setting} {e e' : Emitter} {m : Machine}
  {v : Int} {mem : Memory} {f : Routine}

theorem executes_discard {t : Typed.Expr} (hwt : t.WellTyped V) (hi : t.isIntegral = true)
    (h : exec (discard t) s e = (.ok (), e'))
    (hv : eval (memory D (m.regs .rbp)) t m.mem = .ok (v, mem)) :
    Executes D e e' m (Falls (Passed e mem m)) := by
  have hdiscard : discard t = (do free (← expr t)) := by
    cases t with
    | call => cases hi
    | _ => rfl
  rw [hdiscard] at h
  obtain ⟨r, e1, h1, h2⟩ := exec_bind_eq_ok h
  have hheld := held_of_exec hwt hi h1
  rw [exec_free hheld.takes] at h2
  cases h2
  refine (compiled V D t hwt hi h1 hv).mono ?_
  rintro x m' ⟨rfl, hd⟩
  exact ⟨rfl, hd.passed rfl rfl⟩

/-- An object is initialized by an assignment whose value is dropped. -/
theorem discard_of_localInit {o : Symbol} {t : Typed.Expr}
    (h : exec (localInit o (.scalar t)) s e = (.ok (), e')) :
    exec (discard (.assign (.object o) t)) s e = (.ok (), e') := by
  obtain ⟨r, e1, h1, h⟩ := exec_bind_eq_ok h
  obtain ⟨_, e2, h2, h3⟩ := exec_bind_eq_ok h
  have hassign : exec (expr (.assign (.object o) t)) s e = (.ok r, e2) := by
    rw [expr, exec_bind_ok h1, exec_bind_ok h2, exec_pure]
  show exec (do free (← expr (.assign (.object o) t))) s e = _
  rw [exec_bind_ok hassign, h3]

theorem executes_nothing (P : Machine → Prop) (h : P m) : Executes D e e m (Falls P) := by
  rw [Executes, Emitter.added_of_text_eq rfl]
  exact X86.Runs.nil ⟨rfl, h⟩

theorem executes_ret (h : exec (ret f none) s e = (.ok (), e')) :
    Executes D e e' m (Ends e f (.returned none) m.mem m) := by
  have hjump : exec (jump (returnLabel f.name)) s e = (.ok (), e') := h
  rw [exec_jump] at hjump
  cases hjump
  refine (executes_nothing (· = m) rfl).thenJump (.refl e) ?_ ?_
  · rintro m' ⟨-, rfl⟩
    exact ⟨rfl, nofun, rfl, .refl e m'⟩
  · rintro l m' ⟨hx, -⟩
    cases hx

/-- A return with a value puts it into the register for results. -/
theorem executes_retValue {t : Typed.Expr} (hwt : t.WellTyped V) (ht : t.Fits f.result)
    (hi : t.isIntegral = true) (h : exec (ret f (some t)) s e = (.ok (), e'))
    (hv : eval (memory D (m.regs .rbp)) t m.mem = .ok (v, mem)) :
    Executes D e e' m (Ends e f (.returned (some v)) mem m) := by
  obtain ⟨r, e1, h1, h⟩ := exec_bind_eq_ok h
  obtain ⟨_, e2, h2, h3⟩ := exec_bind_eq_ok h
  have hheld := held_of_exec hwt hi h1
  obtain ⟨hword, -, hvoid⟩ := word_of_fits ht
  rw [exec_returnValue hheld.takes hvoid, if_pos (hheld.view.trans hword), if_neg hheld.ne_float] at h2
  cases h2
  rw [exec_jump] at h3
  cases h3
  rw [moveOutInstr, if_neg hheld.ne_float]
  have hmoved : Executes D e ((e1.emit [.mov .quad (.quad r.gpr) (.quad .rax)]).release r) m
      (Falls fun m' => m'.regs .rax = BitVec.ofInt 64 v ∧ Passed e mem m m') := by
    refine (compiled V D t hwt hi h1 hv).thenInstrs hheld.holding.grows rfl rfl fun m1 hd => ?_
    refine ⟨_, X86.runAll_single (run_mov_quad _ _), ?_, hd.mem, ?_⟩
    · rw [hd.value, Machine.set_regs, Function.update_self]
    · -- the register for results is none that is kept
      intro g hg
      have hne : g ≠ .rax := by
        rintro rfl
        exact hg.1 (by decide)
      rw [Machine.set_regs, Function.update_of_ne hne]
      exact hd.keeps g hg
  refine hmoved.thenJump ((hheld.holding.grows.emit _).release r) ?_ ?_
  · rintro m' ⟨-, hrax, hpassed⟩
    refine ⟨rfl, fun n hn => ?_, hpassed⟩
    cases hn
    exact hrax
  · rintro l m' ⟨hx, -⟩
    cases hx

theorem executes_optionalCondition {c : Option Typed.Expr} {target : String}
    (hwt : ∀ t ∈ c, t.WellTyped V) (hi : c.all Typed.Expr.isIntegral = true)
    (htarget : ¬ e.labels.From target) (h : exec (optionalCondition c target) s e = (.ok (), e'))
    (hc : Typed.Holds (memory D (m.regs .rbp)) c m.mem mem) :
    Executes D e e' m (Falls (Passed e mem m)) := by
  cases hc with
  | absent =>
    cases h
    exact executes_nothing _ ⟨rfl, .refl e m⟩
  | present hv hne =>
    refine (decides_condition (hwt _ rfl) hi htarget h hv).mono ?_
    rintro x m' ⟨rfl, hpassed⟩
    rw [beq_eq_false_iff_ne.mpr hne]
    exact ⟨rfl, hpassed⟩

theorem executes_optionalDiscard {t : Option Typed.Expr} (hwt : ∀ t' ∈ t, t'.WellTyped V)
    (hi : t.all Typed.Expr.isIntegral = true) (h : exec (optionalDiscard t) s e = (.ok (), e'))
    (hu : Typed.Drops (memory D (m.regs .rbp)) t m.mem mem) :
    Executes D e e' m (Falls (Passed e mem m)) := by
  cases hu with
  | absent =>
    cases h
    exact executes_nothing _ ⟨rfl, .refl e m⟩
  | present hv => exact executes_discard (hwt _ rfl) hi h hv

end Parts

/-! ### Branches and loops -/

section Control

variable {D : Layout} {e e0 e1 e2 : Emitter} {m : Machine} {P : Machine → Prop}
  {Q : Exit → Machine → Prop} {start stop target : String}

/-- Two branches: the first is left by a jump past the second, which begins at `target`. -/
theorem executes_branches (h : Executes D e e1 m fun x m' => x = .jump target ∧ P m' ∨ Q x m')
    (htarget : Pending e e1 target) (hstop : Pending e e1 stop) (hne : stop ≠ target)
    (hout : ∀ l m', Q (.jump l) m' → ¬ e.labels.From l)
    (helse : ∀ m', P m' → Executes D ((e1.emit [.jmp stop]).append [.label target]) e2 m' Q)
    (hg : Grows ((e1.emit [.jmp stop]).append [.label target]) e2) :
    Executes D e (e2.append [.label stop]) m Q := by
  have hemit : Grows e1 (e1.emit [.jmp stop]) := .of_emit rfl rfl
  have hjump : Executes D e (e1.emit [.jmp stop]) m fun x m' =>
      x = .jump target ∧ P m' ∨ x = .jump stop ∧ Q .next m' ∨ x ≠ .next ∧ Q x m' := by
    refine h.thenJump htarget.grows ?_ ?_
    · rintro m' (⟨hx, -⟩ | hQ)
      · cases hx
      · exact .inr (.inl ⟨rfl, hQ⟩)
    · rintro l m' (hQ | hQ)
      · exact .inl hQ
      · exact .inr (.inr ⟨nofun, hQ⟩)
  have hland : Executes D e ((e1.emit [.jmp stop]).append [.label target]) m fun x m' =>
      x = .next ∧ P m' ∨ x = .jump stop ∧ Q .next m' ∨ x ≠ .next ∧ Q x m' := by
    refine hjump.upTo (htarget.step hemit) ?_ ?_ ?_
    · rintro m' (⟨hx, -⟩ | hQ)
      · cases hx
      · exact .inr hQ
    · rintro m' (⟨-, hP⟩ | ⟨hx, -⟩ | ⟨-, hQ⟩)
      · exact .inl ⟨rfl, hP⟩
      · cases hx
        exact absurd rfl hne
      · exact absurd htarget.named.from (hout _ _ hQ)
    · rintro l m' hl (⟨hx, -⟩ | hQ)
      · cases hx
        exact absurd rfl hl
      · exact .inr hQ
  have hstop' := (hstop.step hemit).label (htarget.step hemit) hne
  have hboth : Executes D e e2 m fun x m' => x = .jump stop ∧ Q .next m' ∨ Q x m' := by
    refine hland.trans hstop'.grows hg ?_ ?_
    · rintro m' (⟨-, hP⟩ | ⟨hx, -⟩ | ⟨hx, -⟩)
      · exact (helse m' hP).mono fun x m'' hQ => .inr hQ
      · cases hx
      · exact absurd rfl hx
    · rintro l m' (⟨hx, -⟩ | hQ | ⟨-, hQ⟩)
      · cases hx
      · exact .inl hQ
      · exact .inr hQ
  refine hboth.upTo (hstop'.step hg) ?_ ?_ ?_
  · rintro m' (⟨hx, -⟩ | hQ)
    · cases hx
    · exact hQ
  · rintro m' (⟨-, hQ⟩ | hQ)
    · exact hQ
    · exact absurd hstop.named.from (hout _ _ hQ)
  · rintro l m' hl (⟨hx, -⟩ | hQ)
    · cases hx
      exact absurd rfl hl
    · exact hQ

/-- One round of a loop, and what comes after it: the round may end at the jump back, leave the loop or
leave the statement. -/
theorem executes_round (h : Executes D (e0.append [.label start]) e1 m fun x m' =>
      x = .next ∧ P m' ∨ x = .jump stop ∧ Q .next m' ∨ x ≠ .next ∧ Q x m')
    (hg : Grows (e0.append [.label start]) e1) (htext : e0.text = e.text)
    (hstart : Pending e e0 start) (hstop : Pending e e0 stop) (hne : start ≠ stop)
    (hout : ∀ l m', Q (.jump l) m' → ¬ e.labels.From l)
    (hback : ∀ m', P m' → Executes D e ((e1.emit [.jmp start]).append [.label stop]) m' Q) :
    Executes D e ((e1.emit [.jmp start]).append [.label stop]) m Q := by
  have hjump : Executes D (e0.append [.label start]) (e1.emit [.jmp start]) m fun x m' =>
      x = .jump start ∧ P m' ∨ x = .jump stop ∧ Q .next m' ∨ x ≠ .next ∧ Q x m' := by
    refine h.thenJump hg ?_ ?_
    · rintro m' (⟨-, hP⟩ | ⟨hx, -⟩ | ⟨hx, -⟩)
      · exact .inl ⟨rfl, hP⟩
      · cases hx
      · exact absurd rfl hx
    · rintro l m' (⟨hx, -⟩ | hQ)
      · cases hx
      · exact .inr hQ
  refine hjump.loop (hg.emit _) (by simp [htext]) hstart.named hstop.named hne hstart.grows.labels
    ?_ ?_ ?_ ?_
  · rintro m' (⟨hx, -⟩ | ⟨hx, -⟩ | ⟨hx, -⟩)
    · cases hx
    · cases hx
    · exact absurd rfl hx
  · rintro m' (⟨hx, -⟩ | ⟨-, hQ⟩ | ⟨-, hQ⟩)
    · cases hx
      exact absurd rfl hne
    · exact hQ
    · exact absurd hstop.named.from (hout _ _ hQ)
  · rintro m' (⟨-, hP⟩ | ⟨hx, -⟩ | ⟨-, hQ⟩)
    · exact hback m' hP
    · cases hx
      exact absurd rfl hne
    · exact absurd hstart.named.from (hout _ _ hQ)
  · rintro l m' hl hl' (⟨hx, -⟩ | ⟨hx, -⟩ | ⟨-, hQ⟩)
    · cases hx
      exact absurd rfl hl
    · cases hx
      exact absurd rfl hl'
    · exact hQ

end Control

/-- The states that the code of a loop goes through. It takes a number for its labels; the condition, the
body and the update come after the label that it jumps back to. -/
structure LoopCode (f : Routine) (s : Setting) (c update : Option Typed.Expr) (body : Typed.Stmt)
    (start stop : String) (e e0 e1 e2 e3 : Emitter) : Prop where
  text : e0.text = e.text
  number : Holding [] 0 e e0
  startPending : Pending e e0 start
  stopPending : Pending e e0 stop
  ne : start ≠ stop
  test : exec (optionalCondition c stop) s (e0.append [.label start]) = (.ok (), e1)
  round : perform (stmt f body) s e1 = (.ok (), e2)
  advance : exec (optionalDiscard update) s e2 = (.ok (), e3)

/-- What follows the update: the jump back and the label for the way out. -/
abbrev closeLoop (start stop : String) (e : Emitter) : Emitter :=
  (e.emit [.jmp start]).append [.label stop]

namespace LoopCode

variable {V : Vocabulary} {D : Layout} {f : Routine} {s : Setting} {c update : Option Typed.Expr}
  {body : Typed.Stmt} {start stop : String} {e e0 e1 e2 e3 : Emitter} {m : Machine}
  {mem mem1 mem2 mem3 : Memory} {x : Ending}

theorem holding_test (L : LoopCode f s c update body start stop e e0 e1 e2 e3) :
    Holding [] 0 (e0.append [.label start]) e1 :=
  (optionalCondition_outcome everything c stop).ok_of_exec
    L.test

theorem takes_of_takes (L : LoopCode f s c update body start stop e e0 e1 e2 e3) {cell : Cell}
    (h : e.Takes cell) : e1.Takes cell :=
  L.holding_test.takes_of_takes (L.number.takes_of_takes h)

theorem idle (L : LoopCode f s c update body start stop e e0 e1 e2 e3) (h : e.Idle) : e1.Idle := by
  have hnumber : e0.Idle := h.of_holding L.number
  exact (hnumber.append _).of_holding L.holding_test

theorem holding_round (L : LoopCode f s c update body start stop e e0 e1 e2 e3) (h : e.Idle) :
    Holding [] 0 e1 e2 :=
  (finishes everything s.pool f body (L.idle h)).ok_of_perform
    L.round

theorem holding_advance (L : LoopCode f s c update body start stop e e0 e1 e2 e3) :
    Holding [] 0 e2 e3 :=
  (optionalDiscard_outcome everything update).ok_of_exec
    L.advance

theorem grows (L : LoopCode f s c update body start stop e e0 e1 e2 e3) (h : e.Idle) :
    Grows (e0.append [.label start]) e3 :=
  (L.holding_test.trans ((L.holding_round h).trans L.holding_advance)).grows

/-- The label for the way out is older than the condition. -/
theorem not_from_stop (L : LoopCode f s c update body start stop e e0 e1 e2 e3) :
    ¬ (e0.append [.label start]).labels.From stop :=
  L.stopPending.named.not_from

/-- What was run after the label was run after the statement before the loop. -/
theorem passed (L : LoopCode f s c update body start stop e e0 e1 e2 e3) {m' : Machine}
    (h : Passed (e0.append [.label start]) mem m m') : Passed e mem m m' :=
  ⟨h.mem, h.keeps.mono fun _ hc => L.number.takes_of_takes hc⟩

theorem executes_stop {t : Typed.Expr}
    (L : LoopCode f s (some t) update body start stop e e0 e1 e2 e3) (hidle : e.Idle)
    (hwt : t.WellTyped V) (hi : t.isIntegral = true)
    (hv : eval (memory D (m.regs .rbp)) t m.mem = .ok (0, mem)) :
    Executes D e (closeLoop start stop e3) m (Ends e f .normal mem m) := by
  have hrest := ((L.holding_round hidle).trans L.holding_advance).grows
  refine executes_round (P := fun _ => False) ?_ (L.grows hidle) L.text L.startPending L.stopPending
    L.ne (fun l m' hE => hE.not_from _) nofun
  refine (decides_condition hwt hi L.not_from_stop L.test hv).trans L.holding_test.grows hrest ?_ ?_
  · intro m' hQ
    cases hQ.of_next.1
  · intro l m' hQ
    obtain ⟨-, rfl, hpassed⟩ := hQ.of_jump
    exact .inr (.inl ⟨rfl, .of_passed (L.passed hpassed)⟩)

/-- The condition is true: the body is run, and whatever comes after it. -/
theorem executes_round (L : LoopCode f s c update body start stop e e0 e1 e2 e3) (hidle : e.Idle)
    (hwt : ∀ t ∈ c, t.WellTyped V) (hi : c.all Typed.Expr.isIntegral = true)
    (hc : Typed.Holds (memory D (m.regs .rbp)) c m.mem mem1) {P : Machine → Prop}
    {Q : Exit → Machine → Prop} (hout : ∀ l m', Q (.jump l) m' → ¬ e.labels.From l)
    (hbody : ∀ m1, Passed e mem1 m m1 → Executes D e1 e3 m1 fun x m' =>
      x = .next ∧ P m' ∨ x ≠ .next ∧ Q x m')
    (hback : ∀ m', P m' → Executes D e (closeLoop start stop e3) m' Q) :
    Executes D e (closeLoop start stop e3) m Q := by
  have hrest := ((L.holding_round hidle).trans L.holding_advance).grows
  refine Lower.executes_round (P := P) ?_ (L.grows hidle) L.text L.startPending L.stopPending L.ne
    hout hback
  refine (executes_optionalCondition hwt hi L.not_from_stop L.test hc).andThen L.holding_test.grows
    hrest fun m1 hpassed => ?_
  exact (hbody m1 (L.passed hpassed)).mono fun x m' hQ => hQ.imp_right .inr

end LoopCode

/-! ### The code of statements -/

section Code

variable {f : Routine} {s : Setting} {e e' : Emitter} {place : Location}

theorem perform_finish (hidle : e.Idle) (h : perform (finish place) s e = (.ok (), e')) : e' = e := by
  have hfinish := exec_of_perform h
  rw [exec_releaseLeaks hidle] at hfinish
  cases hfinish
  rfl

theorem closeLoop_of_perform {start stop : String} (hidle : e.Idle)
    (h : perform (do
      located place (jump start)
      located place (label stop)
      finish place) s e = (.ok (), e')) : e' = closeLoop start stop e := by
  obtain ⟨_, e1, h1, h⟩ := perform_bind_eq_ok h
  obtain ⟨_, e2, h2, h3⟩ := perform_bind_eq_ok h
  cases perform_jump h1
  cases perform_label h2
  exact perform_finish ((hidle.append _).append _) h3

theorem loopCode_of_while {c : Typed.Expr} {body : Typed.Stmt} (hidle : e.Idle)
    (h : perform (stmt f (.whileLoop c body place)) s e = (.ok (), e')) :
    ∃ start stop e0 e1 e2, LoopCode f s (some c) none body start stop e e0 e1 e2 e2 ∧
      e' = closeLoop start stop e2 := by
  rw [stmt] at h
  obtain ⟨id, e0, h0, h⟩ := perform_bind_eq_ok h
  obtain ⟨_, e0', h0', h⟩ := perform_bind_eq_ok h
  cases perform_label h0'
  obtain ⟨_, e1, h1, h⟩ := perform_bind_eq_ok h
  obtain ⟨_, e2, h2, h⟩ := perform_bind_eq_ok h
  obtain ⟨htext, hnumber, hlabels⟩ := of_freshId (exec_of_perform h0) (by decide)
  have L : LoopCode f s (some c) none body _ _ e e0 e1 e2 e2 :=
    ⟨htext, hnumber, hlabels "start" (by decide), hlabels "end" (by decide),
      labels_ne (by decide) id (by decide), exec_of_perform h1, h2, rfl⟩
  exact ⟨_, _, e0, e1, e2, L, closeLoop_of_perform ((L.idle hidle).of_holding (L.holding_round hidle)) h⟩

theorem loopCode_of_for {c update : Option Typed.Expr} {body : Typed.Stmt} (hidle : e.Idle)
    (h : perform (stmt f (.forLoop none c update body place)) s e = (.ok (), e')) :
    ∃ start stop e0 e1 e2 e3, LoopCode f s c update body start stop e e0 e1 e2 e3 ∧
      e' = closeLoop start stop e3 := by
  rw [stmt] at h
  obtain ⟨_, e0'', hinit, h⟩ := perform_bind_eq_ok h
  cases hinit
  obtain ⟨id, e0, h0, h⟩ := perform_bind_eq_ok h
  obtain ⟨_, e0', h0', h⟩ := perform_bind_eq_ok h
  cases perform_label h0'
  obtain ⟨_, e1, h1, h⟩ := perform_bind_eq_ok h
  obtain ⟨_, e2, h2, h⟩ := perform_bind_eq_ok h
  obtain ⟨_, e3, h3, h⟩ := perform_bind_eq_ok h
  obtain ⟨htext, hnumber, hlabels⟩ := of_freshId (exec_of_perform h0) (by decide)
  have L : LoopCode f s c update body _ _ e e0 e1 e2 e3 :=
    ⟨htext, hnumber, hlabels "start" (by decide), hlabels "end" (by decide),
      labels_ne (by decide) id (by decide), exec_of_perform h1, h2, exec_of_perform h3⟩
  have hidle3 := ((L.idle hidle).of_holding (L.holding_round hidle)).of_holding L.holding_advance
  exact ⟨_, _, e0, e1, e2, e3, L, closeLoop_of_perform hidle3 h⟩

/-- A loop with an initialization is the initialization and the loop without it. -/
theorem perform_forLoop {init body : Typed.Stmt} {c update : Option Typed.Expr}
    (h : perform (stmt f (.forLoop (some init) c update body place)) s e = (.ok (), e')) :
    ∃ e1, perform (stmt f init) s e = (.ok (), e1) ∧
      perform (stmt f (.forLoop none c update body place)) s e1 = (.ok (), e') := by
  rw [stmt] at h
  obtain ⟨_, e1, h1, h⟩ := perform_bind_eq_ok h
  refine ⟨e1, h1, ?_⟩
  rw [stmt]
  exact (perform_bind_ok rfl).trans h

/-- The code of two branches: a test that jumps to the second one, and a jump past it after the
first. -/
theorem executes_cond {V : Vocabulary} {D : Layout} {m : Machine} {mem : Memory} {v : Int}
    {Q : Exit → Machine → Prop} {c : Typed.Expr} {thenBranch : Typed.Stmt}
    {elseBranch : Option Typed.Stmt} (hidle : e.Idle) (hwt : c.WellTyped V)
    (hi : c.isIntegral = true)
    (h : perform (stmt f (.cond c thenBranch elseBranch place)) s e = (.ok (), e'))
    (hv : eval (memory D (m.regs .rbp)) c m.mem = .ok (v, mem))
    (hout : ∀ l m', Q (.jump l) m' → ¬ e.labels.From l)
    (hthen : v ≠ 0 → ∀ {e1 e2 m1}, perform (stmt f thenBranch) s e1 = (.ok (), e2) → e1.Idle →
      (∀ c, e.Takes c → e1.Takes c) → Passed e mem m m1 → Executes D e1 e2 m1 Q)
    (helse : v = 0 → ∀ {e1 e2 m1}, perform (optionalStmt f elseBranch) s e1 = (.ok (), e2) →
      e1.Idle → (∀ c, e.Takes c → e1.Takes c) → Passed e mem m m1 → Executes D e1 e2 m1 Q) :
    Executes D e e' m Q := by
  rw [stmt] at h
  obtain ⟨id, e0, h0, h⟩ := perform_bind_eq_ok h
  obtain ⟨_, e1, h1, h⟩ := perform_bind_eq_ok h
  obtain ⟨_, e1', h1', h⟩ := perform_bind_eq_ok h
  cases perform_label h1'
  obtain ⟨_, e2, h2, h⟩ := perform_bind_eq_ok h
  obtain ⟨_, e2', h2', h⟩ := perform_bind_eq_ok h
  cases perform_jump h2'
  obtain ⟨_, e2'', h2'', h⟩ := perform_bind_eq_ok h
  cases perform_label h2''
  obtain ⟨_, e3, h3, h4⟩ := perform_bind_eq_ok h
  cases perform_label h4
  obtain ⟨htext, hnumber, hlabels⟩ := of_freshId (exec_of_perform h0) (by decide)
  have hne : ∀ {role role' : String}, role ≠ role' →
      controlLabel "if" id role ≠ controlLabel "if" id role' := labels_ne (by decide) id
  -- the registers: none is taken between the parts
  have htest := holding_of_condition (exec_of_perform h1)
  have hidle1 : e1.Idle := (hidle.of_holding hnumber).of_holding htest
  have hfirst : Holding [] 0 (e1.append [.label (controlLabel "if" id "then")]) e2 :=
    (finishes everything s.pool f thenBranch (hidle1.append _)).ok_of_perform h2
  have hidle2 : e2.Idle := (hidle1.append _).of_holding hfirst
  have hsecond : Holding [] 0 ((e2.emit [.jmp (controlLabel "if" id "end")]).append
      [.label (controlLabel "if" id "false")]) e3 :=
    (optionalStmt_completes f (fun s' _ => finishes everything s.pool f s')
      ((hidle2.append _).append _)).ok_of_perform h3
  have htakes : ∀ c, e.Takes c → e1.Takes c := fun _ hc =>
    htest.takes_of_takes (hnumber.takes_of_takes hc)
  -- the labels: each is defined once, after the jumps to it
  have hthenLabel := (hlabels "then" (by decide)).step htest.grows
  have hfalse := (((hlabels "false" (by decide)).step htest.grows).label hthenLabel
    (hne (by decide))).step hfirst.grows
  have hstop := (((hlabels "end" (by decide)).step htest.grows).label hthenLabel
    (hne (by decide))).step hfirst.grows
  have hcond : Executes D e e1 m
      (Turns (v == 0) (controlLabel "if" id "false") (Passed e mem m)) := by
    refine ((decides_condition hwt hi (hlabels "false" (by decide)).named.not_from
      (exec_of_perform h1) hv).numbered htext hnumber.labels).mono ?_
    rintro x m' ⟨rfl, hpassed⟩
    exact ⟨rfl, hpassed.mem, hpassed.keeps.mono fun _ hc => hnumber.takes_of_takes hc⟩
  have hlabel : Executes D e (e1.append [.label (controlLabel "if" id "then")]) m
      (Turns (v == 0) (controlLabel "if" id "false") (Passed e mem m)) := by
    refine hcond.upTo hthenLabel (fun _ hQ => hQ) (fun m' hQ => ?_) fun _ _ _ hQ => hQ
    exact absurd hQ.of_jump.2.1 (hne (by decide))
  have hbranch : Executes D e e2 m fun x m' =>
      x = .jump (controlLabel "if" id "false") ∧ (v = 0 ∧ Passed e mem m m') ∨ Q x m' := by
    refine hlabel.trans (hthenLabel.grows.label hthenLabel.named) hfirst.grows (fun m1 hQ => ?_)
      fun l m1 hQ => ?_
    · obtain ⟨hnot, hpassed⟩ := hQ.of_next
      exact (hthen (by simpa using hnot) h2 (hidle1.append _) htakes hpassed).mono fun _ _ => .inr
    · obtain ⟨hzero, rfl, hpassed⟩ := hQ.of_jump
      exact .inl ⟨rfl, by simpa using hzero, hpassed⟩
  refine executes_branches hbranch hfalse hstop (hne (by decide)) hout ?_ hsecond.grows
  rintro m1 ⟨hzero, hpassed⟩
  exact helse hzero h3 hidle2 (fun c hc => hfirst.takes_of_takes (htakes c hc)) hpassed

end Code

/-! ### All statements -/

section Statements

variable {V : Vocabulary} {D : Layout} {f : Routine} {s : Setting} {base : BitVec 64}
  {mem mem1 mem' : Memory} {x : Ending}

/-- The machines from which a statement is run: the objects of the frame lie where the base of the frame
says, and the memory is the one the statement starts with. -/
def Starts (base : BitVec 64) (mem : Memory) (m : Machine) : Prop :=
  m.regs .rbp = base ∧ m.mem = mem

theorem Starts.passed {e : Emitter} {m m1 : Machine} (h : Starts base mem m)
    (hpassed : Passed e mem1 m m1) : Starts base mem1 m1 :=
  ⟨hpassed.keeps.base.trans h.1, hpassed.mem⟩

/-- Wherever code is generated for a statement, it ends as the statement does. -/
def Enacts (D : Layout) (f : Routine) (s : Setting) (base : BitVec 64) (st : Typed.Stmt) (mem : Memory)
    (x : Ending) (mem' : Memory) : Prop :=
  ∀ ⦃e e' m⦄, e.Idle → perform (stmt f st) s e = (.ok (), e') → Starts base mem m →
    Executes D e e' m (Ends e f x mem' m)

/-- What follows the code of a part of a statement that was left at its end. -/
theorem Enacts.after {st : Typed.Stmt} {e e1 e2 : Emitter} {m m1 : Machine}
    (h : Enacts D f s base st mem1 x mem') (hidle : e1.Idle)
    (hperform : perform (stmt f st) s e1 = (.ok (), e2)) (hm : Starts base mem m)
    (hpassed : Passed e mem1 m m1) (htakes : ∀ c, e.Takes c → e1.Takes c) :
    Executes D e1 e2 m1 (Ends e f x mem' m) :=
  (h hidle hperform (hm.passed hpassed)).mono fun _ _ hE => hE.after hpassed htakes

/-- A single operation and the check that it leaves no register taken. -/
theorem enacts_single {st : Typed.Stmt} {m : Emit Unit} {place : Location}
    (hst : stmt f st = (do located place m; finish place))
    (hhold : ∀ {e e'}, exec m s e = (.ok (), e') → Holding [] 0 e e')
    (hrun : ∀ {e e' m0}, exec m s e = (.ok (), e') → Starts base mem m0 →
      Executes D e e' m0 (Ends e f x mem' m0)) : Enacts D f s base st mem x mem' := by
  intro e e' m0 hidle h hm
  rw [hst] at h
  obtain ⟨_, e1, h1, h2⟩ := perform_bind_eq_ok h
  have hexec := exec_of_perform h1
  cases perform_finish (hidle.of_holding (hhold hexec)) h2
  exact hrun hexec hm

/-- The code of a statement is the code of two, one after the other. -/
def Splits (f : Routine) (s : Setting) (whole first second : Typed.Stmt) : Prop :=
  ∀ ⦃e e'⦄, perform (stmt f whole) s e = (.ok (), e') → ∃ e1,
    perform (stmt f first) s e = (.ok (), e1) ∧ perform (stmt f second) s e1 = (.ok (), e')

theorem splits_cons (st : Typed.Stmt) (rest : List Typed.Stmt) :
    Splits f s (.block (st :: rest)) st (.block rest) := by
  intro e e' h
  rw [stmt, stmts] at h
  obtain ⟨_, e1, h1, h2⟩ := perform_bind_eq_ok h
  exact ⟨e1, h1, by rw [stmt]; exact h2⟩

section Sequence

variable {whole first second : Typed.Stmt} (hsplit : Splits f s whole first second)

include hsplit

theorem Splits.enacts (h : Enacts D f s base first mem .normal mem1)
    (h' : Enacts D f s base second mem1 x mem') : Enacts D f s base whole mem x mem' := by
  intro e e' m hidle hperform hm
  obtain ⟨e1, h1, h2⟩ := hsplit hperform
  have hfirst : Holding [] 0 e e1 := (finishes everything s.pool f first hidle).ok_of_perform h1
  have hidle1 := hidle.of_holding hfirst
  have hsecond : Holding [] 0 e1 e' :=
    (finishes everything s.pool f second hidle1).ok_of_perform h2
  have hfalls : Executes D e e1 m (Falls (Passed e mem1 m)) :=
    (h hidle h1 hm).mono fun _ _ hE => hE.of_next
  refine hfalls.andThen hfirst.grows hsecond.grows fun m1 hpassed => ?_
  exact h'.after hidle1 h2 hm hpassed fun _ hc => hfirst.takes_of_takes hc

/-- What comes after a return is not reached. -/
theorem Splits.enactsReturn {v : Option Int} (h : Enacts D f s base first mem (.returned v) mem') :
    Enacts D f s base whole mem (.returned v) mem' := by
  intro e e' m hidle hperform hm
  obtain ⟨e1, h1, h2⟩ := hsplit hperform
  have hfirst : Holding [] 0 e e1 := (finishes everything s.pool f first hidle).ok_of_perform h1
  have hsecond : Holding [] 0 e1 e' :=
    (finishes everything s.pool f second (hidle.of_holding hfirst)).ok_of_perform h2
  refine (h hidle h1 hm).trans hfirst.grows hsecond.grows (fun m1 hE => ?_) fun _ _ hE => hE
  cases hE.exit

end Sequence

theorem enacts_declare {o : Symbol} {t : Typed.Expr} {place : Location} {v : Int}
    (hwt : (Typed.Expr.assign (.object o) t).WellTyped V) (hi : t.isIntegral = true)
    (hv : eval (memory D base) t mem = .ok (v, mem1)) :
    Enacts D f s base (.declare o (some (.scalar t)) place) mem .normal
      ((memory D base).write mem1 o v) := by
  -- a value that fits the object is no float, so neither is the object
  have hfloat : o.type.isFloat = false := by
    cases hwt with
    | assignObject hs ha ht hfits =>
      have hword := isInteger_word ht hi
      rw [(word_of_fits hfits).1] at hword
      cases htype : o.type with
      | scalar k => cases k <;> simp_all [CType.isFloat, CType.word, Scalar.isInteger]
      | _ => rfl
  have hassignInt : (Typed.Expr.assign (.object o) t).isIntegral = true := by
    rw [Typed.Expr.isIntegral, hfloat, hi]
    rfl
  refine enacts_single rfl (fun h => ?_) fun {e e' m} h hm => ?_
  · exact (discard_outcome everything (Holding.refl _) _).ok_of_exec (discard_of_localInit h)
  · obtain ⟨rfl, rfl⟩ := hm
    have hassign : eval (memory D (m.regs .rbp)) (.assign (.object o) t) m.mem =
        .ok (v, (memory D (m.regs .rbp)).write mem1 o v) := by
      rw [eval, hv]
      rfl
    refine (executes_discard hwt hassignInt (discard_of_localInit h) hassign).mono ?_
    rintro x m' ⟨rfl, hpassed⟩
    exact .of_passed hpassed

theorem enacts_expr {t : Typed.Expr} {place : Location} {v : Int} (hwt : t.WellTyped V)
    (hi : t.isIntegral = true) (hv : eval (memory D base) t mem = .ok (v, mem')) :
    Enacts D f s base (.expr t place) mem .normal mem' := by
  refine enacts_single rfl (fun h => ?_) fun {e e' m} h hm => ?_
  · exact (discard_outcome everything (Holding.refl _) _).ok_of_exec h
  · obtain ⟨rfl, rfl⟩ := hm
    refine (executes_discard hwt hi h hv).mono ?_
    rintro x m' ⟨rfl, hpassed⟩
    exact .of_passed hpassed

theorem enacts_cond {c : Typed.Expr} {thenBranch : Typed.Stmt} {elseBranch : Option Typed.Stmt}
    {place : Location} {v : Int} (hwt : c.WellTyped V) (hi : c.isIntegral = true)
    (hc : eval (memory D base) c mem = .ok (v, mem1))
    (hthen : v ≠ 0 → Enacts D f s base thenBranch mem1 x mem')
    (helse : v = 0 → ∀ {e1 e2 m1}, perform (optionalStmt f elseBranch) s e1 = (.ok (), e2) →
      e1.Idle → Starts base mem1 m1 → Executes D e1 e2 m1 (Ends e1 f x mem' m1)) :
    Enacts D f s base (.cond c thenBranch elseBranch place) mem x mem' := by
  intro e e' m hidle h hm
  have hv : eval (memory D (m.regs .rbp)) c m.mem = .ok (v, mem1) := by
    rw [hm.1, hm.2]
    exact hc
  refine executes_cond hidle hwt hi h hv (fun l m' hE => hE.not_from _) ?_ ?_
  · intro hne e1 e2 m1 h1 hidle1 htakes hpassed
    exact (hthen hne).after hidle1 h1 hm hpassed htakes
  · intro hzero e1 e2 m1 h1 hidle1 htakes hpassed
    exact (helse hzero h1 hidle1 (hm.passed hpassed)).mono fun _ _ hE => hE.after hpassed htakes

/-- The rounds of a loop. The body of a round may return; otherwise the loop is run again. -/
theorem LoopCode.enacts {c update : Option Typed.Expr} {body : Typed.Stmt} {start stop : String}
    {e e0 e1 e2 e3 : Emitter} {m : Machine} {mem2 : Memory} {y : Ending}
    (L : LoopCode f s c update body start stop e e0 e1 e2 e3) (hidle : e.Idle)
    (hm : Starts base mem m) (hwt : ∀ t ∈ c, t.WellTyped V)
    (hi : c.all Typed.Expr.isIntegral = true) (hc : Typed.Holds (memory D base) c mem mem1)
    (hbody : Enacts D f s base body mem1 y mem2)
    (hreturn : ∀ v, y = .returned v → x = .returned v ∧ mem' = mem2)
    (hnext : y = .normal → ∀ {m2}, Starts base mem2 m2 →
      ∃ mem3, Executes D e2 e3 m2 (Falls (Passed e2 mem3 m2)) ∧
        ∀ m3, Starts base mem3 m3 →
          Executes D e (closeLoop start stop e3) m3 (Ends e f x mem' m3)) :
    Executes D e (closeLoop start stop e3) m (Ends e f x mem' m) := by
  have hholds : Typed.Holds (memory D (m.regs .rbp)) c m.mem mem1 := by
    rw [hm.1, hm.2]
    exact hc
  have hround := L.holding_round hidle
  refine L.executes_round hidle hwt hi hholds
    (P := fun m3 => ∃ mem3, Passed e mem3 m m3 ∧
      Executes D e (closeLoop start stop e3) m3 (Ends e f x mem' m3))
    (fun l m' hE => hE.not_from _) (fun m1 hpassed => ?_) ?_
  · have hrun := hbody.after (L.idle hidle) L.round hm hpassed fun _ hc => L.takes_of_takes hc
    refine hrun.trans hround.grows L.holding_advance.grows (fun m2 hE => ?_) fun l m2 hE => ?_
    · -- the body was left at its end
      cases y with
      | returned v => cases hE.exit
      | normal =>
        have hm2 := hm.passed hE.passed
        obtain ⟨mem3, hupdate, hagain⟩ := hnext rfl hm2
        refine hupdate.mono ?_
        rintro exit m3 ⟨rfl, hadvanced⟩
        have htakes : ∀ c, e.Takes c → e2.Takes c := fun _ hc =>
          hround.takes_of_takes (L.takes_of_takes hc)
        exact .inl ⟨rfl, mem3, hE.passed.trans hadvanced htakes, hagain m3 (hm2.passed hadvanced)⟩
    · cases y with
      | normal => cases hE.exit
      | returned v =>
        obtain ⟨rfl, rfl⟩ := hreturn v rfl
        exact .inr ⟨nofun, hE⟩
  · rintro m3 ⟨mem3, hpassed, hagain⟩
    exact hagain.mono fun _ _ hE => hE.after hpassed fun _ hc => hc

theorem executes_skip {e : Emitter} {m : Machine} (hm : Starts base mem m) :
    Executes D e e m (Ends e f .normal mem m) := by
  refine (executes_nothing (· = m) rfl).mono ?_
  rintro exit m' ⟨rfl, rfl⟩
  exact .of_passed ⟨hm.2, .refl e m'⟩

/-- The code of a statement ends as the statement does. The induction is on how the statement is
executed, so each round of a loop is a case of its own. -/
theorem enacts {st : Typed.Stmt} (h : Exec (memory D base) st mem x mem')
    (hwt : st.WellTyped V f.result) (hi : st.isIntegral = true) : Enacts D f s base st mem x mem' := by
  induction h with
  | nil =>
    intro e e' m hidle h hm
    rw [stmt, stmts] at h
    cases h
    exact executes_skip hm
  | cons h hrest ih ihrest =>
    simp only [Typed.Stmt.isOver, Typed.allOver, Bool.and_eq_true] at hi
    cases hwt with
    | block hb =>
      exact (splits_cons _ _).enacts (ih (hb _ (by simp)) hi.1)
        (ihrest (.block fun s hs => hb s (by simp [hs])) hi.2)
  | consReturn h ih =>
    simp only [Typed.Stmt.isOver, Typed.allOver, Bool.and_eq_true] at hi
    cases hwt with
    | block hb => exact (splits_cons _ _).enactsReturn (ih (hb _ (by simp)) hi.1)
  | declare =>
    intro e e' m hidle h hm
    rw [stmt] at h
    cases perform_finish hidle h
    exact executes_skip hm
  | declareInit hv =>
    simp only [Typed.Stmt.isOver, Bool.true_and] at hi
    cases hwt with
    | declare hs ht hsize hinit =>
      cases hinit _ rfl with
      | scalar ha he hfits =>
        exact enacts_declare (.assignObject hs ha he hfits) hi hv
  | expr hv =>
    cases hwt with
    | expr he => exact enacts_expr he hi hv
  | condTrue hc hv h ih =>
    simp only [Typed.Stmt.isOver, Bool.and_eq_true] at hi
    cases hwt with
    | cond hcwt ht hthen helse =>
      refine enacts_cond hcwt hi.1.1 hc (fun _ => ih hthen hi.1.2) fun hzero => ?_
      exact absurd hzero hv
  | condFalse hc h ih =>
    simp only [Typed.Stmt.isOver, Typed.optionOver, Bool.and_eq_true] at hi
    cases hwt with
    | cond hcwt ht hthen helse =>
      refine enacts_cond hcwt hi.1.1 hc (fun hne => absurd rfl hne) fun _ e1 e2 m1 h1 hidle hm => ?_
      exact ih (helse _ rfl) hi.2 hidle h1 hm
  | condSkip hc =>
    simp only [Typed.Stmt.isOver, Bool.and_eq_true] at hi
    cases hwt with
    | cond hcwt ht hthen helse =>
      refine enacts_cond hcwt hi.1.1 hc (fun hne => absurd rfl hne) fun _ e1 e2 m1 h1 hidle hm => ?_
      rw [optionalStmt] at h1
      cases h1
      exact executes_skip hm
  | whileStop hc =>
    simp only [Typed.Stmt.isOver, Bool.and_eq_true] at hi
    cases hwt with
    | whileLoop hcwt ht hb =>
      intro e e' m hidle h hm
      obtain ⟨start, stop, e0, e1, e2, L, rfl⟩ := loopCode_of_while hidle h
      obtain ⟨rfl, rfl⟩ := hm
      exact L.executes_stop hidle hcwt hi.1 hc
  | whileStep hc hv h hrest ih ihrest =>
    have hloop := hi
    have hloopwt := hwt
    simp only [Typed.Stmt.isOver, Bool.and_eq_true] at hi
    cases hwt with
    | whileLoop hcwt ht hb =>
      intro e e' m hidle h hm
      obtain ⟨start, stop, e0, e1, e2, L, rfl⟩ := loopCode_of_while hidle h
      refine L.enacts hidle hm (by simpa using hcwt) hi.1 (.present hc hv) (ih hb hi.2)
        (fun v hx => by cases hx) ?_
      -- there is nothing between the body and the jump back
      intro _ m2 hm2
      refine ⟨_, executes_nothing _ ⟨hm2.2, .refl e2 m2⟩, fun m3 hm3 => ?_⟩
      exact ihrest hloopwt hloop hidle h hm3
  | whileReturn hc hv h ih =>
    simp only [Typed.Stmt.isOver, Bool.and_eq_true] at hi
    cases hwt with
    | whileLoop hcwt ht hb =>
      intro e e' m hidle h hm
      obtain ⟨start, stop, e0, e1, e2, L, rfl⟩ := loopCode_of_while hidle h
      refine L.enacts hidle hm (by simpa using hcwt) hi.1 (.present hc hv) (ih hb hi.2) ?_
        fun hx => by cases hx
      rintro v ⟨rfl⟩
      exact ⟨rfl, rfl⟩
  | forInit h hrest ih ihrest =>
    simp only [Typed.Stmt.isOver, Typed.optionOver, Bool.and_eq_true] at hi
    cases hwt with
    | forLoop hinit hcwt hu hb =>
      refine Splits.enacts (fun _ _ => perform_forLoop) (ih (hinit _ rfl) hi.1.1.1) ?_
      exact ihrest (.forLoop (by simp) hcwt hu hb) (by simp [Typed.Stmt.isOver, Typed.optionOver, hi])
  | forInitReturn h ih =>
    simp only [Typed.Stmt.isOver, Typed.optionOver, Bool.and_eq_true] at hi
    cases hwt with
    | forLoop hinit hcwt hu hb =>
      exact Splits.enactsReturn (fun _ _ => perform_forLoop) (ih (hinit _ rfl) hi.1.1.1)
  | forStop hc =>
    simp only [Typed.Stmt.isOver, Bool.and_eq_true] at hi
    cases hwt with
    | forLoop hinit hcwt hu hb =>
      intro e e' m hidle h hm
      obtain ⟨start, stop, e0, e1, e2, e3, L, rfl⟩ := loopCode_of_for hidle h
      obtain ⟨rfl, rfl⟩ := hm
      exact L.executes_stop hidle (hcwt _ rfl).1 hi.1.1.2 hc
  | forStep hc h hu hrest ih ihrest =>
    have hloop := hi
    have hloopwt := hwt
    simp only [Typed.Stmt.isOver, Bool.and_eq_true] at hi
    cases hwt with
    | forLoop hinit hcwt huwt hb =>
      intro e e' m hidle hcode hm
      obtain ⟨start, stop, e0, e1, e2, e3, L, rfl⟩ := loopCode_of_for hidle hcode
      refine L.enacts hidle hm (fun t ht => (hcwt t ht).1) hi.1.1.2 hc (ih hb hi.2)
        (fun v hx => by cases hx) ?_
      intro _ m2 hm2
      obtain ⟨rfl, rfl⟩ := hm2
      refine ⟨_, executes_optionalDiscard huwt hi.1.2 L.advance hu, fun m3 hm3 => ?_⟩
      exact ihrest hloopwt hloop hidle hcode hm3
  | forReturn hc h ih =>
    simp only [Typed.Stmt.isOver, Bool.and_eq_true] at hi
    cases hwt with
    | forLoop hinit hcwt huwt hb =>
      intro e e' m hidle h hm
      obtain ⟨start, stop, e0, e1, e2, e3, L, rfl⟩ := loopCode_of_for hidle h
      refine L.enacts hidle hm (fun t ht => (hcwt t ht).1) hi.1.1.2 hc (ih hb hi.2) ?_
        fun hx => by cases hx
      rintro v ⟨rfl⟩
      exact ⟨rfl, rfl⟩
  | retValue hv =>
    cases hwt with
    | retValue he ht =>
      refine enacts_single rfl (fun h => ?_) fun h hm => ?_
      · exact (ret_outcome everything (Holding.refl _) f _ .unknown).ok_of_exec h
      · obtain ⟨rfl, rfl⟩ := hm
        exact executes_retValue he ht hi h hv
  | ret =>
    refine enacts_single rfl (fun h => ?_) fun h hm => ?_
    · exact (ret_outcome everything (Holding.refl _) f _ .unknown).ok_of_exec h
    · obtain ⟨-, rfl⟩ := hm
      exact executes_ret h
  | empty =>
    intro e e' m hidle h hm
    rw [stmt] at h
    cases h
    exact executes_skip hm

end Statements

end MiniC.Lower
