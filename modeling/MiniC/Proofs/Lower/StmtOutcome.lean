import MiniC.Lower.Stmt
import MiniC.Proofs.Lower.ExprOutcome

/-!
# How the code of statements ends

From a state in which no register is taken, a statement ends in such a state again, so the check
for registers that are still taken, made after each statement, finds none. `Completes` is `Outcome`
for operations whose failures are located.
-/

set_option autoImplicit false

namespace MiniC

/-- No register is taken. -/
def Emitter.Idle (e : Emitter) : Prop := ∀ c, ¬ e.Takes c

namespace Emitter

variable {e e' : Emitter}

theorem Idle.liveCount (h : e.Idle) : e.bank.val.liveCount = 0 := by
  have hlive : ∀ view, e.bank.val.live view = [] := by
    intro view
    refine List.eq_nil_iff_forall_not_mem.mpr fun r hr => ?_
    exact h r.cell (Emit.takes_of_mem_live hr).1
  simp [Emit.Bank.liveCount, hlive]

theorem Idle.append (h : e.Idle) (ls : List X86.Line) : (e.append ls).Idle := h

theorem Idle.of_holding {n : Nat} (h : e.Idle) (hh : Holding [] n e e') : e'.Idle := by
  intro c hc
  rcases (hh.takes c).mp hc with hc | hc
  · simp at hc
  · exact h c hc

end Emitter

namespace Lower

open Emit
open MiniC.Emitter (Holding)
open Typed (Vocabulary)

/-! ### Located operations -/

/-- Do a located operation from a state, and give its outcome and the state after it. -/
def perform {α : Type} (m : Located α) (s : Setting) (e : Emitter) : Except Failure α × Emitter :=
  m s e

section Perform

variable {α β : Type} {s : Setting} {e e' : Emitter}

theorem perform_bind_ok {m : Located α} {f : α → Located β} {a : α}
    (h : perform m s e = (.ok a, e')) : perform (m >>= f) s e = perform (f a) s e' := by
  show (ExceptT.bindCont (fun a => f a s) (perform m s e).1) (perform m s e).2 = _
  rw [h]
  rfl

theorem perform_bind_error {m : Located α} {f : α → Located β} {x : Failure}
    (h : perform m s e = (.error x, e')) : perform (m >>= f) s e = (.error x, e') := by
  show (ExceptT.bindCont (fun a => f a s) (perform m s e).1) (perform m s e).2 = _
  rw [h]
  rfl

/-- A sequence that succeeds is two operations that succeed. -/
theorem perform_bind_eq_ok {m : Located α} {f : α → Located β} {b : β}
    (h : perform (m >>= f) s e = (.ok b, e')) :
    ∃ a e1, perform m s e = (.ok a, e1) ∧ perform (f a) s e1 = (.ok b, e') := by
  cases hm : perform m s e with
  | mk o e1 =>
    cases o with
    | ok a =>
      rw [perform_bind_ok hm] at h
      exact ⟨a, e1, rfl, h⟩
    | error x =>
      rw [perform_bind_error hm] at h
      cases h

theorem perform_located_ok {m : Emit α} {a : α} (place : Location)
    (h : exec m s e = (.ok a, e')) : perform (located place m) s e = (.ok a, e') := by
  show ((exec m s e).1.mapError _, (exec m s e).2) = _
  rw [h]
  rfl

theorem perform_located_error {m : Emit α} {x : Error} (place : Location)
    (h : exec m s e = (.error x, e')) :
    perform (located place m) s e = (.error ⟨place, x⟩, e') := by
  show ((exec m s e).1.mapError _, (exec m s e).2) = _
  rw [h]
  rfl

theorem exec_of_perform {m : Emit α} {a : α} {place : Location}
    (h : perform (located place m) s e = (.ok a, e')) : exec m s e = (.ok a, e') := by
  cases hm : exec m s e with
  | mk o e1 =>
    cases o with
    | ok a' =>
      rw [perform_located_ok place hm] at h
      cases h
      rfl
    | error x =>
      rw [perform_located_error place hm] at h
      cases h

variable {place : Location}

theorem perform_label {name : String} (h : perform (located place (label name)) s e = (.ok (), e')) :
    e' = e.append [.label name] := by
  have hlabel := exec_of_perform h
  rw [exec_label] at hlabel
  cases hlabel
  rfl

theorem perform_jump {target : String} (h : perform (located place (jump target)) s e = (.ok (), e')) :
    e' = e.emit [.jmp target] := by
  have hjump := exec_of_perform h
  rw [exec_jump] at hjump
  cases hjump
  rfl

end Perform

/-- How a located operation ends, however strict generation is. -/
def Completes {α : Type} (m : Located α) (pool : Pool) (e : Emitter) (ok : α → Emitter → Prop)
    (fails : Error → Prop) : Prop :=
  ∃ o e', (∀ strict, perform m ⟨pool, strict⟩ e = (o, e')) ∧ e'.warnings = e.warnings ∧
    match o with
    | .ok a => ok a e'
    | .error x => fails x.cause

namespace Completes

variable {α β : Type} {m : Located α} {pool : Pool} {e e' : Emitter}
  {ok ok' : α → Emitter → Prop} {fails fails' : Error → Prop}

theorem pure {a : α} (hok : ok a e) : Completes (pure a) pool e ok fails :=
  ⟨.ok a, e, fun _ => rfl, rfl, hok⟩

theorem mono (h : Completes m pool e ok fails) (hok : ∀ a e', ok a e' → ok' a e')
    (hfails : ∀ x, fails x → fails' x) : Completes m pool e ok' fails' := by
  obtain ⟨o, e', hperform, hw, ho⟩ := h
  refine ⟨o, e', hperform, hw, ?_⟩
  cases o with
  | ok a => exact hok a e' ho
  | error x => exact hfails x.cause ho

theorem ok_of_perform {s : Setting} {a : α} (h : Completes m s.pool e ok fails)
    (hperform : perform m s e = (.ok a, e')) : ok a e' := by
  obtain ⟨o, e1, hends, -, ho⟩ := h
  have heq : (o, e1) = (.ok a, e') := (hends s.strict).symm.trans hperform
  cases heq
  exact ho

theorem of_outcome {m : Emit α} (h : Outcome m pool e ok fails) (place : Location) :
    Completes (located place m) pool e ok fails := by
  obtain ⟨⟨o, e'⟩, hexec, hw, ho⟩ := h
  cases o with
  | ok a => exact ⟨.ok a, e', fun strict => perform_located_ok place (hexec strict), hw, ho⟩
  | error x =>
    exact ⟨.error ⟨place, x⟩, e', fun strict => perform_located_error place (hexec strict), hw, ho⟩

/-- An operation after another starts from where that one succeeded. -/
theorem bind {f : α → Located β} {ok' : β → Emitter → Prop} (h : Completes m pool e ok fails)
    (hf : ∀ a e', ok a e' → Completes (f a) pool e' ok' fails) :
    Completes (m >>= f) pool e ok' fails := by
  obtain ⟨o, e', hperform, hw, ho⟩ := h
  cases o with
  | ok a =>
    obtain ⟨o', e'', hperform', hw', ho'⟩ := hf a e' ho
    exact ⟨o', e'', fun strict => by rw [perform_bind_ok (hperform strict), hperform' strict],
      hw'.trans hw, ho'⟩
  | error x => exact ⟨.error x, e', fun strict => perform_bind_error (hperform strict), hw, ho⟩

/-- The same with the errors of the first operation weakened on the way. -/
theorem bind' {f : α → Located β} {ok' : β → Emitter → Prop} (h : Completes m pool e ok fails)
    (hfails : ∀ x, fails x → fails' x)
    (hf : ∀ a e', ok a e' → Completes (f a) pool e' ok' fails') :
    Completes (m >>= f) pool e ok' fails' :=
  (h.mono (fun _ _ hok => hok) hfails).bind hf

end Completes

/-- Where no register is taken, the check for taken registers does nothing. -/
theorem exec_releaseLeaks {e : Emitter} (h : e.Idle) (scope : String) (s : Setting) :
    exec (releaseLeaks scope) s e = (.ok (), e) := by
  simp [releaseLeaks, exec_bind, h.liveCount]

theorem finish_completes {e0 e : Emitter} {pool : Pool} {fails : Error → Prop} (h0 : e0.Idle)
    (h : Holding [] 0 e0 e) (place : Location) :
    Completes (finish place) pool e (fun _ e' => Holding [] 0 e0 e') fails :=
  .of_outcome (.of_ok (fun _ => exec_releaseLeaks (h0.of_holding h) _ _) rfl h) place

/-! ### Parts of statements -/

section Parts

variable {V : Vocabulary} {pool : Pool} {cs : List Cell} {n : Nat} {e0 e : Emitter}

theorem callWith_outcome (h : Holding cs n e0 e) (t : Typed.Expr) (routine : String) :
    Outcome (do
      let r ← expr t
      let _ ← callFunction routine (some r) .void) pool e (fun _ e' => Holding cs n e0 e')
      (Fault (Ready V pool t)) := by
  refine (lowers V pool t h).bind fun r e1 hr => ?_
  refine (callFunction_some_outcome hr.1 routine .void _).bind fun result e2 hres => ?_
  cases result with
  | none => exact .pure hres.2
  | some r => simp [Taken, CType.isVoid] at hres

theorem print_outcome (V : Vocabulary) (h : Holding cs n e0 e) (t : Typed.Expr) :
    Outcome (print t) pool e (fun _ e' => Holding cs n e0 e') (Fault (Ready V pool t)) := by
  have harray : ∀ routine length, t.type.isArray = true →
      Outcome (do printArray (← expr t) routine length) pool e (fun _ e' => Holding cs n e0 e')
        (Fault (Ready V pool t)) := by
    intro routine length ha
    refine (lowers V pool t h).bind fun r e1 hr => ?_
    refine (printArray_outcome hr.1 routine length).mono (fun _ _ hok => hok) fun x hx =>
      hx.mono fun hfits => ?_
    rw [hr.2 hfits.typed]
    cases ht : t.type <;> simp_all [CType.isArray, CType.word]
  unfold print
  split
  · exact harray _ _ (by simp [*, CType.isArray])
  · exact harray _ _ (by simp [*, CType.isArray])
  · exact callWith_outcome h t _
  · exact .throw ⟨by simp, fun _ => .printLongs _⟩
  · exact callWith_outcome h t _
  · exact callWith_outcome h t _
  · exact callWith_outcome h t _
  · exact callWith_outcome h t _
  · exact callWith_outcome h t _
  · exact callWith_outcome h t _
  · rename_i hvoid
    refine .throw (.of_not (fun hfits => ?_) (by simp))
    have := hfits.value
    rw [hvoid] at this
    cases this

theorem zero_outcome (h : Holding cs n e0 e) (element : Scalar) (fits : Prop) :
    Outcome (zero element) pool e (Holds element cs n e0) (Fault fits) := by
  have hconst : ∀ v : Value, pool.Holds v →
      Outcome (loadImmediate v) pool e (Holds v.type.word cs n e0) (Fault fits) :=
    fun v hv => (loadImmediate_outcome h v).mono (fun _ _ hok => hok) fun x hx => hx.mono fun _ => hv
  cases element with
  | char => exact hconst (.char 0) trivial
  | int => exact hconst (.int 0) trivial
  | long => exact hconst (.long 0) trivial
  | float =>
    refine (hconst (.long 0) trivial).bind fun r e1 hr => ?_
    exact (convert_outcome hr.2 .long .float).mono (fun _ _ hok => hok) fun x hx =>
      hx.mono fun _ => hr.1

/-- Elements of an array that can be stored into from an index on, at a view. -/
def Reaches (s : Symbol) (element : Scalar) (index count : Nat) : Prop :=
  ∃ length, s.type = .array element length ∧ index + count ≤ length ∧ s.type.size < 2 ^ 31

theorem Reaches.first {s : Symbol} {element : Scalar} {index count : Nat}
    (h : Reaches s element index (count + 1)) :
    ∃ length, s.type = .array element length ∧ index < length ∧ index * element.size < 2 ^ 31 := by
  obtain ⟨length, ht, hlen, hsize⟩ := h
  refine ⟨length, ht, by omega, Nat.lt_of_le_of_lt ?_ hsize⟩
  rw [ht, CType.size, Nat.mul_comm]
  exact Nat.mul_le_mul_left _ (by omega)

theorem Reaches.rest {s : Symbol} {element : Scalar} {index count : Nat}
    (h : Reaches s element index (count + 1)) : Reaches s element (index + 1) count := by
  obtain ⟨length, ht, hlen, hsize⟩ := h
  exact ⟨length, ht, by omega, hsize⟩

theorem storeElements_outcome (V : Vocabulary) (h : Holding cs n e0 e) (s : Symbol) (index : Nat)
    (values : List Typed.Expr) :
    Outcome (storeElements s index values) pool e (fun _ e' => Holding cs n e0 e')
      (Fault (∃ element, Reaches s element index values.length ∧
        ∀ v ∈ values, Ready V pool v ∧ v.type.word = element)) := by
  induction values generalizing index e with
  | nil => exact .pure h
  | cons v values ih =>
    refine (lowers V pool v h).bind' (fun x hx => hx.mono fun ⟨element, _, hv⟩ =>
      (hv v (by simp)).1) fun r e1 hr => ?_
    refine (storeElement_outcome hr.1 (hr.1.takes_of_mem (by simp)) s index).bind'
      (fun x hx => hx.mono fun ⟨element, hreach, hv⟩ => ?_) fun _ e2 h2 => ?_
    · obtain ⟨hready, hheld⟩ := hv v (by simp)
      rw [hr.2 hready.typed, hheld]
      exact hreach.first
    refine (free_outcome h2).bind fun _ e3 h3 => ?_
    refine (ih h3 (index + 1)).mono (fun _ _ hok => hok) fun x hx =>
      hx.mono fun ⟨element, hreach, hv⟩ => ?_
    exact ⟨element, hreach.rest, fun v' hv' => hv v' (by simp [hv'])⟩

theorem fillElements_outcome {r : Reg} (h : Holding (r.cell :: cs) n e0 e) (s : Symbol)
    (index count : Nat) :
    Outcome (fillElements r s index count) pool e (fun _ e' => Holding (r.cell :: cs) n e0 e')
      (Fault (Reaches s r.view index count)) := by
  induction count generalizing index e with
  | zero => exact .pure h
  | succ count ih =>
    refine (storeElement_outcome h (h.takes_of_mem (by simp)) s index).bind'
      (fun x hx => hx.mono fun hreach => hreach.first) fun _ e1 h1 => ?_
    exact (ih h1 (index + 1)).mono (fun _ _ hok => hok) fun x hx => hx.mono fun hreach => hreach.rest

/-- What the initializer of a local object asks for. -/
structure InitReady (V : Vocabulary) (pool : Pool) (s : Symbol) (init : Typed.LocalInit) :
    Prop where
  covers : Covers pool V
  size : s.type.size < 2 ^ 31
  typed : init.WellTyped V s.type

theorem localInit_outcome (V : Vocabulary) (h : Holding cs n e0 e) (s : Symbol)
    (init : Typed.LocalInit) :
    Outcome (localInit s init) pool e (fun _ e' => Holding cs n e0 e')
      (Fault (InitReady V pool s init)) := by
  cases init with
  | scalar v =>
    have hready : InitReady V pool s (.scalar v) →
        v.WellTyped V ∧ s.type.isArray = false ∧ v.Fits s.type := by
      rintro ⟨-, -, ht⟩
      cases ht with
      | scalar ha hv hfit => exact ⟨hv, ha, hfit⟩
    refine (lowers V pool v h).bind' (fun x hx => hx.mono fun hf => ?_) fun r e1 hr => ?_
    · exact ⟨hf.covers, (hready hf).1, (word_of_fits (hready hf).2.2).2.1⟩
    refine (storeTo_outcome hr.1 (hr.1.takes_of_mem (by simp)) s.type (place s)).bind'
      (fun x hx => hx.mono fun hf => ?_) fun _ e2 h2 => free_outcome h2
    obtain ⟨hv, ha, hfit⟩ := hready hf
    obtain ⟨hheld, -, hvoid⟩ := word_of_fits hfit
    exact ⟨hvoid, ha, (hr.2 hv).trans hheld⟩
  | elements values =>
    have hready : ∀ element length, s.type = .array element length →
        InitReady V pool s (.elements values) → values.length ≤ length ∧
          ∀ v ∈ values, Ready V pool v ∧ v.type.word = element := by
      rintro element length hs ⟨hpool, -, ht⟩
      cases ht with
      | elements hs' hlen hv hvt =>
        rw [hs] at hs'
        cases hs'
        exact ⟨hlen, fun v hmem => ⟨⟨hpool, hv v hmem, isVoid_of_valueType (hvt v hmem)⟩,
          word_of_valueType (hvt v hmem)⟩⟩
    rw [localInit]
    split
    · rename_i element length hs
      refine (storeElements_outcome V h s 0 values).bind' (fun x hx => hx.mono fun hf => ?_)
        fun _ e1 h1 => ?_
      · obtain ⟨hlen, hv⟩ := hready element length hs hf
        exact ⟨element, ⟨length, hs, by omega, hf.size⟩, hv⟩
      split_ifs with hrest
      · refine (zero_outcome h1 element _).bind fun r e2 ⟨hview, h2⟩ => ?_
        refine (fillElements_outcome h2 s values.length (length - values.length)).bind'
          (fun x hx => hx.mono fun hf => ?_) fun _ e3 h3 => free_outcome h3
        exact ⟨length, hview ▸ hs, by omega, hf.size⟩
      · exact .pure h1
    · rename_i hs
      refine .throw (.of_not (fun hf => ?_) (by simp))
      obtain ⟨-, -, ht⟩ := hf
      cases ht with
      | elements hs' => exact hs _ _ hs'

theorem ret_outcome (V : Vocabulary) (h : Holding cs n e0 e) (f : Routine)
    (value : Option Typed.Expr) (place : Location) :
    Outcome (ret f value) pool e (fun _ e' => Holding cs n e0 e')
      (Fault (Covers pool V ∧ (Typed.Stmt.ret value place).WellTyped V f.result)) := by
  cases value with
  | none => exact jump_outcome h _
  | some v =>
    have hready : (Typed.Stmt.ret (some v) place).WellTyped V f.result →
        v.WellTyped V ∧ v.Fits f.result := by
      intro hwt
      cases hwt with
      | retValue hv ht => exact ⟨hv, ht⟩
    refine (lowers V pool v h).bind' (fun x hx => hx.mono fun hf => ?_) fun r e1 hr => ?_
    · obtain ⟨hv, ht⟩ := hready hf.2
      exact ⟨hf.1, hv, (word_of_fits ht).2.1⟩
    refine (returnValue_outcome hr.1 f.result).bind' (fun x hx => hx.mono fun hf => ?_)
      fun _ e2 h2 => jump_outcome h2 _
    obtain ⟨hv, ht⟩ := hready hf.2
    obtain ⟨hheld, -, hvoid⟩ := word_of_fits ht
    exact ⟨hvoid, (hr.2 hv).trans hheld⟩

end Parts

/-! ### Statements -/

/-- The labels of a construct that took its number in between can still be defined. -/
structure Numbered (kind : String) (id : Nat) (e0 e : Emitter) : Prop where
  known : kind ∈ constructs
  holding : Holding [] 0 e0 e
  lower : e0.labels.peek kind ≤ id
  upper : id < e.labels.peek kind

section Statements

variable {V : Vocabulary} {pool : Pool} {e0 e e' : Emitter} {kind : String} {id : Nat}
  {fails : Error → Prop}

theorem Numbered.step (h : Numbered kind id e0 e) (h' : Holding [] 0 e e') :
    Numbered kind id e0 e' :=
  ⟨h.known, h.holding.trans h', h.lower, Nat.lt_of_lt_of_le h.upper (h'.labels kind)⟩

theorem freshId_completes (e : Emitter) (hkind : kind ∈ constructs) (place : Location) :
    Completes (located place (freshId kind)) pool e (fun id e' => Numbered kind id e e') fails :=
  .of_outcome ((freshId_outcome (Holding.refl e) kind).mono
    (fun _ _ ⟨hh, hlo, hhi⟩ => ⟨hkind, hh, hlo, hhi⟩) fun _ hx => hx) place

theorem Numbered.label_completes (h : Numbered kind id e0 e) {role : String} (hrole : role ∈ roles)
    (place : Location) :
    Completes (located place (label (controlLabel kind id role))) pool e
      (fun _ e' => Numbered kind id e0 e') fails := by
  refine .of_outcome (.of_ok (fun _ => exec_label ..) rfl ⟨h.known, h.holding.append ?_, h.lower,
    h.upper⟩) place
  intro name hmem
  obtain rfl : name = controlLabel kind id role := by simpa using hmem
  exact Or.inr ⟨kind, h.known, id, role, hrole, rfl, h.lower, h.upper⟩

theorem Numbered.jump_completes (h : Numbered kind id e0 e) (target : String) (place : Location) :
    Completes (located place (jump target)) pool e (fun _ e' => Numbered kind id e0 e') fails :=
  .of_outcome (.of_ok (fun _ => exec_jump ..) rfl ⟨h.known, h.holding.emit _, h.lower,
    h.upper⟩) place

theorem Numbered.then (h : Numbered kind id e0 e) {m : Located Unit}
    (hm : Completes m pool e (fun _ e' => Holding [] 0 e e') fails) :
    Completes m pool e (fun _ e' => Numbered kind id e0 e') fails :=
  hm.mono (fun _ _ h' => h.step h') fun _ hx => hx

/-- From a state without taken registers a statement ends in such a state, and only a limit of the
generator stops a well-typed one. -/
def Finishes (V : Vocabulary) (pool : Pool) (f : Routine) (s : Typed.Stmt) : Prop :=
  ∀ {e : Emitter}, e.Idle →
    Completes (stmt f s) pool e (fun _ e' => Holding [] 0 e e')
      (Fault (Covers pool V ∧ s.WellTyped V f.result))

theorem stmts_completes (f : Routine) {body : List Typed.Stmt}
    (hbody : ∀ s ∈ body, Finishes V pool f s) (h : e.Idle) :
    Completes (stmts f body) pool e (fun _ e' => Holding [] 0 e e')
      (Fault (Covers pool V ∧ ∀ s ∈ body, s.WellTyped V f.result)) := by
  induction body generalizing e with
  | nil => exact .pure (Holding.refl e)
  | cons s rest ih =>
    rw [stmts]
    refine (hbody s (by simp) h).bind' (fun x hx => hx.mono fun hf => ⟨hf.1, hf.2 s (by simp)⟩)
      fun _ e1 h1 => ?_
    refine (ih (fun s' hs' => hbody s' (by simp [hs'])) (h.of_holding h1)).mono
      (fun _ _ h2 => h1.trans h2) fun x hx => hx.mono fun hf =>
        ⟨hf.1, fun s' hs' => hf.2 s' (by simp [hs'])⟩

theorem optionalStmt_completes (f : Routine) {s : Option Typed.Stmt}
    (hs : ∀ s' ∈ s, Finishes V pool f s') (h : e.Idle) :
    Completes (optionalStmt f s) pool e (fun _ e' => Holding [] 0 e e')
      (Fault (Covers pool V ∧ ∀ s' ∈ s, s'.WellTyped V f.result)) := by
  cases s with
  | none => exact .pure (Holding.refl e)
  | some s =>
    rw [optionalStmt]
    exact (hs s rfl h).mono (fun _ _ h' => h') fun x hx => hx.mono fun hf => ⟨hf.1, hf.2 s rfl⟩

theorem single_completes {m : Emit Unit} (h : e.Idle) (place : Location)
    (hm : Outcome m pool e (fun _ e' => Holding [] 0 e e') fails) :
    Completes (do located place m; finish place) pool e (fun _ e' => Holding [] 0 e e') fails :=
  (Completes.of_outcome hm place).bind fun _ _ h1 => finish_completes h h1 place

theorem optionalCondition_outcome (V : Vocabulary) (c : Option Typed.Expr) (target : String) :
    Outcome (optionalCondition c target) pool e (fun _ e' => Holding [] 0 e e')
      (Fault (∀ t ∈ c, Ready V pool t)) := by
  cases c with
  | none => exact .pure (Holding.refl e)
  | some t =>
    exact (condition_outcome V (Holding.refl e) t target).mono (fun _ _ h' => h') fun x hx =>
      hx.mono fun hf => hf t rfl

theorem optionalDiscard_outcome (V : Vocabulary) (t : Option Typed.Expr) :
    Outcome (optionalDiscard t) pool e (fun _ e' => Holding [] 0 e e')
      (Fault (∀ t' ∈ t, Covers pool V ∧ t'.WellTyped V)) := by
  cases t with
  | none => exact .pure (Holding.refl e)
  | some t =>
    exact (discard_outcome V (Holding.refl e) t).mono (fun _ _ h' => h') fun x hx =>
      hx.mono fun hf => hf t rfl

theorem finishes_declare (f : Routine) (s : Symbol) (init : Option Typed.LocalInit)
    (place : Location) : Finishes V pool f (.declare s init place) := by
  intro e h
  cases init with
  | none =>
    rw [stmt]
    exact finish_completes h (Holding.refl e) place
  | some init =>
    rw [stmt]
    refine single_completes h place ((localInit_outcome V (Holding.refl e) s init).mono
      (fun _ _ h' => h') fun x hx => hx.mono ?_)
    rintro ⟨hpool, hwt⟩
    cases hwt with
    | declare hs ht hsize hi => exact ⟨hpool, hsize, hi init rfl⟩

theorem finishes_cond (f : Routine) (c : Typed.Expr) {thenBranch : Typed.Stmt}
    {elseBranch : Option Typed.Stmt} (place : Location) (hthen : Finishes V pool f thenBranch)
    (helse : ∀ s ∈ elseBranch, Finishes V pool f s) :
    Finishes V pool f (.cond c thenBranch elseBranch place) := by
  intro e h
  have hready : (Typed.Stmt.cond c thenBranch elseBranch place).WellTyped V f.result →
      (c.WellTyped V ∧ c.type.isVoid = false) ∧ thenBranch.WellTyped V f.result ∧
        ∀ s ∈ elseBranch, s.WellTyped V f.result := by
    intro hwt
    cases hwt with
    | cond hc ht hthen helse => exact ⟨⟨hc, ht⟩, hthen, helse⟩
  rw [stmt]
  refine (freshId_completes e (by decide) place).bind fun id e1 h1 => ?_
  refine (h1.then (.of_outcome (condition_outcome V (Holding.refl e1) c _) place)).bind'
    (fun x hx => hx.mono fun hf => ⟨hf.1, (hready hf.2).1.1, (hready hf.2).1.2⟩) fun _ e2 h2 => ?_
  refine (h2.label_completes (by decide) place).bind fun _ e3 h3 => ?_
  refine (h3.then (hthen (h.of_holding h3.holding))).bind'
    (fun x hx => hx.mono fun hf => ⟨hf.1, (hready hf.2).2.1⟩) fun _ e4 h4 => ?_
  refine (h4.jump_completes _ place).bind fun _ e5 h5 => ?_
  refine (h5.label_completes (by decide) place).bind fun _ e6 h6 => ?_
  refine (h6.then (optionalStmt_completes f helse (h.of_holding h6.holding))).bind'
    (fun x hx => hx.mono fun hf => ⟨hf.1, (hready hf.2).2.2⟩) fun _ e7 h7 => ?_
  exact (h7.label_completes (by decide) place).mono (fun _ _ h8 => h8.holding) fun _ hx => hx

theorem finishes_whileLoop (f : Routine) (c : Typed.Expr) {body : Typed.Stmt} (place : Location)
    (hbody : Finishes V pool f body) : Finishes V pool f (.whileLoop c body place) := by
  intro e h
  have hready : (Typed.Stmt.whileLoop c body place).WellTyped V f.result →
      (c.WellTyped V ∧ c.type.isVoid = false) ∧ body.WellTyped V f.result := by
    intro hwt
    cases hwt with
    | whileLoop hc ht hb => exact ⟨⟨hc, ht⟩, hb⟩
  rw [stmt]
  refine (freshId_completes e (by decide) place).bind fun id e1 h1 => ?_
  refine (h1.label_completes (by decide) place).bind fun _ e2 h2 => ?_
  refine (h2.then (.of_outcome (condition_outcome V (Holding.refl e2) c _) place)).bind'
    (fun x hx => hx.mono fun hf => ⟨hf.1, (hready hf.2).1.1, (hready hf.2).1.2⟩) fun _ e3 h3 => ?_
  refine (h3.then (hbody (h.of_holding h3.holding))).bind'
    (fun x hx => hx.mono fun hf => ⟨hf.1, (hready hf.2).2⟩) fun _ e4 h4 => ?_
  refine (h4.jump_completes _ place).bind fun _ e5 h5 => ?_
  refine (h5.label_completes (by decide) place).bind fun _ e6 h6 => ?_
  exact finish_completes h h6.holding place

theorem finishes_forLoop (f : Routine) {init : Option Typed.Stmt} (c update : Option Typed.Expr)
    {body : Typed.Stmt} (place : Location) (hinit : ∀ s ∈ init, Finishes V pool f s)
    (hbody : Finishes V pool f body) : Finishes V pool f (.forLoop init c update body place) := by
  intro e h
  have hready : Covers pool V ∧ (Typed.Stmt.forLoop init c update body place).WellTyped V f.result →
      (∀ s ∈ init, s.WellTyped V f.result) ∧ (∀ t ∈ c, Ready V pool t) ∧
        (∀ t ∈ update, Covers pool V ∧ t.WellTyped V) ∧ body.WellTyped V f.result := by
    rintro ⟨hpool, hwt⟩
    cases hwt with
    | forLoop hi hc hu hb =>
      exact ⟨hi, fun t ht => ⟨hpool, (hc t ht).1, (hc t ht).2⟩, fun t ht => ⟨hpool, hu t ht⟩, hb⟩
  rw [stmt]
  refine (optionalStmt_completes f hinit h).bind' (fun x hx => hx.mono fun hf =>
    ⟨hf.1, (hready hf).1⟩) fun _ e0 h0 => ?_
  have hidle := h.of_holding h0
  refine (freshId_completes e0 (by decide) place).bind fun id e1 h1 => ?_
  refine (h1.label_completes (by decide) place).bind fun _ e2 h2 => ?_
  refine (h2.then (.of_outcome (optionalCondition_outcome V c _) place)).bind'
    (fun x hx => hx.mono fun hf => (hready hf).2.1) fun _ e3 h3 => ?_
  refine (h3.then (hbody (hidle.of_holding h3.holding))).bind'
    (fun x hx => hx.mono fun hf => ⟨hf.1, (hready hf).2.2.2⟩) fun _ e4 h4 => ?_
  refine (h4.then (.of_outcome (optionalDiscard_outcome V update) place)).bind'
    (fun x hx => hx.mono fun hf => (hready hf).2.2.1) fun _ e5 h5 => ?_
  refine (h5.jump_completes _ place).bind fun _ e6 h6 => ?_
  refine (h6.label_completes (by decide) place).bind fun _ e7 h7 => ?_
  exact finish_completes h (h0.trans h7.holding) place

/-- Every statement gives back the registers it takes. -/
theorem finishes (V : Vocabulary) (pool : Pool) (f : Routine) (s : Typed.Stmt) :
    Finishes V pool f s := by
  induction s using Typed.Stmt.induct with
  | block body hbody =>
    intro e h
    rw [stmt]
    refine (stmts_completes f hbody h).mono (fun _ _ h' => h') fun x hx => hx.mono ?_
    rintro ⟨hpool, hwt⟩
    cases hwt with
    | block hb => exact ⟨hpool, hb⟩
  | print t place =>
    intro e h
    rw [stmt]
    refine single_completes h place ((print_outcome V (Holding.refl e) t).mono (fun _ _ h' => h')
      fun x hx => hx.mono ?_)
    rintro ⟨hpool, hwt⟩
    cases hwt with
    | print ht hv => exact ⟨hpool, ht, hv⟩
  | declare s init place => exact finishes_declare f s init place
  | expr t place =>
    intro e h
    rw [stmt]
    refine single_completes h place ((discard_outcome V (Holding.refl e) t).mono
      (fun _ _ h' => h') fun x hx => hx.mono ?_)
    rintro ⟨hpool, hwt⟩
    cases hwt with
    | expr ht => exact ⟨hpool, ht⟩
  | cond c thenBranch elseBranch place hthen helse => exact finishes_cond f c place hthen helse
  | whileLoop c body place hbody => exact finishes_whileLoop f c place hbody
  | forLoop init c update body place hinit hbody =>
    exact finishes_forLoop f c update place hinit hbody
  | ret value place =>
    intro e h
    rw [stmt]
    exact single_completes h place (ret_outcome V (Holding.refl e) f value place)
  | empty =>
    intro e h
    rw [stmt]
    exact .pure (Holding.refl e)

end Statements

end Lower

end MiniC
