import MiniC.Lower.Program
import MiniC.Proofs.Lower.StmtOutcome

/-!
# No register is forgotten

A statement, a function and a program end with no register taken, whatever the program is. So it
does not matter whether generation is strict about registers that are still taken
(`generate_strict_irrelevant`): the check never finds one.

The same run through the parts of a program says when generation can fail: a well-typed program only
meets the limits of the generator (`program_completes`).
-/

set_option autoImplicit false

namespace MiniC.Lower

open Emit
open MiniC.Emitter (Holding)
open MiniC.X86 (Line Instr)
open Typed (Vocabulary)

section Functions

variable {V : Vocabulary} {pool : Pool} {n : Nat} {e0 e : Emitter} {fails : Error → Prop}

/-! ### Functions -/

/-- The lines from the label of a function to the end of the code that opens its frame. -/
def entryLines (f : Routine) : List Line :=
  [.directive (.globl f.name), .directive (.functionType f.name), .label f.name] ++
    (openFrame f.frameSize).map .instr

/-- The state when the frame of a function is open. -/
def entered (e : Emitter) (f : Routine) : Emitter := (e.withPushed 0).append (entryLines f)

/-- Parameters that can be stored. -/
def Storable (p : Symbol) : Prop := p.type.isVoid = false ∧ p.type.isArray = false

theorem storeParameters_outcome (h : Holding [] n e0 e) (ps : List Symbol)
    (sources : List X86.Register) :
    Outcome (storeParameters ps sources) pool e (fun _ e' => Holding [] n e0 e')
      (Fault (∀ p ∈ ps, Storable p)) := by
  induction ps generalizing e sources with
  | nil => exact .pure h
  | cons p ps ih =>
    cases sources with
    | nil => exact .pure h
    | cons source sources =>
      rw [storeParameters]
      by_cases hvoid : p.type.isVoid = false
      · rw [held_eq_ok hvoid]
        have hreg : Outcome (allocate p.type.word) pool e (Holds p.type.word [] n e0)
            (Fault (∀ p' ∈ p :: ps, Storable p')) := by
          refine ⟨_, fun _ => exec_allocate _ _ _, ?_⟩
          cases hf : e.fresh? p.type.word with
          | none => exact ⟨rfl, .register _ _⟩
          | some r => exact ⟨rfl, (Emitter.of_fresh? hf).1, h.take hf⟩
        refine hreg.bind fun r e1 ⟨hview, h1⟩ => ?_
        have hmove : Outcome (moveIn r source) pool e1
            (fun _ e' => Holding [r.cell] n e0 e') (Fault (∀ p' ∈ p :: ps, Storable p')) :=
          .of_ok (fun _ => exec_moveIn (h1.takes_of_mem (by simp)) source) rfl (h1.emit _)
        refine hmove.bind fun _ e2 h2 => ?_
        refine (storeTo_outcome h2 (h2.takes_of_mem (by simp)) p.type (place p)).bind'
          (fun x hx => hx.mono fun hps => ?_) fun _ e3 h3 => ?_
        · exact ⟨(hps p (by simp)).1, (hps p (by simp)).2, hview⟩
        refine (free_outcome h3).bind fun _ e4 h4 => ?_
        exact (ih h4 sources).mono (fun _ _ h' => h') fun x hx => hx.mono fun hps p' hp' =>
          hps p' (by simp [hp'])
      · have hheld : held p.type = .error (.unsupportedType "register class" .void) := by
          cases ht : p.type <;> simp_all [CType.isVoid, held]
        rw [hheld]
        exact .of_error (fun _ => exec_bind_error rfl) rfl
          (.of_not (fun hps => hvoid (hps p (by simp)).1) (by simp))

/-- The views of parameters are known unless one is `void`. -/
theorem mapM_held_cases (ps : List Symbol) :
    (∃ views, ps.mapM (fun p => held p.type) = .ok views) ∨
      (ps.mapM (fun p => held p.type) = .error (.unsupportedType "register class" .void) ∧
        ∃ p ∈ ps, p.type.isVoid = true) := by
  induction ps with
  | nil => exact .inl ⟨[], rfl⟩
  | cons p ps ih =>
    rw [List.mapM_cons]
    by_cases hvoid : p.type.isVoid = false
    · rw [held_eq_ok hvoid]
      rcases ih with ⟨views, hviews⟩ | ⟨herror, p', hp', hv'⟩
      · rw [hviews]
        exact .inl ⟨_, rfl⟩
      · rw [herror]
        exact .inr ⟨rfl, p', by simp [hp'], hv'⟩
    · have ht : p.type = .void := by cases ht : p.type <;> simp_all [CType.isVoid]
      rw [ht]
      exact .inr ⟨rfl, p, by simp, by rw [ht]; rfl⟩

/-- A function's frame is opened, and then its arguments are stored. -/
theorem exec_prologue {s : Setting} {f : Routine} (hframe : f.frameSize < 2 ^ 31)
    (ps : List Symbol) :
    exec (prologue f ps) s e =
      exec (do
        let views ← Emit.ofExcept (ps.mapM fun p => held p.type)
        let sources ← Emit.ofExcept (assignArguments views)
        storeParameters ps sources) s (entered e f) := by
  have hnot : ¬ 0x80000000 ≤ f.frameSize := by omega
  simp only [prologue, if_neg hnot, exec_bind, exec_modify, directive, exec_line, exec_label,
    exec_instrs]
  simp [entered, entryLines, Emitter.emit, Emitter.append, Emitter.withPushed]

theorem prologue_outcome (e : Emitter) (f : Routine) (ps : List Symbol) :
    Outcome (prologue f ps) pool e (fun _ e' => Holding [] 0 (entered e f) e')
      (Fault (f.frameSize < 2 ^ 31 ∧ ∀ p ∈ ps, Storable p)) := by
  by_cases hframe : f.frameSize < 2 ^ 31
  · have hstore : Outcome (do
        let views ← Emit.ofExcept (ps.mapM fun p => held p.type)
        let sources ← Emit.ofExcept (assignArguments views)
        storeParameters ps sources) pool (entered e f)
        (fun _ e' => Holding [] 0 (entered e f) e')
        (Fault (f.frameSize < 2 ^ 31 ∧ ∀ p ∈ ps, Storable p)) := by
      rcases mapM_held_cases ps with ⟨views, hviews⟩ | ⟨herror, p, hp, hv⟩
      · rw [hviews]
        show Outcome (Emit.ofExcept (assignArguments views) >>= storeParameters ps) pool _ _ _
        cases hargs : assignArguments views with
        | error x =>
          obtain ⟨index, view, rfl⟩ := error_of_assignFrom hargs
          exact .of_error (fun _ => exec_bind_error rfl) rfl (.argument _ index view)
        | ok sources =>
          show Outcome (storeParameters ps sources) pool _ _ _
          exact (storeParameters_outcome (Holding.refl _) ps sources).mono (fun _ _ h' => h')
            fun x hx => hx.mono fun hf => hf.2
      · rw [herror]
        refine .of_error (fun _ => exec_bind_error rfl) rfl (.of_not (fun hf => ?_) (by simp))
        rw [(hf.2 p hp).1] at hv
        cases hv
    obtain ⟨ending, hexec, hw, hends⟩ := hstore
    exact ⟨ending, fun strict => (exec_prologue hframe ps).trans (hexec strict), hw, hends⟩
  · rw [prologue, if_pos (by omega)]
    exact .throw (.of_not (fun hf => hframe hf.1) (by simp))

/-- The lines that end a function. -/
def exitLines (f : Routine) : List Line :=
  [.instr (.alu .xor .long (.reg (.long .rax)) (.reg (.long .rax))), .label (returnLabel f.name)] ++
    closeFrame.map .instr ++ [.directive (.functionSize f.name)]

theorem exec_epilogue {s : Setting} (h : e.Idle) (hpushed : e.pushed = 0) (f : Routine) :
    exec (epilogue f) s e = (.ok (), e.append (exitLines f)) := by
  simp only [epilogue, exec_bind, exec_get, hpushed, ne_eq, not_true_eq_false, if_false,
    exec_releaseLeaks h, exec_instr, exec_label, exec_instrs, directive, exec_line]
  simp [exitLines, Emitter.emit]

/-- What a part of a program leaves as it found it: no register is taken, and as many were given
back as taken. -/
structure Settles (e e' : Emitter) : Prop where
  idle : e'.Idle
  net : e'.net = e.net

/-- What generating a function asks for. -/
def FunctionReady (V : Vocabulary) (pool : Pool) (f : Typed.Function) : Prop :=
  Covers pool V ∧ f.WellTyped V

theorem function_completes (V : Vocabulary) (h : e.Idle) (f : Typed.Function) :
    Completes (function f) pool e (fun _ e' => Settles e e') (Fault (FunctionReady V pool f)) := by
  refine (Completes.of_outcome (prologue_outcome e f.routine f.parameters) f.place).bind'
    (fun x hx => hx.mono fun hf => ⟨hf.2.frame, fun p hp => (hf.2.parameters p hp).2⟩)
    fun _ e1 h1 => ?_
  have hentered : (entered e f.routine).Idle := h
  have hidle1 : e1.Idle := hentered.of_holding h1
  refine (stmts_completes f.routine (fun s _ => finishes V pool f.routine s) hidle1).bind'
    (fun x hx => hx.mono fun hf => ⟨hf.1, hf.2.body⟩) fun _ e2 h2 => ?_
  have hidle2 : e2.Idle := hidle1.of_holding h2
  have hpushed : e2.pushed = 0 := by rw [h2.pushed, h1.pushed]; rfl
  refine .of_outcome (.of_ok (fun _ => exec_epilogue hidle2 hpushed f.routine) rfl ?_) f.place
  have hnet : e2.net = e.net := by
    rw [h2.net, h1.net]
    simp [entered]
  exact ⟨hidle2, hnet⟩

theorem functions_completes (V : Vocabulary) (h : e.Idle) (fs : List Typed.Function) :
    Completes (functions fs) pool e (fun _ e' => Settles e e')
      (Fault (∀ f ∈ fs, FunctionReady V pool f)) := by
  induction fs generalizing e with
  | nil => exact .pure ⟨h, rfl⟩
  | cons f fs ih =>
    rw [functions]
    refine (function_completes V h f).bind' (fun x hx => hx.mono fun hf => hf f (by simp))
      fun _ e1 h1 => ?_
    exact (ih h1.idle).mono (fun _ _ h2 => ⟨h2.idle, h2.net.trans h1.net⟩) fun x hx =>
      hx.mono fun hf f' hf' => hf f' (by simp [hf'])

end Functions

/-! ### Global objects -/

section Globals

variable {V : Vocabulary} {pool : Pool} {e : Emitter}

/-- A constant that fits an object is stored by a directive. -/
theorem dataDirective_of_scalar {s : Scalar} {v : Value} (hv : v.type = .scalar s) :
    ∃ d, dataDirective pool (.scalar s) v = .ok d := by
  cases v <;> simp only [Value.type, CType.scalar.injEq, reduceCtorEq] at hv <;> subst hv <;>
    exact ⟨_, rfl⟩

theorem dataDirectives_of_forall {slot : CType} {vs : List Value}
    (h : ∀ v ∈ vs, ∃ d, dataDirective pool slot v = .ok d) :
    ∃ ds, dataDirectives pool slot vs = .ok ds := by
  induction vs with
  | nil => exact ⟨[], rfl⟩
  | cons v vs ih =>
    obtain ⟨d, hd⟩ := h v (by simp)
    obtain ⟨ds, hds⟩ := ih fun v' hv' => h v' (by simp [hv'])
    exact ⟨d :: ds, by simp [dataDirectives, hd, hds, bind, Except.bind, pure, Except.pure]⟩

theorem flattenAll_map_value (vs : List Value) : Constant.flattenAll (vs.map .value) = vs := by
  induction vs with
  | nil => rfl
  | cons v vs ih => simp [Constant.flattenAll, Constant.flatten, ih]

/-- The constants of an object and how many it has room for. -/
theorem of_dataFits {type : CType} {c : Constant} (hpool : Covers pool V)
    (h : Typed.DataFits V type c) :
    ∃ slot capacity, elements? type = some (slot, capacity) ∧ c.flatten.length ≤ capacity ∧
      ∀ v ∈ c.flatten, ∃ d, dataDirective pool slot v = .ok d := by
  cases h with
  | scalar hv =>
    refine ⟨_, 1, rfl, by simp [Constant.flatten], fun v' hv' => ?_⟩
    obtain rfl : v' = _ := by simpa [Constant.flatten] using hv'
    exact dataDirective_of_scalar hv
  | null =>
    refine ⟨_, 1, rfl, by simp [Constant.flatten], fun v' hv' => ?_⟩
    obtain rfl : v' = _ := by simpa [Constant.flatten] using hv'
    exact ⟨_, rfl⟩
  | string hs =>
    refine ⟨_, 1, rfl, by simp [Constant.flatten], fun v' hv' => ?_⟩
    obtain rfl : v' = _ := by simpa [Constant.flatten] using hv'
    obtain ⟨label, hlabel⟩ := Option.isSome_iff_exists.mp (hpool (.str _) hs)
    exact ⟨.address label, by simp [dataDirective, hlabel]⟩
  | elements hlen hv =>
    refine ⟨_, _, rfl, by simpa [Constant.flatten, flattenAll_map_value] using hlen,
      fun v' hv' => ?_⟩
    exact dataDirective_of_scalar (hv v' (by simpa [Constant.flatten, flattenAll_map_value] using hv'))

theorem globalLines_of_wellTyped {g : Typed.Global} (hpool : Covers pool V) (h : g.WellTyped V) :
    ∃ lines, globalLines pool g.symbol g.init = .ok lines := by
  obtain ⟨slot, capacity, hel, hlen, hvs⟩ : ∃ slot capacity,
      elements? g.symbol.type = some (slot, capacity) ∧
      ((g.init.map Constant.flatten).getD []).length ≤ capacity ∧
      ∀ v ∈ (g.init.map Constant.flatten).getD [], ∃ d, dataDirective pool slot v = .ok d := by
    cases hi : g.init with
    | some c => exact of_dataFits hpool (h.init c hi)
    | none =>
      have hvoid := h.type
      cases ht : g.symbol.type with
      | void => simp [ht, CType.isVoid] at hvoid
      | _ => exact ⟨_, _, rfl, by simp, by simp⟩
  obtain ⟨ds, hds⟩ := dataDirectives_of_forall hvs
  have hroom : ¬ capacity < ((g.init.map Constant.flatten).getD []).length := by omega
  unfold globalLines
  rw [if_pos h.inData, hel]
  simp only [if_neg hroom, hds]
  exact ⟨_, rfl⟩

/-- A constant that cannot be stored is no matter of registers. -/
theorem dataDirectives_error {slot : CType} {vs : List Value} {x : Error}
    (h : dataDirectives pool slot vs = .error x) :
    ∀ count scope, x ≠ .misuse (.stillLive count scope) := by
  induction vs with
  | nil => cases h
  | cons v vs ih =>
    simp only [dataDirectives, bind, Except.bind] at h
    split at h
    · rename_i hd
      cases h
      unfold dataDirective at hd
      simp only at hd
      intro count scope hx
      subst hx
      split at hd <;> (try split at hd) <;> (try split at hd) <;> cases hd
    · split at h
      · rename_i hds
        cases h
        exact ih hds
      · cases h

theorem globalLines_error {s : Symbol} {init : Option Constant} {x : Error}
    (h : globalLines pool s init = .error x) :
    ∀ count scope, x ≠ .misuse (.stillLive count scope) := by
  unfold globalLines at h
  split at h
  · split at h
    · cases h
      simp
    · simp only at h
      split at h
      · cases h
        simp
      · simp only [bind, Except.bind] at h
        split at h
        · rename_i hds
          cases h
          exact dataDirectives_error hds
        · cases h
  · cases h
    simp

theorem globals_completes (V : Vocabulary) (h : e.Idle) (gs : List Typed.Global) :
    Completes (globals gs) pool e (fun _ e' => Settles e e')
      (Fault (Covers pool V ∧ ∀ g ∈ gs, g.WellTyped V)) := by
  induction gs generalizing e with
  | nil => exact .pure ⟨h, rfl⟩
  | cons g gs ih =>
    rw [globals]
    have hdeclare : Outcome (declareGlobal g.symbol g.init) pool e (fun _ e' => Settles e e')
        (Fault (Covers pool V ∧ g.WellTyped V)) := by
      cases hlines : globalLines pool g.symbol g.init with
      | error x =>
        have hexec : ∀ strict, exec (declareGlobal g.symbol g.init) ⟨pool, strict⟩ e =
            (.error x, e) := by
          intro strict
          simp [declareGlobal, exec_bind, hlines]
        refine .of_error hexec rfl (.of_not ?_ (globalLines_error hlines))
        rintro ⟨hpool, hwt⟩
        obtain ⟨lines, hok⟩ := globalLines_of_wellTyped hpool hwt
        rw [hlines] at hok
        cases hok
      | ok lines =>
        have hexec : ∀ strict, exec (declareGlobal g.symbol g.init) ⟨pool, strict⟩ e =
            (.ok (), { e with data := e.data ++ lines }) := by
          intro strict
          simp [declareGlobal, exec_bind, hlines, dataLines]
        exact .of_ok hexec rfl ⟨h, rfl⟩
    refine (Completes.of_outcome hdeclare g.place).bind'
      (fun x hx => hx.mono fun hf => ⟨hf.1, hf.2 g (by simp)⟩) fun _ e1 h1 => ?_
    exact (ih h1.idle).mono (fun _ _ h2 => ⟨h2.idle, h2.net.trans h1.net⟩) fun x hx =>
      hx.mono fun hf => ⟨hf.1, fun g' hg' => hf.2 g' (by simp [hg'])⟩

end Globals

/-! ### Programs -/

/-- What generating a program asks for. -/
structure ProgramReady (V : Vocabulary) (pool : Pool) (p : Typed.Program) : Prop where
  covers : Covers pool V
  globals : ∀ g ∈ p.globals, g.WellTyped V
  functions : ∀ f ∈ p.functions, f.WellTyped V

section Programs

variable {pool : Pool} {e : Emitter}

theorem not_takes_freeAll (e : Emitter) (c : Cell) :
    ¬ Emitter.Takes { e with bank := ⟨e.bank.val.freeAll, e.bank.property.freeAll⟩ } c := by
  cases c <;>
    simp [Emitter.Takes, Bank.Takes, Bank.freeAll, List.getElem?_replicate]

theorem preamble_outcome (e : Emitter) (fails : Error → Prop) :
    Outcome preamble pool e (fun _ e' => Settles e e') fails := by
  have hexec : ∀ strict, exec preamble ⟨pool, strict⟩ e =
      (.ok (), { e with
        bank := ⟨e.bank.val.freeAll, e.bank.property.freeAll⟩
        pushed := 0
        data := e.data ++ (.directive .data :: poolLines pool) }) := fun _ => rfl
  exact .of_ok hexec rfl ⟨not_takes_freeAll e, rfl⟩

theorem postamble_outcome (h : e.Idle) (fails : Error → Prop) :
    Outcome postamble pool e (fun _ e' => Settles e e') fails := by
  have hexec : ∀ strict, exec postamble ⟨pool, strict⟩ e =
      exec (do freeAll; directive .plainStack) ⟨pool, strict⟩ e :=
    fun strict => exec_bind_ok (exec_releaseLeaks h _ _)
  exact .of_ok hexec rfl ⟨not_takes_freeAll e, rfl⟩

/-- Generating a program gives back every register, and fails only at the limits of the generator if
the program is well typed. -/
theorem program_completes (V : Vocabulary) (pool : Pool) (e : Emitter) (p : Typed.Program) :
    Completes (program p) pool e (fun _ e' => Settles e e') (Fault (ProgramReady V pool p)) := by
  refine (Completes.of_outcome (preamble_outcome e _) .unknown).bind fun _ e1 h1 => ?_
  refine (globals_completes V h1.idle p.globals).bind'
    (fun x hx => hx.mono fun hf => ⟨hf.covers, hf.globals⟩) fun _ e2 h2 => ?_
  refine (functions_completes V h2.idle p.functions).bind'
    (fun x hx => hx.mono fun hf f hmem => ⟨hf.covers, hf.functions f hmem⟩) fun _ e3 h3 => ?_
  exact .of_outcome ((postamble_outcome h3.idle _).mono (fun _ _ h4 =>
    ⟨h4.idle, h4.net.trans (h3.net.trans (h2.net.trans h1.net))⟩) fun _ hx => hx) .unknown

end Programs

/-- Generation never depends on how strict it is about registers that are still taken: it gives the
same file or the same failure. However strict it is, the check after each statement, function and
program finds no such register, for it gives no warning and no failure about one; and after a
success no register is taken and as many were given back as taken. -/
theorem generate_strict_irrelevant (pool : Pool) (p : Typed.Program) :
    generate ⟨pool, true⟩ p = generate ⟨pool, false⟩ p ∧
      ∀ strict, ∃ outcome e, (program p ⟨pool, strict⟩).run {} = (outcome, e) ∧ e.warnings = #[] ∧
        match outcome with
        | .ok () => e.bank.val.liveCount = 0 ∧ e.bank.val.net = 0
        | .error failure => ∀ count scope, failure.cause ≠ .misuse (.stillLive count scope) := by
  -- any vocabulary does: nothing is asked of the program here
  obtain ⟨o, e, hperform, hw, ho⟩ :=
    program_completes everything pool {} p
  constructor
  · show (match perform (program p) ⟨pool, true⟩ {} with | (.ok (), e) => _ | (.error f, _) => _) =
      (match perform (program p) ⟨pool, false⟩ {} with | (.ok (), e) => _ | (.error f, _) => _)
    rw [hperform, hperform]
  · intro strict
    refine ⟨o, e, hperform strict, hw, ?_⟩
    cases o with
    | ok => exact ⟨ho.idle.liveCount, ho.net⟩
    | error failure => exact ho.notLeak

end MiniC.Lower
