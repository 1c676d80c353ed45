import MiniC.Proofs.Lower.ProgramCode
import MiniC.Proofs.Lower.StmtRun
import MiniC.Proofs.Typing.Names

/-!
# What the code of functions does

A function over integer variables, in the file that is generated for a program: from the end of the code
that opens its frame, its statements are run to the label that ends it, with the value they return in the
register for results and with every variable in memory as the statements leave it
(`function_runs_body`).

The statements are executed on variables, the code on bytes. The two agree because no byte belongs to two
variables. Within a frame this follows from the way frames are laid out (`Laid.apart`); of the global
variables the linker takes care (`Linked`).
-/

set_option autoImplicit false

namespace MiniC

open MiniC.X86 (Layout Memory)

/-! ### Bytes of a frame -/

namespace Typing

variable {D : Layout} {base a : BitVec 64} {o o' : Symbol} {frame frame' : Frame} {os : List Symbol}

/-- How far below the base of the frame the bytes of an object lie. -/
theorem distance_of_covers {k : Nat} (haddress : o.address = .frame (-(k : Int)))
    (hsize : o.type.size ≤ k) (hk : k < 2 ^ 64) (h : o.Covers D base a) :
    k < (base - a).toNat + o.type.size ∧ (base - a).toNat ≤ k := by
  have hlocate : o.locate D base = base + BitVec.ofInt 64 (-(k : Int)) := by
    rw [Symbol.locate, haddress]
  have hneg : BitVec.ofInt 64 (-(k : Int)) = -BitVec.ofNat 64 k := by
    rw [BitVec.ofInt_neg, BitVec.ofInt_natCast]
  have hdistance : base - a = BitVec.ofNat 64 k - (a - o.locate D base) := by
    rw [hlocate, hneg]
    bv_omega
  have hoffset : (a - o.locate D base).toNat < o.type.size := h
  rw [hdistance, BitVec.toNat_sub, BitVec.toNat_ofNat, Nat.mod_eq_of_lt hk]
  omega

theorem Laid.apart (h : Laid frame os frame') (hused : frame'.used < 2 ^ 64) (ho : o ∈ os)
    (ho' : o' ∈ os) (hc : o.Covers D base a) (hc' : o'.Covers D base a) : o = o' := by
  induction h with
  | nil => cases ho
  | cons haddress hsize hos ih =>
    rename_i frame frame' first os
    have hfirst := Frame.le_extend_used frame first.type
    have hle := hos.used_le
    -- the first object lies above all others
    have hbelow : ∀ {q}, q ∈ os → q.Covers D base a → ¬ first.Covers D base a := by
      intro q hq hqc hfc
      obtain ⟨k, hk, hlo, hhi, -⟩ := hos.bounds hq
      have hdq := distance_of_covers hk (by omega) (by omega) hqc
      have hdf := distance_of_covers haddress (by omega) (by omega) hfc
      omega
    rcases List.mem_cons.mp ho with rfl | hmem <;> rcases List.mem_cons.mp ho' with rfl | hmem'
    · rfl
    · exact absurd hc (hbelow hmem' hc')
    · exact absurd hc' (hbelow hmem hc)
    · exact ih hused hmem hmem'

end Typing

namespace Lower

open Emit
open MiniC.Emitter (Holding added)
open MiniC.X86 (Machine Exit Line landing)
open Typed (Vocabulary Exec Ending Apart Represents Spares valuation memory)

/-- A byte of a frame of some size. -/
def InFrame (base : BitVec 64) (size : Nat) (a : BitVec 64) : Prop :=
  0 < (base - a).toNat ∧ (base - a).toNat ≤ size

/-- What the linker takes care of: no two global variables share a byte, and none has a byte in the
frame. -/
structure Linked (D : Layout) (base : BitVec 64) (size : Nat) (globals : Symbol → Prop) : Prop where
  apart : Apart D base globals
  outside : ∀ o a, globals o → o.Covers D base a → ¬ InFrame base size a

/-- The global variables of a program. -/
def GlobalVariable (p : Typed.Program) (o : Symbol) : Prop :=
  o ∈ p.globals.map (·.symbol) ∧ o.type.isInteger = true

/-- The variables that a function can use: its own and the global ones. -/
def Variable (p : Typed.Program) (f : Typed.Function) (o : Symbol) : Prop :=
  o ∈ f.objects ∨ GlobalVariable p o

theorem apart_of_laid {D : Layout} {base : BitVec 64} {p : Typed.Program} {f : Typed.Function}
    {frame : Typing.Frame} (hlaid : Typing.Laid {} f.objects frame) (hsize : frame.size < 2 ^ 31)
    (hlinked : Linked D base frame.size (GlobalVariable p)) : Apart D base (Variable p f) := by
  have hused := frame.used_le_size
  have hframe : ∀ o a, o ∈ f.objects → o.Covers D base a → InFrame base frame.size a := by
    intro o a ho hc
    obtain ⟨k, hk, hlo, hhi, -⟩ := hlaid.bounds ho
    have hd := Typing.distance_of_covers hk (by omega) (by omega) hc
    have hzero : ({} : Typing.Frame).used = 0 := rfl
    exact ⟨by omega, by omega⟩
  intro o o' a ho ho' hc hc'
  rcases ho with ho | ho <;> rcases ho' with ho' | ho'
  · exact hlaid.apart (by omega) ho ho' hc hc'
  · exact absurd (hframe o a ho hc) (hlinked.outside o' a ho' hc')
  · exact absurd (hframe o' a ho' hc') (hlinked.outside o a ho hc)
  · exact hlinked.apart o o' a ho ho' hc hc'

/-! ### From the statements to the end -/

section Body

variable {V : Vocabulary} {D : Layout} {s : Setting} {p : Typed.Program} {f : Typed.Function}
  {file : String} {lines : List Line} {e0 e1 e2 e3 : Emitter} {m : Machine} {mem : Memory} {x : Ending}

/-- What is true when a function has come to the label that ends it: a value that it returns is in the
register for results, and so is a zero if it returned none. -/
structure Returns (x : Ending) (mem : Memory) (m m' : Machine) : Prop where
  value : ∀ v, x = .returned (some v) → m'.regs .rax = BitVec.ofInt 64 v
  none : x = .normal → m'.regs .rax = 0
  mem : m'.mem = mem
  base : m'.regs .rbp = m.regs .rbp
  top : m'.regs .rsp = m.regs .rsp

/-- No register is taken between statements, so the top of the stack is kept. -/
theorem Passed.top {e : Emitter} {m' : Machine} (h : Passed e mem m m') :
    m'.regs .rsp = m.regs .rsp := by
  refine h.keeps .rsp ⟨by decide, fun slot hslot => ?_⟩
  exact absurd (List.mem_of_getElem? hslot) (by decide)

/-- The register for results is cleared at the end of the statements. -/
theorem run_clear (m : Machine) :
    ∃ m', X86.Instr.run D (.alu .xor .long (.reg (.long .rax)) (.reg (.long .rax))) m = some m' ∧
      m'.regs .rax = 0 ∧ m'.mem = m.mem ∧ ∀ g, g ≠ .rax → m'.regs g = m.regs g := by
  refine ⟨_, rfl, ?_, rfl, fun g hg => ?_⟩
  · show Function.update m.regs X86.Gpr.rax _ X86.Gpr.rax = 0
    rw [Function.update_self, BitVec.xor_self]
    rfl
  · exact Function.update_of_ne hg _ _

theorem runs_body (c : FileCode s p f file lines e0 e1 e2 e3)
    (hold : X86.Older e1.labels e1.text.toList)
    (hreturn : landing lines (returnLabel f.routine.name) = some (e2.text.size + 1))
    (hwt : ∀ st ∈ f.body, st.WellTyped V f.routine.result)
    (hi : (Typed.Stmt.block f.body).isIntegral = true)
    (h : Exec (memory D (m.regs .rbp)) (.block f.body) m.mem x mem) :
    ∃ m', X86.Reaches D lines (e1.text.size, m) (e2.text.size + 1, m') ∧ Returns x mem m m' := by
  have hcode : perform (stmt f.routine (.block f.body)) s e1 = (.ok (), e2) := by
    rw [stmt]
    exact c.body
  have hrun : Executes D e1 e2 m (Ends e1 f.routine x mem m) :=
    enacts h (.block hwt) hi c.idle_body hcode ⟨rfl, rfl⟩
  obtain ⟨after, hlines⟩ := c.within
  rw [c.text_closing, List.append_assoc] at hlines
  obtain ⟨exit, m1, hends, hleaves⟩ := hrun e1.text.toList (exitLines f.routine ++ after) hold
  have htext : e2.text.toList = e1.text.toList ++ added e1 e2 := c.holding_body.grows.text
  have hsize : e1.text.toList.length + (added e1 e2).length = e2.text.size := by
    rw [← Array.length_toList, htext, List.length_append]
  rw [hlines, hsize, Array.length_toList] at hleaves
  cases x with
  | returned v =>
    obtain rfl := hends.exit
    exact ⟨m1, hleaves _ hreturn, hends.result, (fun hx => by cases hx), hends.passed.mem, hends.passed.keeps.base,
      hends.passed.top⟩
  | normal =>
    obtain rfl := hends.exit
    obtain ⟨m2, hclear, hzero, hmem, hothers⟩ := run_clear (D := D) m1
    have hlast : X86.Reaches D lines (e2.text.size, m1) (e2.text.size + 1, m2) := by
      rw [← hlines, ← List.append_assoc, ← htext, ← Array.length_toList, exitLines, List.cons_append,
        List.cons_append, List.append_assoc, List.cons_append]
      exact X86.reaches_instr hclear
    have hnext : X86.Reaches D lines (e1.text.size, m) (e2.text.size, m1) := hleaves
    refine ⟨m2, hnext.trans hlast, (fun v hx => by cases hx), fun _ => hzero, hmem.trans hends.passed.mem, ?_, ?_⟩
    · rw [hothers _ (by decide), hends.passed.keeps.base]
    · rw [hothers _ (by decide), hends.passed.top]

end Body

/-! ### Functions over integer variables -/

/-- A function of a program that is read and accepted, whose parameters, variables and statements are
over integers, in the file that is generated for the program. For every machine and every store of the
variables that its memory represents: if the statements end with a store, then from the end of the code
that opens the frame the code comes to the label that ends the function, where the value returned is in
the register for results, or zero if the end of the statements was reached, the memory represents the
store that the statements end with and differs in no other byte, and the base of the frame and the top
of the stack are as before. -/
theorem function_runs_body {source name : String} {pool pool' : Pool} {ast : Ast.Program}
    {p : Typed.Program} (hparse : parse source name pool = (.ok ast, pool'))
    (hcheck : Typing.check ast = .ok p) {strict : Bool} {file : String}
    (hgenerate : generate ⟨pool', strict⟩ p = .ok file) {f : Typed.Function} (hf : f ∈ p.functions)
    (hplain : f.isPlain = true) :
    ∃ lines e0 e1 e2 e3 i, FileCode ⟨pool', strict⟩ p f file lines e0 e1 e2 e3 ∧
      landing lines (returnLabel f.routine.name) = some i ∧
      ∀ D m st x st', Linked D (m.regs .rbp) f.routine.frameSize (GlobalVariable p) →
        Represents D (m.regs .rbp) (Variable p f) st m.mem →
        Exec valuation (.block f.body) st x st' →
        ∃ m', X86.Reaches D lines (e1.text.size, m) (i, m') ∧
          (∀ v, x = .returned (some v) → m'.regs .rax = BitVec.ofInt 64 v) ∧
          (x = .normal → m'.regs .rax = 0) ∧
          Represents D (m.regs .rbp) (Variable p f) st' m'.mem ∧
          Spares D (m.regs .rbp) (Variable p f) m.mem m'.mem ∧
          m'.regs .rbp = m.regs .rbp ∧ m'.regs .rsp = m.regs .rsp := by
  have hspelled := spelled_of_parse hparse
  have hprogram : Typing.program {} ast = (.ok p, (Typing.program {} ast).2) := Prod.ext hcheck rfl
  have hnames := Typing.names_spelled hspelled hprogram
  have hnodup := Typing.nodup_names hprogram
  obtain ⟨lines, e0, e1, e2, e3, hcode⟩ := fileCode_of_generate hgenerate hf
  have hreturn := hcode.landing_return hnames hnodup
  refine ⟨lines, e0, e1, e2, e3, _, hcode, hreturn, fun D m st x st' hlinked hrepresents hexec => ?_⟩
  -- the function is well typed over its own objects and the global ones
  have hknown : Typing.Known.Sound {} := ⟨rfl, by simp, by simp⟩
  obtain ⟨⟨frame, hlaid, hsize⟩, htyped⟩ :=
    (Typing.program_checked hknown hspelled hprogram).2.2 f hf
  have hwt := htyped ⟨(Typing.program {} ast).2.functions,
    fun o => o ∈ f.objects ∨ o ∈ (Typing.program {} ast).2.globals, fun _ => True, fun _ => True⟩
    ⟨rfl, fun v _ => by cases v <;> trivial, fun _ => .inr⟩ fun _ => .inl
  rw [Typed.Function.isPlain, Bool.and_eq_true] at hplain
  have hvars : ∀ o, (o ∈ f.objects ∨ o ∈ (Typing.program {} ast).2.globals) →
      o.type.isInteger = true → Variable p f o := by
    intro o ho hint
    refine ho.imp_right fun ho => ⟨?_, hint⟩
    rcases Typing.globals_known hprogram o ho with ho | ho
    · cases ho
    · exact ho
  rw [hsize] at hlinked
  have hapart : Apart D (m.regs .rbp) (Variable p f) :=
    apart_of_laid hlaid (hsize ▸ hwt.frame) hlinked
  -- from variables to bytes, and from there to the code
  obtain ⟨mem, hmemory, hfollows⟩ :=
    Typed.exec_memory hapart hvars hexec (.block hwt.body) hplain.2 hrepresents
  obtain ⟨m', hreaches, hreturns⟩ := runs_body hcode (hcode.older hnames) hreturn hwt.body
    (Typed.Stmt.isIntegral_of_isPlain hplain.2) hmemory
  refine ⟨m', hreaches, hreturns.value, hreturns.none, ?_, ?_, hreturns.base, hreturns.top⟩
  · rw [hreturns.mem]
    exact hfollows.represents
  · rw [hreturns.mem]
    exact hfollows.spares

/-! ### An example -/

/-- A text whose function counts its parameter down. -/
def countdownSource : String := "int f(int n) { while (n) n = n - 1; return 7; }"

def countdownTokens : List Token := (tokenize countdownSource "a.c" {}).1.toOption.getD []

def remaining : Symbol := ⟨"n", .int, .frame (-4)⟩

/-- `n = n - 1` -/
def countdownStep : Typed.Expr :=
  .assign (.object remaining)
    (.binary .sub (.load (.object remaining)) (.literal (.int 1)) .int)

def countdownLoop : Typed.Stmt :=
  .whileLoop (.load (.object remaining)) (.expr countdownStep ⟨"a.c", 1, 26⟩) ⟨"a.c", 1, 16⟩

def countdown : Typed.Function where
  routine := ⟨"f", .int, [.int], 16⟩
  parameters := [remaining]
  body := [countdownLoop, .ret (some (.literal (.int 7))) ⟨"a.c", 1, 37⟩]
  place := ⟨"a.c", 1, 1⟩

theorem parse_countdown :
    ∃ ast, parse countdownSource "a.c" {} = (.ok ast, {}) ∧
      Typing.check ast = .ok ⟨[], [countdown]⟩ := by
  have htokens : tokenize countdownSource "a.c" {} = (.ok countdownTokens, {}) := by cbv
  have hlast : (countdownTokens.filter fun t => !t.kind.isComment).getLast? =
      some ⟨.endOfFile, ⟨⟨"a.c", 1, 48⟩, ⟨"a.c", 1, 48⟩⟩⟩ := by cbv
  have hn : (Token.visible countdownTokens).length = 21 := by cbv
  exact exists_parse htokens hlast rfl hn (by cbv)

theorem exec_countdown (st : Symbol → Int) (h : st remaining = 2) :
    ∃ st', Exec valuation (.block countdown.body) st (.returned (some 7)) st' := by
  have hstep : ∀ st : Symbol → Int, Typed.eval valuation countdownStep st =
      .ok (Scalar.int.wrap (st remaining - 1),
        Function.update st remaining (Scalar.int.wrap (st remaining - 1))) := fun _ => rfl
  have hload : ∀ st : Symbol → Int, Typed.eval valuation (.load (.object remaining)) st =
      .ok (st remaining, st) := fun _ => rfl
  have hloop : Exec valuation countdownLoop st .normal
      (Function.update (Function.update st remaining 1) remaining 0) := by
    refine .whileStep (hload st) (by rw [h]; decide) (.expr (hstep st)) ?_
    rw [h]
    refine .whileStep (hload _) (by rw [Function.update_self]; decide) (.expr (hstep _)) ?_
    rw [Function.update_self]
    refine .whileStop ((hload _).trans ?_)
    rw [Function.update_self]
    rfl
  exact ⟨_, .cons hloop (.consReturn (.retValue rfl))⟩

/-- The code of the function, run on a machine with two in the parameter. -/
theorem countdown_runs :
    ∃ ast file lines e0 e1 e2 e3 i, parse countdownSource "a.c" {} = (.ok ast, {}) ∧
      Typing.check ast = .ok ⟨[], [countdown]⟩ ∧
      FileCode ⟨{}, true⟩ ⟨[], [countdown]⟩ countdown file lines e0 e1 e2 e3 ∧
      landing lines (returnLabel "f") = some i ∧
      ∃ m', X86.Reaches (fun _ => 0) lines
        (e1.text.size, ⟨fun _ => 4096, none, Memory.write (fun _ => 0) 4092 4 2⟩) (i, m') ∧
        m'.regs .rax = 7 := by
  obtain ⟨ast, hparse, hcheck⟩ := parse_countdown
  have hgenerate : (generate ⟨{}, true⟩ ⟨[], [countdown]⟩).isOk = true := by decide +kernel
  obtain ⟨file, hfile⟩ : ∃ file, generate ⟨{}, true⟩ ⟨[], [countdown]⟩ = .ok file := by
    revert hgenerate
    cases generate ⟨{}, true⟩ ⟨[], [countdown]⟩ with
    | error e => exact nofun
    | ok file => exact fun _ => ⟨file, rfl⟩
  obtain ⟨lines, e0, e1, e2, e3, i, hcode, hreturn, hruns⟩ :=
    function_runs_body hparse hcheck hfile List.mem_cons_self (by decide)
  obtain ⟨st', hexec⟩ := exec_countdown (fun _ => 2) rfl
  have hglobal : ∀ o, ¬ GlobalVariable ⟨[], [countdown]⟩ o := fun o ho => by cases ho.1
  have hrepresents : Represents (fun _ => 0) 4096 (Variable ⟨[], [countdown]⟩ countdown)
      (fun _ => 2) (Memory.write (fun _ => 0) 4092 4 2) := by
    intro o ho
    rcases ho with ho | ho
    · have hobjects : countdown.objects = [remaining] := rfl
      obtain rfl : o = remaining := List.mem_singleton.mp (hobjects ▸ ho)
      decide
    · exact absurd ho (hglobal o)
  obtain ⟨m', hreaches, hvalue, -⟩ := hruns (fun _ => 0) ⟨fun _ => 4096, none, _⟩ _ _ st'
    ⟨fun o o' a ho => absurd ho (hglobal o), fun o a ho => absurd ho (hglobal o)⟩ hrepresents hexec
  exact ⟨ast, file, lines, e0, e1, e2, e3, i, hparse, hcheck, hcode, hreturn, m', hreaches,
    hvalue 7 rfl⟩

end Lower

end MiniC
