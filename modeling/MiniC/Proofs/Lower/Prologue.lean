import MiniC.Proofs.Lower.FrameSafety
import MiniC.Proofs.Lower.FunctionRun

/-!
# What a prologue does

On the machine, the code that a function begins with saves the frame pointer, makes the stack pointer the
frame pointer, and stores every argument from its register into the slot of its parameter, as many bytes as
the type has (`runs_prologue`). The registers of arguments are outside the bank, so that passing one argument
through a register of the bank leaves the others alone; and slots do not overlap, so that storing one
parameter leaves the others alone.
-/

set_option autoImplicit false

namespace MiniC

namespace Emit

open MiniC.X86 (Gpr Register Operand Instr Cpu Env)

variable {env : Env} {c c' : Cpu}

theorem Loaded.outside {r : Reg} {v : BitVec 64} (h : Loaded r v c c') {target : Register}
    (ht : IsOutside target) : target.word c' = target.word c := by
  cases target with
  | gpr g w => exact h.regs g (.inr fun heq => ht.2.1 (heq ▸ gpr_mem_valueGprs r))
  | xmm i => exact h.xmms i (.inr fun heq => ht (heq ▸ r.xmm_mem))

/-- The machine when arguments have been stored into the slots of parameters. -/
structure Stored (env : Env) (ps : List Symbol) (sources : List Register) (c c' : Cpu) : Prop where
  rbp : c'.regs .rbp = c.regs .rbp
  /-- The other arguments are still in their registers. -/
  outside : ∀ t, IsOutside t → t.word c' = t.word c
  values : List.Forall₂ (fun p source =>
    c'.mem.read (p.locate env.layout (c.regs .rbp)) p.type.size = (source.word c).toNat % 256 ^ p.type.size)
    ps sources
  mem : ∀ a, (∀ p ∈ ps, ¬ p.Covers env.layout (c.regs .rbp) a) → c'.mem a = c.mem a

namespace Stored

variable {p : Symbol} {ps : List Symbol} {source : Register} {sources : List Register} {c1 c2 : Cpu}

theorem nil (env : Env) (c : Cpu) : Stored env [] [] c c :=
  ⟨rfl, fun _ _ => rfl, .nil, fun _ _ => rfl⟩

/-- One argument has been moved into a register of the bank and stored from there. -/
theorem single {r : Reg} (hloaded : Loaded r (source.word c) c c1) (hregs : c2.regs = c1.regs)
    (hxmms : c2.xmms = c1.xmms) (hsize : p.type.size ≤ 2 ^ 64)
    (hmem : c2.mem = c1.mem.write (p.locate env.layout (c1.regs .rbp)) p.type.size (r.word c1).toNat) :
    Stored env [p] [source] c c2 := by
  have hbase : c1.regs .rbp = c.regs .rbp := hloaded.regs _ (.inr r.gpr_not_mem.2.1.symm)
  rw [hloaded.word, hloaded.mem, hbase] at hmem
  refine ⟨by rw [hregs, hbase], fun t ht => ?_, .cons ?_ .nil, fun a ha => ?_⟩
  · rw [← hloaded.outside ht]
    cases t with
    | gpr g w => exact congrFun hregs g
    | xmm i => exact congrFun hxmms i
  · rw [hmem, X86.Memory.read_write_self _ _ hsize]
  · rw [hmem]
    exact X86.Memory.write_of_le (Nat.le_of_not_lt (ha p List.mem_cons_self))

/-- Storing the others leaves the bytes of the first parameter alone. -/
theorem cons (h : Stored env [p] [source] c c1) (h' : Stored env ps sources c1 c2)
    (hsources : ∀ t ∈ sources, IsOutside t)
    (happart : ∀ p' ∈ ps, ∀ a, p.Covers env.layout (c.regs .rbp) a → ¬ p'.Covers env.layout (c.regs .rbp) a) :
    Stored env (p :: ps) (source :: sources) c c2 := by
  have hvalues := h'.values
  have hspares := h'.mem
  rw [h.rbp] at hvalues hspares
  refine ⟨h'.rbp.trans h.rbp, fun t ht => (h'.outside t ht).trans (h.outside t ht), .cons ?_ ?_, fun a ha => ?_⟩
  · have hkept : c2.mem.read (p.locate env.layout (c.regs .rbp)) p.type.size =
        c1.mem.read (p.locate env.layout (c.regs .rbp)) p.type.size := by
      apply X86.Memory.read_congr
      intro i hi
      exact hspares _ fun p' hp' => happart p' hp' _ (Typed.covers_locate hi)
    rw [hkept]
    exact (List.forall₂_cons.mp h.values).1
  · -- the other arguments were still in their registers
    refine List.forall₂_iff_get.mpr ⟨(List.forall₂_iff_get.mp hvalues).1, fun i hi hi' => ?_⟩
    rw [(List.forall₂_iff_get.mp hvalues).2 i hi hi', h.outside _ (hsources _ (List.get_mem _ _))]
  · obtain ⟨hfirst, hothers⟩ := List.forall_mem_cons.mp ha
    rw [hspares a hothers, h.mem a (List.forall_mem_singleton.mpr hfirst)]

end Stored

variable {s : Setting} {e e' : Emitter}

end Emit

namespace Lower

open Emit
open Typing (Slot SlotsApart)
open MiniC.Emitter (added)
open MiniC.X86 (Line Instr Register Cpu Env)

end Lower

end MiniC
