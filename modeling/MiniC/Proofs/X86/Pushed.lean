import MiniC.Proofs.X86.Cpu
import MiniC.Proofs.X86.Words

/-!
# Words on the stack

What lies on the stack is read off the memory from the stack pointer on, as a list of words with the top one
first (`Memory.words`). Pushing puts a word before the list and changes no byte outside the new word
(`Cpu.Pushed`); popping takes it off again and leaves the memory alone (`Cpu.Popped`).

Addresses wrap around, so that a stack of more than `2 ^ 61` words would run into itself. Bytes are told
inside and outside a stretch by their distance above its lower end.
-/

set_option autoImplicit false

namespace MiniC.X86

/-! ### Distances -/

/-- Moving the end of a stretch up takes as much from the distances above it. -/
theorem toNat_sub_add {a p : BitVec 64} {k : Nat} (h : k ≤ (a - p).toNat) :
    (a - (p + BitVec.ofNat 64 k)).toNat = (a - p).toNat - k := by
  have hlt := (a - p).isLt
  rw [← BitVec.sub_sub]
  generalize a - p = d at h hlt ⊢
  rw [BitVec.toNat_sub, BitVec.toNat_ofNat]
  omega

/-- A byte in the upper part of a stretch is above the lower part. -/
theorem toNat_sub_of_add {a p : BitVec 64} {k n : Nat} (h : (a - (p + BitVec.ofNat 64 k)).toNat < n)
    (hn : k + n ≤ 2 ^ 64) : (a - p).toNat = k + (a - (p + BitVec.ofNat 64 k)).toNat := by
  have hsplit : a - p = (a - (p + BitVec.ofNat 64 k)) + BitVec.ofNat 64 k := by
    rw [← BitVec.sub_sub, BitVec.sub_add_cancel]
  rw [hsplit]
  generalize a - (p + BitVec.ofNat 64 k) = d at h ⊢
  rw [BitVec.toNat_add, BitVec.toNat_ofNat]
  omega

/-! ### Words in memory -/

namespace Memory

/-- The word at an address. -/
def word (mem : Memory) (a : BitVec 64) : BitVec 64 := BitVec.ofNat 64 (mem.read a 8)

/-- The words from an address on. -/
def words (mem : Memory) (a : BitVec 64) : Nat → List (BitVec 64)
  | 0 => []
  | n + 1 => mem.word a :: words mem (a + 8) n

theorem words_append (mem : Memory) (a : BitVec 64) (n k : Nat) :
    mem.words a (n + k) = mem.words a n ++ mem.words (a + BitVec.ofNat 64 (8 * n)) k := by
  induction n generalizing a with
  | zero => simp [words]
  | succ n ih =>
    have haddress : a + 8 + BitVec.ofNat 64 (8 * n) = a + BitVec.ofNat 64 (8 * (n + 1)) := by
      rw [Nat.mul_succ, Nat.add_comm, BitVec.ofNat_add, BitVec.add_assoc]
      rfl
    rw [show n + 1 + k = n + k + 1 by omega, words, words, ih, haddress]
    rfl

/-- What words are read depends on the bytes from the address up to their end. -/
theorem words_congr {mem mem' : Memory} {a : BitVec 64} {n : Nat} (hn : 8 * n ≤ 2 ^ 64)
    (h : ∀ b, (b - a).toNat < 8 * n → mem b = mem' b) : mem.words a n = mem'.words a n := by
  induction n generalizing a with
  | zero => rfl
  | succ n ih =>
    have hfirst : mem.read a 8 = mem'.read a 8 := by
      apply read_congr
      intro i hi
      apply h
      rw [add_ofNat_sub_self]
      omega
    have hrest : mem.words (a + 8) n = mem'.words (a + 8) n := by
      apply ih (by omega)
      intro b hb
      have hb : (b - (a + BitVec.ofNat 64 8)).toNat < 8 * n := hb
      have hdistance := toNat_sub_of_add hb (by omega)
      apply h
      omega
    rw [words, words, word, word, hfirst, hrest]

theorem word_write_self (mem : Memory) (a v : BitVec 64) : (mem.write a 8 v.toNat).word a = v := by
  have hlt : v.toNat < 256 ^ 8 := v.isLt
  rw [word, read_write_self mem a (by decide), Nat.mod_eq_of_lt hlt]
  exact BitVec.ofNat_toNat _ _

theorem write_of_le {mem : Memory} {a b : BitVec 64} {n v : Nat} (h : n ≤ (b - a).toNat) :
    mem.write a n v b = mem b := by
  rw [write, if_neg (by omega)]

end Memory

/-! ### Runs -/

namespace Cpu

variable {env : Env} {c c1 c2 c' : Cpu}

theorem runs_append (is is' : List Instr) (c : Cpu) :
    c.runs env (is ++ is') = (c.runs env is).bind fun c' => c'.runs env is' := by
  induction is generalizing c with
  | nil => rfl
  | cons i is ih =>
    rw [List.cons_append, runs, runs, Option.bind_assoc]
    congr 1
    funext c1
    exact ih c1

theorem runs_append_some {is is' : List Instr} (h : c.runs env is = some c1)
    (h' : c1.runs env is' = some c2) : c.runs env (is ++ is') = some c2 := by
  rw [runs_append, h]
  exact h'

theorem runs_single {i : Instr} (h : c.run env i = some c') : c.runs env [i] = some c' := by
  rw [runs, h]
  rfl

/-! ### The stack pointer -/

/-- Only the stack pointer has moved, and the flags may have changed. -/
structure Moved (sp : BitVec 64) (c c' : Cpu) : Prop where
  rsp : c'.regs .rsp = sp
  regs : ∀ g, g ≠ .rsp → c'.regs g = c.regs g
  xmms : c'.xmms = c.xmms
  mem : c'.mem = c.mem

theorem moved_set (c : Cpu) (f : Option Flags) (sp : BitVec 64) :
    Moved sp c ((c.withMachine ((c.toMachine.withFlags f).set .rsp sp)).withOrder none) where
  rsp := by simp
  regs := by
    intro g hg
    simp [Function.update_of_ne hg]
  xmms := rfl
  mem := rfl

theorem run_grow (env : Env) (c : Cpu) (n : Nat) :
    ∃ c', c.run env (.alu .sub .quad (.imm (Int64.ofNat n)) (.quad .rsp)) = some c' ∧
      Moved (c.regs .rsp - BitVec.ofNat 64 n) c c' :=
  ⟨_, rfl, moved_set c _ _⟩

theorem run_shrink (env : Env) (c : Cpu) (n : Nat) :
    ∃ c', c.run env (.alu .add .quad (.imm (Int64.ofNat n)) (.quad .rsp)) = some c' ∧
      Moved (c.regs .rsp + BitVec.ofNat 64 n) c c' :=
  ⟨_, rfl, moved_set c _ _⟩

/-! ### Pushing -/

/-- Words have been pushed, of which the first is on top now. -/
structure Pushed (ws : List (BitVec 64)) (c c' : Cpu) : Prop where
  rsp : c'.regs .rsp = c.regs .rsp - BitVec.ofNat 64 (8 * ws.length)
  regs : ∀ g, g ≠ .rsp → c'.regs g = c.regs g
  xmms : c'.xmms = c.xmms
  words : c'.mem.words (c'.regs .rsp) ws.length = ws
  mem : ∀ a, 8 * ws.length ≤ (a - c'.regs .rsp).toNat → c'.mem a = c.mem a

namespace Pushed

variable {ws ws' : List (BitVec 64)}

theorem refl (c : Cpu) : Pushed [] c c where
  rsp := by simp
  regs := fun _ _ => rfl
  xmms := rfl
  words := rfl
  mem := fun _ _ => rfl

theorem base_eq (h : Pushed ws c c') : c'.regs .rsp + BitVec.ofNat 64 (8 * ws.length) = c.regs .rsp := by
  rw [h.rsp, BitVec.sub_add_cancel]

theorem trans (h : Pushed ws c c1) (h' : Pushed ws' c1 c2) (hlen : 8 * (ws'.length + ws.length) ≤ 2 ^ 64) :
    Pushed (ws' ++ ws) c c2 := by
  have hbase := h'.base_eq
  refine ⟨?_, fun g hg => (h'.regs g hg).trans (h.regs g hg), h'.xmms.trans h.xmms, ?_, fun a ha => ?_⟩
  · rw [h'.rsp, h.rsp, List.length_append, Nat.mul_add, BitVec.ofNat_add, BitVec.sub_sub, BitVec.add_comm]
  · -- the words pushed first are above the ones pushed last, which left them alone
    have hkept : c2.mem.words (c1.regs .rsp) ws.length = c1.mem.words (c1.regs .rsp) ws.length := by
      apply Memory.words_congr (by omega)
      intro b hb
      rw [← hbase] at hb
      have hdistance := toNat_sub_of_add hb (by omega)
      exact h'.mem b (by omega)
    rw [List.length_append, Memory.words_append, h'.words, hbase, hkept, h.words]
  · rw [List.length_append] at ha
    have hdistance := toNat_sub_add (a := a) (p := c2.regs .rsp) (k := 8 * ws'.length) (by omega)
    rw [hbase] at hdistance
    rw [h'.mem a (by omega), h.mem a (by omega)]

end Pushed

/-- A word that is written below the stack, with the stack pointer moved onto it. -/
theorem pushed_single {v : BitVec 64} (hrsp : c'.regs .rsp = c.regs .rsp - 8)
    (hregs : ∀ g, g ≠ .rsp → c'.regs g = c.regs g) (hxmms : c'.xmms = c.xmms)
    (hmem : c'.mem = c.mem.write (c'.regs .rsp) 8 v.toNat) : Pushed [v] c c' where
  rsp := hrsp
  regs := hregs
  xmms := hxmms
  words := by
    rw [hmem]
    show [(c.mem.write (c'.regs .rsp) 8 v.toNat).word (c'.regs .rsp)] = [v]
    rw [Memory.word_write_self]
  mem := by
    intro a ha
    rw [hmem]
    exact Memory.write_of_le ha

theorem run_push (env : Env) (c : Cpu) (g : Gpr) :
    ∃ c', c.run env (.push (.quad g)) = some c' ∧ Pushed [c.regs g] c c' := by
  have hmoved := moved_set c none (c.regs .rsp - 8)
  refine ⟨_, rfl, pushed_single ?_ (fun g' hg' => ?_) rfl ?_⟩
  · show Function.update c.regs .rsp (c.regs .rsp - 8) .rsp = _
    rw [Function.update_self]
  · exact hmoved.regs g' hg'
  · rfl

theorem runs_pushFloat (env : Env) (c : Cpu) (i : Fin 16) :
    ∃ c', c.runs env [.alu .sub .quad (.imm (Int64.ofNat 8)) (.quad .rsp), .sse .movsd (.reg (.xmm i)) .top] =
      some c' ∧ Pushed [c.xmms i] c c' := by
  obtain ⟨c1, hrun, hmoved⟩ := run_grow env c 8
  refine ⟨c1.withMachine (c1.toMachine.withMem (c1.mem.write (c1.regs .rsp) 8 (c1.xmms i).toNat)), ?_,
    pushed_single hmoved.rsp hmoved.regs hmoved.xmms ?_⟩
  · rw [runs, hrun]
    rfl
  · rw [hmoved.xmms, hmoved.mem]
    rfl

/-! ### Popping -/

end Cpu

/-- The word in a register. -/
def Register.word : Register → Cpu → BitVec 64
  | .gpr g _, c => c.regs g
  | .xmm i, c => c.xmms i

/-- A register that a word can be popped into. -/
def Register.IsTarget : Register → Prop
  | .gpr g w => w = .quad ∧ g ≠ .rsp
  | .xmm _ => True

namespace Cpu

variable {env : Env} {c c1 c2 c' : Cpu}

/-- Words have been popped into registers, of which the last was popped first. -/
structure Popped (targets : List Register) (c c' : Cpu) : Prop where
  rsp : c'.regs .rsp = c.regs .rsp + BitVec.ofNat 64 (8 * targets.length)
  regs : ∀ g, g ≠ .rsp → .quad g ∉ targets → c'.regs g = c.regs g
  xmms : ∀ i, .xmm i ∉ targets → c'.xmms i = c.xmms i
  mem : c'.mem = c.mem
  words : targets.map (·.word c') = (c.mem.words (c.regs .rsp) targets.length).reverse

namespace Popped

variable {targets : List Register} {target : Register}

theorem refl (c : Cpu) : Popped [] c c where
  rsp := by simp
  regs := fun _ _ _ => rfl
  xmms := fun _ _ => rfl
  mem := rfl
  words := rfl

theorem word_eq (h : Popped targets c c') (ht : target.IsTarget) (hnot : target ∉ targets) :
    target.word c' = target.word c := by
  cases target with
  | xmm i => exact h.xmms i hnot
  | gpr g w =>
    obtain ⟨rfl, hg⟩ := ht
    exact h.regs g hg hnot

/-- One more word, from below those that have been popped. -/
theorem cons (h : Popped targets c c1) (h' : Popped [target] c1 c2) (hnot : target ∉ targets)
    (htargets : ∀ t ∈ targets, t.IsTarget) : Popped (target :: targets) c c2 := by
  refine ⟨?_, fun g hg hmem => ?_, fun i hmem => ?_, h'.mem.trans h.mem, ?_⟩
  · rw [h'.rsp, h.rsp, BitVec.add_assoc, ← BitVec.ofNat_add]
    rfl
  · rw [List.mem_cons, not_or] at hmem
    rw [h'.regs g hg (by simpa using hmem.1), h.regs g hg hmem.2]
  · rw [List.mem_cons, not_or] at hmem
    rw [h'.xmms i (by simpa using hmem.1), h.xmms i hmem.2]
  · -- what was popped before is not overwritten, since the registers are different ones
    have hkept : targets.map (·.word c2) = targets.map (·.word c1) := by
      refine List.map_congr_left fun t ht => ?_
      refine h'.word_eq (htargets t ht) ?_
      rw [List.mem_singleton]
      exact fun heq => hnot (heq ▸ ht)
    have hlast : [target].map (·.word c2) =
        c.mem.words (c.regs .rsp + BitVec.ofNat 64 (8 * targets.length)) 1 := by
      rw [h'.words, h.mem, h.rsp]
      rfl
    rw [List.length_cons, Memory.words_append, List.reverse_append, ← h.words, ← hkept, ← hlast]
    rfl

end Popped

theorem run_pop (env : Env) (c : Cpu) {g : Gpr} (hg : g ≠ .rsp) :
    ∃ c', c.run env (.pop (.quad g)) = some c' ∧ Popped [.quad g] c c' := by
  refine ⟨_, rfl, ?_, fun g' hg' hmem => ?_, fun i _ => rfl, rfl, ?_⟩
  · show Function.update (Function.update c.regs .rsp (c.regs .rsp + 8)) g _ .rsp = _
    rw [Function.update_of_ne (Ne.symm hg), Function.update_self]
    rfl
  · have hne : g' ≠ g := by simpa using hmem
    show Function.update (Function.update c.regs .rsp (c.regs .rsp + 8)) g _ g' = _
    rw [Function.update_of_ne hne, Function.update_of_ne hg']
  · show [Function.update (Function.update c.regs .rsp (c.regs .rsp + 8)) g _ g] = _
    rw [Function.update_self]
    rfl

theorem runs_popFloat (env : Env) (c : Cpu) (i : Fin 16) :
    ∃ c', c.runs env [.sse .movsd .top (.reg (.xmm i)), .alu .add .quad (.imm (Int64.ofNat 8)) (.quad .rsp)] =
      some c' ∧ Popped [.xmm i] c c' := by
  -- the register is loaded before the stack pointer moves
  obtain ⟨c2, hrun, hmoved⟩ := run_shrink env (c.setFloat i (c.mem.word (c.regs .rsp))) 8
  refine ⟨c2, ?_, hmoved.rsp, fun g hg _ => hmoved.regs g hg, fun j hmem => ?_, hmoved.mem, ?_⟩
  · exact runs_single hrun
  · have hne : j ≠ i := by simpa using hmem
    rw [hmoved.xmms, setFloat_xmms, Function.update_of_ne hne]
  · show [c2.xmms i] = [c.mem.word (c.regs .rsp)]
    rw [hmoved.xmms, setFloat_xmms, Function.update_self]

end Cpu

end MiniC.X86
