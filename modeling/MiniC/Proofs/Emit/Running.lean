import MiniC.Proofs.Emit.Parts

/-!
# What the code of operations does

The instructions that the operations of the emitter append, run on the machine. Each piece of code
leaves its result in one register and no other is changed (`Into`), apart from the scratch registers,
which never hold a value between operations.
-/

set_option autoImplicit false

namespace MiniC.Emit

open MiniC.X86 (Gpr Register Operand Instr Mem Width Machine Layout Memory Flags runAll runAll_cons
  runAll_append Fits)

/-- Registers that the code of an operation may use on the way. -/
def scratch : List Gpr := [.rax, .rcx, .rdx]

/-- A word has been put into a register, and nothing else has changed but scratch registers and
flags. -/
structure Into (m : Machine) (g : Gpr) (v : BitVec 64) (m' : Machine) : Prop where
  result : m'.regs g = v
  others : ∀ g', g' ≠ g → g' ∉ scratch → m'.regs g' = m.regs g'
  mem : m'.mem = m.mem

theorem Into.set (m : Machine) (g : Gpr) (v : BitVec 64) : Into m g v (m.set g v) where
  result := by simp
  others := fun g' hne _ => by simp [hne]
  mem := rfl

/-- Two words put into one register: the second one counts. -/
theorem Into.trans {m m1 m2 : Machine} {g : Gpr} {v v' : BitVec 64} (h : Into m g v m1)
    (h' : Into m1 g v' m2) : Into m g v' m2 where
  result := h'.result
  others := fun g' hne hs => (h'.others g' hne hs).trans (h.others g' hne hs)
  mem := h'.mem.trans h.mem

theorem Into.setFlags (m : Machine) (f : Option Flags) (g : Gpr) (v : BitVec 64) :
    Into m g v ((m.withFlags f).set g v) :=
  ⟨(Into.set _ g v).result, (Into.set _ g v).others, rfl⟩

/-- No register of the bank is a scratch register, or one that holds the stack together. -/
theorem Reg.gpr_not_mem (r : Reg) : r.gpr ∉ scratch ∧ r.gpr ≠ .rbp ∧ r.gpr ≠ .rsp := by
  have hall : ∀ g ∈ valueGprs, g ∉ scratch ∧ g ≠ .rbp ∧ g ≠ .rsp := by decide
  exact hall _ (gpr_mem_valueGprs r)

section Run

variable {D : Layout} {m m' : Machine} {r l : Reg} {g : Gpr}

/-! ### Moving -/

theorem run_mov_quad (g g' : Gpr) :
    (Instr.mov .quad (.quad g) (.quad g')).run D m = some (m.set g' (m.regs g)) := rfl

theorem run_immediateInstr (v : Int64) (g : Gpr) :
    (immediateInstr v g).run D m = some (m.set g (BitVec.ofInt 64 v.toInt)) := by
  have hword : BitVec.ofInt 64 v.toInt = v.toBitVec := BitVec.ofInt_toInt
  rw [hword]
  unfold immediateInstr
  split <;> simp [Instr.run, Machine.value, Machine.assign, Width.zext, Width.replace]

theorem address_place (o : Symbol) :
    m.address D (.within o.address 0) = some (o.locate D (m.regs .rbp)) := by
  unfold Symbol.locate
  cases o.address <;> simp [Mem.within, Machine.address]

theorem run_lea (o : Symbol) (g : Gpr) :
    (Instr.lea (place o) (.quad g)).run D m = some (m.set g (o.locate D (m.regs .rbp))) := by
  simp [Instr.run, place, address_place, Machine.assign, Width.replace]

theorem run_loadInstr {t : CType} (ht : Typed.isWord t = true) {place : Mem} {a : BitVec 64}
    (ha : m.address D place = some a) :
    (loadInstr t (.mem place) r).run D m =
      some (m.set r.gpr (BitVec.ofInt 64 (t.wrap (m.mem.read a t.size)))) := by
  obtain ⟨hbyte, hlong, hquad⟩ := X86.extend_read m.mem a
  cases t with
  | scalar s =>
    cases s with
    | char =>
      simp only [loadInstr, Instr.run, Machine.value, ha, Machine.assign]
      simp [Width.replace, Width.bytes, hbyte, CType.wrap, CType.word, CType.size, Scalar.size]
    | int =>
      simp only [loadInstr, Instr.run, Machine.value, ha, Machine.assign]
      simp [Width.replace, Width.bytes, hlong, CType.wrap, CType.word, CType.size, Scalar.size]
    | long =>
      simp only [loadInstr, Instr.run, Machine.value, ha, Machine.assign]
      simp [Width.replace, Width.bytes, hquad, CType.wrap, CType.word, CType.size, Scalar.size]
    | float => cases ht
  | pointer element =>
    simp only [loadInstr, Instr.run, Machine.value, ha, Machine.assign]
    simp [Width.replace, Width.bytes, hquad, CType.wrap, CType.word, CType.size]
  | void => cases ht
  | array element length => cases ht

theorem run_storeInstr (hv : r.view.isInteger = true) {place : Mem} {a : BitVec 64}
    (ha : m.address D place = some a) :
    (storeInstr r (.mem place)).run D m =
      some (m.withMem (m.mem.write a r.view.size (m.regs r.gpr).toNat)) := by
  have hbyte : (Width.byte.zext (m.regs r.gpr)).toNat = (m.regs r.gpr).toNat % 256 ^ 1 := by
    simp [Width.zext]
    omega
  have hlong : (Width.long.zext (m.regs r.gpr)).toNat = (m.regs r.gpr).toNat % 256 ^ 4 := by
    simp [Width.zext]
    omega
  cases hview : r.view with
  | char =>
    simp only [storeInstr, hview, Instr.run, Machine.value, Machine.assign, if_true, ha,
      Option.bind_eq_bind, Option.bind_some, Option.map_some, hbyte, Width.bytes, Scalar.size,
      Memory.write_mod]
  | int =>
    simp only [storeInstr, hview, Instr.run, Machine.value, Machine.assign, if_true, ha,
      Option.bind_eq_bind, Option.bind_some, Option.map_some, hlong, Width.bytes, Scalar.size,
      Memory.write_mod]
  | long =>
    simp only [storeInstr, hview, Instr.run, Machine.value, Machine.assign, if_true, ha,
      Option.bind_eq_bind, Option.bind_some, Option.map_some, Width.bytes, Scalar.size, Width.zext]
  | float => rw [hview] at hv; cases hv

/-- A register is extended again from the width of its view. -/
theorem run_normalizeCode (hv : r.view.isInteger = true) {n : Int}
    (hn : m.regs r.gpr = BitVec.ofInt 64 n) :
    ∃ m', runAll D (normalizeCode r) m = some m' ∧
      Into m r.gpr (BitVec.ofInt 64 (r.view.wrap n)) m' := by
  cases hview : r.view with
  | int =>
    refine ⟨_, ?_, Into.set m r.gpr _⟩
    simp only [normalizeCode, hview, runAll, Instr.run, Machine.value, Machine.assign, if_true,
      Option.bind_eq_bind, Option.bind_some, Width.replace, X86.sext_zext, hn, X86.sext_long_ofInt]
  | char =>
    refine ⟨_, ?_, Into.set m r.gpr _⟩
    simp only [normalizeCode, hview, runAll, Instr.run, Machine.value, Machine.assign, if_true,
      Option.bind_eq_bind, Option.bind_some, Width.replace, hn, X86.zext_byte_ofInt]
  | long =>
    refine ⟨m, by simp [normalizeCode, hview], ?_, fun _ _ _ => rfl, rfl⟩
    rw [hn, X86.ofInt_wrap_long]
  | float => rw [hview] at hv; cases hv

/-! ### Arithmetic -/

theorem run_alu_quad {op : X86.Alu} {src : Operand} {b x : BitVec 64} {f : Option Flags}
    (hsrc : m.value D .quad src = some b) (hop : Machine.alu op .quad b (m.regs g) = (some x, f)) :
    ∃ m', (Instr.alu op .quad src (.quad g)).run D m = some m' ∧ Into m g x m' := by
  refine ⟨_, ?_, Into.setFlags m f g x⟩
  simp only [Instr.run, hsrc, Machine.value_quad, Option.bind_eq_bind, Option.bind_some, hop,
    Machine.assign_quad]

/-- After its sign has been extended into `rdx`, the dividend is the number in `rax`. -/
theorem dividend_eq {a : Int} (ha : Fits a) :
    (if a < 0 then (-1 : BitVec 64) else 0).toInt * 2 ^ 64 + ((BitVec.ofInt 64 a).toNat : Int) =
      a := by
  obtain ⟨hlo, hhi⟩ := ha.bounds
  rw [BitVec.toNat_ofInt]
  split
  · have hminus : (-1 : BitVec 64).toInt = -1 := by decide
    rw [hminus]
    omega
  · have hzero : (0 : BitVec 64).toInt = 0 := by decide
    rw [hzero]
    omega

/-- A quotient fits unless it is that of the least number and minus one. -/
theorem tdiv_bounds {a b : Int} {type : CType} (ha : type.wrap a = a)
    (hint : type.word.isInteger = true) (h : ¬ Typed.Faults type a b) :
    ¬ (b = 0 ∨ a.tdiv b < -2 ^ 63 ∨ 2 ^ 63 ≤ a.tdiv b) := by
  have hfits : Fits a := Scalar.wrap_long_of_wrap hint ha
  obtain ⟨hlo, hhi⟩ := hfits.bounds
  have hb : b ≠ 0 := fun hb => h (.inl hb)
  have habs := Int.natAbs_tdiv a b
  have hhalf : 2 ≤ b.natAbs → (a.tdiv b).natAbs ≤ a.natAbs / 2 := by
    intro htwo
    rw [habs]
    exact Nat.div_le_div_left htwo (by decide)
  rcases (by omega : b = 1 ∨ b = -1 ∨ 2 ≤ b.natAbs) with rfl | rfl | htwo
  · rw [Int.tdiv_one]
    omega
  · rw [Int.tdiv_neg, Int.tdiv_one]
    -- a narrower type has no number this small
    have hleast : a ≠ -2 ^ 63 := by
      rintro rfl
      cases hword : type.word with
      | long => exact h (.inr ⟨hword, rfl, rfl⟩)
      | char => rw [CType.wrap, hword] at ha; revert ha; decide
      | int => rw [CType.wrap, hword] at ha; revert ha; decide
      | float => rw [hword] at hint; cases hint
    omega
  · have := hhalf htwo
    omega

/-- A division leaves the quotient in `rax` and the remainder in `rdx`. -/
theorem run_division {a b : Int} (hl : m.regs l.gpr = BitVec.ofInt 64 a)
    (hr : m.regs r.gpr = BitVec.ofInt 64 b) (hfa : Fits a) (hfb : Fits b)
    (hbounds : ¬ (b = 0 ∨ a.tdiv b < -2 ^ 63 ∨ 2 ^ 63 ≤ a.tdiv b)) :
    ∃ m', runAll D [.mov .quad (.quad l.gpr) (.quad .rax), .cqo, .idiv .quad (.quad r.gpr)] m =
        some m' ∧ m'.regs .rax = BitVec.ofInt 64 (a.tdiv b) ∧
      m'.regs .rdx = BitVec.ofInt 64 (a.tmod b) ∧ m'.mem = m.mem ∧
      ∀ g, g ∉ scratch → m'.regs g = m.regs g := by
  have hscratch : ∀ g ∉ scratch, g ≠ .rax ∧ g ≠ .rdx := by
    intro g hg
    simp only [scratch, List.mem_cons, List.not_mem_nil, or_false, not_or] at hg
    exact ⟨hg.1, hg.2.2⟩
  obtain ⟨hrax, hrdx⟩ := hscratch r.gpr r.gpr_not_mem.1
  refine ⟨(((((m.set .rax (BitVec.ofInt 64 a)).set .rdx (if a < 0 then -1 else 0)).withFlags
    none).set .rax (BitVec.ofInt 64 (a.tdiv b))).set .rdx (BitVec.ofInt 64 (a.tmod b))),
    ?_, ?_, ?_, rfl, ?_⟩
  · rw [runAll_cons (run_mov_quad _ _), hl]
    simp only [runAll, Instr.run, Machine.set_regs, Function.update_self,
      X86.toInt_ofInt_of_fits hfa, Option.bind_some, Machine.value_quad, Option.bind_eq_bind,
      Function.update_of_ne hrdx, Function.update_of_ne hrax, hr, Machine.divide,
      X86.toInt_ofInt_of_fits hfb, Option.bind_fun_some]
    have hne : Gpr.rax ≠ Gpr.rdx := by decide
    rw [Function.update_of_ne hne, Function.update_self, dividend_eq hfa, if_neg hbounds]
  · simp
  · simp
  · intro g hg
    obtain ⟨hg1, hg2⟩ := hscratch g hg
    simp [hg1, hg2]

/-- The count of a shift is in the low byte of `rcx`, and the machine takes it modulo 64. -/
theorem shiftCount_ofInt (b : Int) :
    (Width.byte.zext (BitVec.ofInt 64 b)).toNat % Width.quad.shiftRange = (b % 64).toNat := by
  rw [X86.zext_byte_ofInt, BitVec.toNat_ofInt]
  show _ % 64 = _
  simp only [Scalar.wrap]
  omega

theorem run_shift {a b : Int} (shift : Operand → Operand → Instr)
    (f : BitVec 64 → Nat → BitVec 64)
    (hshift : ∀ m : Machine, (shift (.reg (.byte .rcx)) (.quad l.gpr)).run D m =
      m.modify D .quad (fun x => f x ((Width.byte.zext (m.regs .rcx)).toNat %
        Width.quad.shiftRange)) (.quad l.gpr))
    (hl : m.regs l.gpr = BitVec.ofInt 64 a) (hr : m.regs r.gpr = BitVec.ofInt 64 b) :
    ∃ m', runAll D [.mov .quad (.quad r.gpr) (.quad .rcx),
        shift (.reg (.byte .rcx)) (.quad l.gpr)] m = some m' ∧
      Into m l.gpr (f (BitVec.ofInt 64 a) (b % 64).toNat) m' := by
  have hne : l.gpr ≠ .rcx := fun h => l.gpr_not_mem.1 (h ▸ by decide)
  refine ⟨((m.set .rcx (BitVec.ofInt 64 b)).withFlags none).set l.gpr
    (f (BitVec.ofInt 64 a) (b % 64).toNat), ?_, by simp, ?_, rfl⟩
  · rw [runAll_cons (run_mov_quad _ _), hr]
    simp only [runAll, hshift, Machine.set_regs, Function.update_self, shiftCount_ofInt,
      Machine.modify, Machine.value_quad, Function.update_of_ne hne, hl, Option.bind_eq_bind,
      Option.bind_some, Machine.assign_quad]
  · intro g hg hs
    have hg' : g ≠ .rcx := fun h => hs (h ▸ by decide)
    simp [hg, hg']

/-- What an operation leaves in the left register is a number that its type cuts to the result. -/
theorem run_integerOp {op : ArithOp} {type : CType} {a b v : Int}
    (hint : type.word.isInteger = true) (ha : type.wrap a = a) (hb : type.wrap b = b)
    (h : Typed.arith op type a b = .ok v) (hl : m.regs l.gpr = BitVec.ofInt 64 a)
    (hr : m.regs r.gpr = BitVec.ofInt 64 b) :
    ∃ n m', v = type.wrap n ∧
      runAll D (integerOp op (.quad r.gpr) (.quad l.gpr)) m = some m' ∧
      Into m l.gpr (BitVec.ofInt 64 n) m' := by
  have hfa : Fits a := Scalar.wrap_long_of_wrap hint ha
  have hfb : Fits b := Scalar.wrap_long_of_wrap hint hb
  -- the operations of one instruction, which is given by what the machine computes
  have hone : ∀ (alu : X86.Alu) (n : Int) (f : Option Flags),
      Machine.alu alu .quad (BitVec.ofInt 64 b) (BitVec.ofInt 64 a) = (some (BitVec.ofInt 64 n), f) →
      ∃ m', runAll D [.alu alu .quad (.quad r.gpr) (.quad l.gpr)] m = some m' ∧
        Into m l.gpr (BitVec.ofInt 64 n) m' := by
    intro alu n f halu
    obtain ⟨m', hrun, hinto⟩ := run_alu_quad (D := D) (Machine.value_quad m r.gpr D)
      (by rw [hl, hr]; exact halu)
    exact ⟨m', X86.runAll_single hrun, hinto⟩
  -- a division, whose result is moved out of the register it is left in
  have hdivide : ∀ (g : Gpr) (n : Int), ¬ Typed.Faults type a b →
      (∀ m1 : Machine, m1.regs .rax = BitVec.ofInt 64 (a.tdiv b) →
        m1.regs .rdx = BitVec.ofInt 64 (a.tmod b) → m1.regs g = BitVec.ofInt 64 n) →
      ∃ m', runAll D ([.mov .quad (.quad l.gpr) (.quad .rax), .cqo, .idiv .quad (.quad r.gpr)] ++
        [.mov .quad (.quad g) (.quad l.gpr)]) m = some m' ∧
        Into m l.gpr (BitVec.ofInt 64 n) m' := by
    intro g n hfaults hg
    obtain ⟨m1, hrun, hrax, hrdx, hmem, hothers⟩ :=
      run_division (D := D) hl hr hfa hfb (tdiv_bounds ha hint hfaults)
    refine ⟨m1.set l.gpr (m1.regs g), ?_, ?_, ?_, hmem⟩
    · rw [runAll_append hrun, X86.runAll_single (run_mov_quad _ _)]
    · rw [Machine.set_regs, Function.update_self, hg m1 hrax hrdx]
    · intro g' hne hs
      rw [Machine.set_regs, Function.update_of_ne hne, hothers g' hs]
  cases op with
  | add =>
    obtain ⟨m', h'⟩ := hone .add (a + b) _ (by rw [BitVec.ofInt_add]; rfl)
    exact ⟨_, m', (Except.ok.inj h).symm, h'⟩
  | sub =>
    obtain ⟨m', h'⟩ := hone .sub (a - b) _ (by rw [X86.ofInt_sub]; rfl)
    exact ⟨_, m', (Except.ok.inj h).symm, h'⟩
  | mul =>
    obtain ⟨m', h'⟩ := hone .imul (a * b) _ (by rw [BitVec.ofInt_mul]; rfl)
    exact ⟨_, m', (Except.ok.inj h).symm, h'⟩
  | bitAnd =>
    obtain ⟨m', h'⟩ := hone .and (Typed.onBits (· &&& ·) a b) _ (by rw [X86.ofInt_onBits]; rfl)
    exact ⟨_, m', (Except.ok.inj h).symm, h'⟩
  | bitOr =>
    obtain ⟨m', h'⟩ := hone .or (Typed.onBits (· ||| ·) a b) _ (by rw [X86.ofInt_onBits]; rfl)
    exact ⟨_, m', (Except.ok.inj h).symm, h'⟩
  | bitXor =>
    obtain ⟨m', h'⟩ := hone .xor (Typed.onBits (· ^^^ ·) a b) _ (by rw [X86.ofInt_onBits]; rfl)
    exact ⟨_, m', (Except.ok.inj h).symm, h'⟩
  | div =>
    rw [Typed.arith] at h
    split at h
    · cases h
    · rename_i hfaults
      obtain ⟨m', h'⟩ := hdivide .rax (a.tdiv b) hfaults fun _ hrax _ => hrax
      exact ⟨_, m', (Except.ok.inj h).symm, h'⟩
  | mod =>
    rw [Typed.arith] at h
    split at h
    · cases h
    · rename_i hfaults
      obtain ⟨m', h'⟩ := hdivide .rdx (a.tmod b) hfaults fun _ _ hrdx => hrdx
      exact ⟨_, m', (Except.ok.inj h).symm, h'⟩
  | shl =>
    obtain ⟨m', hrun, hinto⟩ := run_shift (D := D) (.shl .quad) (fun x k => x <<< k)
      (fun m => rfl) hl hr
    rw [X86.shiftLeft_ofInt] at hinto
    exact ⟨_, m', (Except.ok.inj h).symm, hrun, hinto⟩
  | shr =>
    obtain ⟨m', hrun, hinto⟩ := run_shift (D := D) (.sar .quad) (fun x k => x.sshiftRight k)
      (fun m => rfl) hl hr
    rw [X86.sshiftRight_ofInt hfa] at hinto
    exact ⟨_, m', (Except.ok.inj h).symm, hrun, hinto⟩

/-- An operation between two registers, as a number of its type. -/
theorem run_arith {op : ArithOp} {type : CType} {a b v : Int} (hview : l.view = type.word)
    (hint : type.word.isInteger = true) (ha : type.wrap a = a) (hb : type.wrap b = b)
    (h : Typed.arith op type a b = .ok v) (hl : m.regs l.gpr = BitVec.ofInt 64 a)
    (hr : m.regs r.gpr = BitVec.ofInt 64 b) :
    ∃ m', runAll D (integerOp op (.quad r.gpr) (.quad l.gpr) ++ normalizeCode l) m = some m' ∧
      Into m l.gpr (BitVec.ofInt 64 v) m' := by
  obtain ⟨n, m1, rfl, hrun, hinto⟩ := run_integerOp (D := D) hint ha hb h hl hr
  obtain ⟨m2, hrun', hinto'⟩ := run_normalizeCode (D := D) (hview ▸ hint) hinto.result
  rw [hview] at hinto'
  exact ⟨m2, by rw [runAll_append hrun, hrun'], hinto.trans hinto'⟩

/-! ### One operand -/

theorem run_negate {type : CType} {a : Int} (hview : r.view = type.word)
    (hint : type.word.isInteger = true) (ha : m.regs r.gpr = BitVec.ofInt 64 a) :
    ∃ m', runAll D (.neg .quad (.quad r.gpr) :: normalizeCode r) m = some m' ∧
      Into m r.gpr (BitVec.ofInt 64 (type.wrap (-a))) m' := by
  have hneg : (Instr.neg .quad (.quad r.gpr)).run D m =
      some ((m.withFlags none).set r.gpr (BitVec.ofInt 64 (-a))) := by
    simp only [Instr.run, Machine.modify, Machine.value_quad, Option.bind_eq_bind,
      Option.bind_some, Machine.assign_quad, ha, BitVec.ofInt_neg]
  have hinto := Into.setFlags m none r.gpr (BitVec.ofInt 64 (-a))
  obtain ⟨m2, hrun, hinto'⟩ := run_normalizeCode (D := D) (hview ▸ hint) hinto.result
  rw [hview] at hinto'
  exact ⟨m2, by rw [runAll_cons hneg, hrun], hinto.trans hinto'⟩

theorem run_invert {type : CType} {a : Int} (hview : r.view = type.word)
    (hint : type.word.isInteger = true) (ha : m.regs r.gpr = BitVec.ofInt 64 a) :
    ∃ m', runAll D (.not .quad (.quad r.gpr) :: normalizeCode r) m = some m' ∧
      Into m r.gpr (BitVec.ofInt 64 (type.wrap (-a - 1))) m' := by
  have hnot : (Instr.not .quad (.quad r.gpr)).run D m =
      some (m.set r.gpr (BitVec.ofInt 64 (-a - 1))) := by
    simp only [Instr.run, Machine.value_quad, Option.bind_eq_bind, Option.bind_some,
      Machine.assign_quad, ha, X86.not_ofInt]
  have hinto := Into.set m r.gpr (BitVec.ofInt 64 (-a - 1))
  obtain ⟨m2, hrun, hinto'⟩ := run_normalizeCode (D := D) (hview ▸ hint) hinto.result
  rw [hview] at hinto'
  exact ⟨m2, by rw [runAll_cons hnot, hrun], hinto.trans hinto'⟩

/-! ### Moving a number on -/

/-- Counting a register up or down, as a number of its type. -/
theorem run_count {type : CType} {n : Int} (hview : r.view = type.word)
    (hint : type.word.isInteger = true) (hn : m.regs r.gpr = BitVec.ofInt 64 n) (increment : Bool)
    (amount : Nat) :
    ∃ m', runAll D (stepInstr increment amount r :: normalizeCode r) m = some m' ∧
      Into m r.gpr
        (BitVec.ofInt 64 (type.wrap (if increment then n + amount else n - amount))) m' := by
  have hamount : m.value D .quad (.imm (Int64.ofNat amount)) = some (BitVec.ofInt 64 amount) := by
    rw [BitVec.ofInt_natCast]
    rfl
  have hstep : ∃ m1, (stepInstr increment amount r).run D m = some m1 ∧
      Into m r.gpr (BitVec.ofInt 64 (if increment then n + amount else n - amount)) m1 := by
    cases increment with
    | true =>
      rw [if_pos rfl, BitVec.ofInt_add, ← hn]
      exact run_alu_quad hamount rfl
    | false =>
      rw [if_neg (by decide), X86.ofInt_sub, ← hn]
      exact run_alu_quad hamount rfl
  obtain ⟨m1, hrun, hinto⟩ := hstep
  obtain ⟨m2, hrun', hinto'⟩ := run_normalizeCode (D := D) (hview ▸ hint) hinto.result
  rw [hview] at hinto'
  exact ⟨m2, by rw [runAll_cons hrun, hrun'], hinto.trans hinto'⟩

theorem run_elementAddress {a n : Int} (hl : m.regs l.gpr = BitVec.ofInt 64 a)
    (hr : m.regs r.gpr = BitVec.ofInt 64 n) (size : Nat) :
    (Instr.lea (.mem (.indexed l.gpr r.gpr size)) (.quad l.gpr)).run D m =
      some (m.set l.gpr (BitVec.ofInt 64 (Scalar.long.wrap (a + size * n)))) := by
  have hsum : BitVec.ofInt 64 a + BitVec.ofInt 64 n * BitVec.ofNat 64 size =
      BitVec.ofInt 64 (Scalar.long.wrap (a + size * n)) := by
    rw [X86.ofInt_wrap_long, BitVec.ofInt_add, BitVec.ofInt_mul, BitVec.ofInt_natCast,
      BitVec.mul_comm]
  simp only [Instr.run, Machine.address, Option.bind_eq_bind, Option.bind_some,
    Machine.assign_quad, hl, hr, hsum]

/-! ### Comparing -/

theorem run_compare {a b : Int} (hl : m.regs l.gpr = BitVec.ofInt 64 a)
    (hr : m.regs r.gpr = BitVec.ofInt 64 b) :
    (compareInstr l r).run D m = some (m.withFlags (some
      (.ofSub .quad (BitVec.ofInt 64 a) (BitVec.ofInt 64 b)))) := by
  simp only [compareInstr, Instr.run, Machine.value_quad, Option.bind_eq_bind, Option.bind_some,
    hl, hr, Machine.alu]

theorem run_compareZero {a : Int} (hr : m.regs r.gpr = BitVec.ofInt 64 a) :
    (Instr.alu .cmp .quad (.imm 0) (.quad r.gpr)).run D m = some (m.withFlags (some
      (.ofSub .quad (BitVec.ofInt 64 a) (BitVec.ofInt 64 0)))) := by
  have hzero : m.value D .quad (.imm 0) = some (BitVec.ofInt 64 0) := rfl
  simp only [Instr.run, hzero, Machine.value_quad, Option.bind_eq_bind, Option.bind_some, hr,
    Machine.alu]

theorem run_test {a : Int} (hr : m.regs r.gpr = BitVec.ofInt 64 a) :
    (Instr.alu .test .quad (.quad r.gpr) (.quad r.gpr)).run D m = some (m.withFlags (some
      (.ofBits .quad (BitVec.ofInt 64 a &&& BitVec.ofInt 64 a)))) := by
  simp only [Instr.run, Machine.value_quad, Option.bind_eq_bind, Option.bind_some, hr, Machine.alu]

/-- The low byte of a register is replaced by a truth value and extended. -/
theorem run_setCode {f : Flags} {c : X86.Cond} {b : Bool} (hf : m.flags = some f)
    (hc : f.holds c = some b) :
    ∃ m', runAll D (setCode c r) m = some m' ∧
      Into m r.gpr (BitVec.ofInt 64 (Typed.truth b)) m' := by
  have hbyte : ∀ x : BitVec 64, Width.byte.zext (Width.byte.replace x (if b then 1 else 0)) =
      BitVec.ofInt 64 (Typed.truth b) := by
    intro x
    rw [X86.zext_replace_byte]
    cases b <;> rfl
  refine ⟨(m.set r.gpr (Width.byte.replace (m.regs r.gpr) (if b then 1 else 0))).set r.gpr
    (BitVec.ofInt 64 (Typed.truth b)), ?_, by simp, fun g hne _ => by simp [hne], rfl⟩
  simp only [setCode, runAll, Instr.run, hf, hc, Option.bind_eq_bind, Option.bind_some,
    Machine.assign, Machine.value, if_true, Machine.set_regs, Function.update_self,
    Register.byte, hbyte]
  rfl

theorem run_relation {a b : Int} (relation : Relation) (x : Reg) (ha : Fits a) (hb : Fits b)
    (hl : m.regs l.gpr = BitVec.ofInt 64 a) (hr : m.regs r.gpr = BitVec.ofInt 64 b) :
    ∃ m', runAll D (compareInstr l r :: setCode (condition relation) x) m = some m' ∧
      Into m x.gpr (BitVec.ofInt 64 (Typed.truth (relation.holds a b))) m' := by
  obtain ⟨m1, hrun, hinto⟩ := run_setCode (D := D) (r := x)
    (Machine.withFlags_flags m _) (X86.holds_ofSub ha hb relation)
  exact ⟨m1, by rw [runAll_cons (run_compare hl hr), hrun], hinto.result, hinto.others, hinto.mem⟩

theorem run_isZero {a : Int} (ha : Fits a) (hr : m.regs r.gpr = BitVec.ofInt 64 a) :
    ∃ m', runAll D (.alu .cmp .quad (.imm 0) (.quad r.gpr) :: setCode .e r) m = some m' ∧
      Into m r.gpr (BitVec.ofInt 64 (Typed.truth (a == 0))) m' := by
  obtain ⟨m1, hrun, hinto⟩ := run_setCode (D := D) (r := r)
    (Machine.withFlags_flags m _) (X86.holds_ofSub ha (b := 0) (by decide) .eq)
  exact ⟨m1, by rw [runAll_cons (run_compareZero hr)]; exact hrun, hinto.result, hinto.others,
    hinto.mem⟩

end Run

end MiniC.Emit
