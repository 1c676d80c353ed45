import MiniC.Emit.Compare
import MiniC.Proofs.Typed.Eval

/-!
# Numbers in registers

A register holds the number `n` as the word `BitVec.ofInt 64 n`. This module relates what the
machine does to words with what the language does to numbers: extending the low part of a word cuts
the number to the range of a type, the flags after a comparison tell how two numbers compare, and
bytes in memory hold the number they are read as.
-/

set_option autoImplicit false

namespace MiniC.X86

/-- Numbers that a register holds without loss. -/
abbrev Fits (n : Int) : Prop := Scalar.long.wrap n = n

theorem toInt_ofInt_of_fits {n : Int} (h : Fits n) : (BitVec.ofInt 64 n).toInt = n := by
  rw [BitVec.toInt_ofInt]
  exact h

theorem Fits.bounds {n : Int} (h : Fits n) : -2 ^ 63 ≤ n ∧ n < 2 ^ 63 := by
  have hn : n.bmod (2 ^ 64) = n := h
  have hlo := Int.le_bmod (x := n) (m := 2 ^ 64) (by decide)
  have hhi := Int.bmod_lt (x := n) (m := 2 ^ 64) (by decide)
  omega

/-! ### Extending -/

theorem ofInt_wrap_long (n : Int) : BitVec.ofInt 64 (Scalar.long.wrap n) = BitVec.ofInt 64 n := by
  apply BitVec.eq_of_toInt_eq
  rw [BitVec.toInt_ofInt, BitVec.toInt_ofInt]
  exact Int.bmod_bmod

theorem sext_zext (w : Width) (x : BitVec 64) : w.sext (w.zext x) = w.sext x := by
  cases w <;> simp [Width.sext, Width.zext]

/-- The low byte of a register is the one that was put there. -/
theorem zext_replace_byte (old v : BitVec 64) :
    Width.byte.zext (Width.byte.replace old v) = Width.byte.zext v := by
  have hlow : (Width.byte.replace old v).setWidth 8 = v.setWidth 8 := by
    apply BitVec.eq_of_getLsbD_eq
    intro i hi
    have happend : (Width.byte.replace old v).getLsbD i =
        (old.extractLsb' 8 56 ++ v.setWidth 8).getLsbD i := rfl
    rw [BitVec.getLsbD_setWidth, happend, BitVec.getLsbD_append]
    simp [hi]
  rw [Width.zext, hlow, Width.zext]

/-- The low four bytes, extended by their sign, are the number as an `int`. -/
theorem sext_long_ofInt (n : Int) :
    Width.long.sext (BitVec.ofInt 64 n) = BitVec.ofInt 64 (Scalar.int.wrap n) := by
  apply BitVec.eq_of_toInt_eq
  have hlo := Int.le_bmod (x := n) (m := 2 ^ 32) (by decide)
  have hhi := Int.bmod_lt (x := n) (m := 2 ^ 32) (by decide)
  have hwrap : (Scalar.int.wrap n).bmod (2 ^ 64) = Scalar.int.wrap n :=
    Int.bmod_eq_of_le (by simp only [Scalar.wrap]; omega) (by simp only [Scalar.wrap]; omega)
  rw [BitVec.toInt_ofInt, hwrap]
  show (((BitVec.ofInt 64 n).setWidth 32).signExtend 64).toInt = n.bmod (2 ^ 32)
  rw [BitVec.toInt_signExtend_of_le (by decide), BitVec.toInt_setWidth, BitVec.toNat_ofInt]
  have hnat : ((n % ((2 ^ 64 : Nat) : Int)).toNat : Int) = n % 2 ^ 64 := by omega
  rw [hnat, Int.bmod_def, Int.bmod_def, Int.emod_emod_of_dvd n (by decide)]

/-- The low byte, extended by zeros, is the number as a `char`. -/
theorem zext_byte_ofInt (n : Int) :
    Width.byte.zext (BitVec.ofInt 64 n) = BitVec.ofInt 64 (Scalar.char.wrap n) := by
  apply BitVec.eq_of_toNat_eq
  show (((BitVec.ofInt 64 n).setWidth 8).setWidth 64).toNat = (BitVec.ofInt 64 (n % 2 ^ 8)).toNat
  simp only [BitVec.toNat_setWidth, BitVec.toNat_ofInt]
  omega

/-! ### Arithmetic -/

theorem ofInt_sub (a b : Int) :
    BitVec.ofInt 64 (a - b) = BitVec.ofInt 64 a - BitVec.ofInt 64 b := by
  rw [Int.sub_eq_add_neg, BitVec.ofInt_add, BitVec.ofInt_neg, BitVec.sub_eq_add_neg]

theorem not_ofInt (a : Int) : ~~~(BitVec.ofInt 64 a) = BitVec.ofInt 64 (-a - 1) := by
  rw [ofInt_sub, BitVec.ofInt_neg, BitVec.neg_eq_not_add]
  exact (BitVec.add_sub_cancel _ _).symm

theorem ofInt_onBits (f : BitVec 64 → BitVec 64 → BitVec 64) (a b : Int) :
    BitVec.ofInt 64 (Typed.onBits f a b) = f (BitVec.ofInt 64 a) (BitVec.ofInt 64 b) :=
  BitVec.ofInt_toInt

theorem shiftLeft_ofInt (a : Int) (k : Nat) :
    BitVec.ofInt 64 a <<< k = BitVec.ofInt 64 (a * 2 ^ k) := by
  have htwo : BitVec.ofInt 64 (2 ^ k) = BitVec.twoPow 64 k := by
    apply BitVec.eq_of_toNat_eq
    rw [BitVec.toNat_twoPow, BitVec.toNat_ofInt]
    norm_cast
  rw [BitVec.ofInt_mul, BitVec.shiftLeft_eq_mul_twoPow, htwo]

theorem sshiftRight_ofInt {a : Int} (h : Fits a) (k : Nat) :
    (BitVec.ofInt 64 a).sshiftRight k = BitVec.ofInt 64 (a >>> k) := by
  apply BitVec.eq_of_toInt_eq
  rw [BitVec.toInt_sshiftRight, toInt_ofInt_of_fits h]
  -- shifting right brings a number nearer to zero
  obtain ⟨hlo, hhi⟩ := h.bounds
  have hshift : Fits (a >>> k) := by
    have hpos : (1 : Int) ≤ 2 ^ k := by exact_mod_cast Nat.one_le_two_pow
    rw [Int.shiftRight_eq_div_pow]
    push_cast
    refine Scalar.wrap_long_of_bounds ?_ ?_
    · exact Int.le_ediv_of_mul_le (by omega) (by nlinarith)
    · exact Int.ediv_lt_of_lt_mul (by omega) (by nlinarith)
  exact (toInt_ofInt_of_fits hshift).symm

/-! ### Comparing -/

theorem ofSub_zero {a b : Int} (ha : Fits a) (hb : Fits b) :
    (Flags.ofSub .quad (BitVec.ofInt 64 a) (BitVec.ofInt 64 b)).zero = decide (a = b) := by
  show (BitVec.ofInt 64 a - BitVec.ofInt 64 b == 0) = decide (a = b)
  rw [Bool.eq_iff_iff, beq_iff_eq, decide_eq_true_iff]
  constructor
  · intro h
    have heq : BitVec.ofInt 64 a = BitVec.ofInt 64 b :=
      (BitVec.sub_eq_iff_eq_add.mp h).trans (by simp)
    rw [← toInt_ofInt_of_fits ha, heq, toInt_ofInt_of_fits hb]
  · rintro rfl
    exact BitVec.sub_self _

/-- The sign of a difference, set right by the overflow, tells which number is less. -/
theorem ofSub_less {a b : Int} (ha : Fits a) (hb : Fits b) :
    ((Flags.ofSub .quad (BitVec.ofInt 64 a) (BitVec.ofInt 64 b)).sign !=
      (Flags.ofSub .quad (BitVec.ofInt 64 a) (BitVec.ofInt 64 b)).overflow) = decide (a < b) := by
  obtain ⟨halo, hahi⟩ := ha.bounds
  obtain ⟨hblo, hbhi⟩ := hb.bounds
  have hsub : (BitVec.ofInt 64 a - BitVec.ofInt 64 b).toInt = (a - b).bmod (2 ^ 64) := by
    rw [BitVec.toInt_sub, toInt_ofInt_of_fits ha, toInt_ofInt_of_fits hb]
  show (decide ((BitVec.ofInt 64 a - BitVec.ofInt 64 b).toInt < 0) !=
    decide ((BitVec.ofInt 64 a).toInt - (BitVec.ofInt 64 b).toInt ≠
      (BitVec.ofInt 64 a - BitVec.ofInt 64 b).toInt)) = decide (a < b)
  rw [hsub, toInt_ofInt_of_fits ha, toInt_ofInt_of_fits hb]
  -- the difference is off by at most one turn of the 64-bit range
  have hturn : (a - b).bmod (2 ^ 64) = a - b ∨ (a - b).bmod (2 ^ 64) = a - b - 2 ^ 64 ∧ 0 ≤ a - b ∨
      (a - b).bmod (2 ^ 64) = a - b + 2 ^ 64 ∧ a - b < 0 := by
    rw [Int.bmod_def]
    omega
  have hlo := Int.le_bmod (x := a - b) (m := 2 ^ 64) (by decide)
  have hhi := Int.bmod_lt (x := a - b) (m := 2 ^ 64) (by decide)
  rw [Bool.eq_iff_iff, bne_iff_ne, ne_eq, decide_eq_decide, decide_eq_true_iff]
  omega

/-- After a comparison the condition of a relation holds just when the numbers are in it. -/
theorem holds_ofSub {a b : Int} (ha : Fits a) (hb : Fits b) (relation : Relation) :
    (Flags.ofSub .quad (BitVec.ofInt 64 a) (BitVec.ofInt 64 b)).holds
      (Emit.condition relation) = some (relation.holds a b) := by
  have hzero := ofSub_zero ha hb
  have hless := ofSub_less ha hb
  generalize Flags.ofSub .quad (BitVec.ofInt 64 a) (BitVec.ofInt 64 b) = f at hzero hless
  have hge : (f.sign == f.overflow) = !decide (a < b) := by rw [← hless]; simp [bne]
  cases relation <;>
    simp only [Emit.condition, Flags.holds, Relation.holds, hzero, hless, hge, Option.some.injEq]
      <;> rw [Bool.eq_iff_iff] <;> simp <;> omega

theorem holds_ofBits_self {a : Int} (ha : Fits a) {relation : Relation}
    (hr : relation = .eq ∨ relation = .ne) :
    (Flags.ofBits .quad (BitVec.ofInt 64 a &&& BitVec.ofInt 64 a)).holds
      (Emit.condition relation) = some (relation.holds a 0) := by
  have hzero : (BitVec.ofInt 64 a == 0) = decide (a = 0) := by
    have h := ofSub_zero ha (b := 0) (by decide)
    have hsub : BitVec.ofInt 64 a - BitVec.ofInt 64 0 = BitVec.ofInt 64 a := by simp
    rw [← h]
    show _ = (BitVec.ofInt 64 a - BitVec.ofInt 64 0 == 0)
    rw [hsub]
  rw [BitVec.and_self]
  rcases hr with rfl | rfl
  · show some (BitVec.ofInt 64 a == 0) = some (a == 0)
    rw [hzero]
    rfl
  · show some (!(BitVec.ofInt 64 a == 0)) = some (a != 0)
    rw [hzero]
    rfl

/-! ### Bytes -/

namespace Memory

theorem read_lt (mem : Memory) (a : BitVec 64) (n : Nat) : mem.read a n < 256 ^ n := by
  induction n generalizing a with
  | zero => simp [read]
  | succ n ih =>
    have hbyte := (mem a).isLt
    have hrest := ih (a + 1)
    rw [read, Nat.pow_succ]
    omega

theorem add_ofNat_succ (a : BitVec 64) (i : Nat) :
    a + BitVec.ofNat 64 (i + 1) = a + 1 + BitVec.ofNat 64 i := by
  rw [BitVec.add_assoc, Nat.add_comm i 1, BitVec.ofNat_add]
  rfl

theorem read_congr {mem mem' : Memory} {a : BitVec 64} {n : Nat}
    (h : ∀ i < n, mem (a + BitVec.ofNat 64 i) = mem' (a + BitVec.ofNat 64 i)) :
    mem.read a n = mem'.read a n := by
  induction n generalizing a with
  | zero => rfl
  | succ n ih =>
    have hfirst : mem a = mem' a := by simpa using h 0 (by omega)
    have hrest : mem.read (a + 1) n = mem'.read (a + 1) n := by
      apply ih
      intro i hi
      rw [← add_ofNat_succ]
      exact h (i + 1) (by omega)
    rw [read, read, hfirst, hrest]

/-- Bytes that are those of a number are read as the number. -/
theorem read_eq_of_bytes {mem : Memory} {a : BitVec 64} {n v : Nat}
    (h : ∀ i < n, mem (a + BitVec.ofNat 64 i) = BitVec.ofNat 8 (v / 256 ^ i)) :
    mem.read a n = v % 256 ^ n := by
  induction n generalizing a v with
  | zero => simp [read, Nat.mod_one]
  | succ n ih =>
    have hfirst : mem a = BitVec.ofNat 8 v := by simpa using h 0 (by omega)
    have hrest : mem.read (a + 1) n = v / 256 % 256 ^ n := by
      apply ih
      intro i hi
      rw [← add_ofNat_succ, h (i + 1) (by omega), Nat.div_div_eq_div_mul, Nat.pow_succ']
    have hsplit : v % 256 ^ (n + 1) = v % 256 + 256 * (v / 256 % 256 ^ n) := by
      rw [Nat.pow_succ', Nat.mod_mul]
    rw [read, hfirst, hrest, hsplit, BitVec.toNat_ofNat]

theorem add_ofNat_sub_self (a : BitVec 64) (i : Nat) :
    (a + BitVec.ofNat 64 i - a).toNat = i % 2 ^ 64 := by
  rw [BitVec.add_comm, BitVec.add_sub_cancel, BitVec.toNat_ofNat]

/-- What was written is read back, as far as there are bytes for it. -/
theorem read_write_self (mem : Memory) (a : BitVec 64) {n : Nat} (hn : n ≤ 2 ^ 64) (v : Nat) :
    (mem.write a n v).read a n = v % 256 ^ n := by
  apply read_eq_of_bytes
  intro i hi
  have hdistance : (a + BitVec.ofNat 64 i - a).toNat = i := by
    rw [add_ofNat_sub_self]
    exact Nat.mod_eq_of_lt (by omega)
  rw [write, hdistance, if_pos hi]

theorem write_mod (mem : Memory) (a : BitVec 64) (n v : Nat) :
    mem.write a n (v % 256 ^ n) = mem.write a n v := by
  funext b
  unfold write
  split
  · rename_i hlt
    generalize (b - a).toNat = i at hlt ⊢
    have hpow : 256 ^ n = 256 ^ i * 256 ^ (n - i) := by
      rw [← Nat.pow_add]
      congr 1
      omega
    have hdvd : 256 ∣ 256 ^ (n - i) := dvd_pow_self 256 (by omega)
    apply BitVec.eq_of_toNat_eq
    rw [BitVec.toNat_ofNat, BitVec.toNat_ofNat, hpow, Nat.mod_mul_right_div_self]
    exact Nat.mod_mod_of_dvd _ hdvd
  · rfl

end Memory

/-- The bytes of a value, extended to a register, are its number. -/
theorem extend_read (mem : Memory) (a : BitVec 64) :
    BitVec.ofNat 64 (mem.read a 1) = BitVec.ofInt 64 (Scalar.char.wrap (mem.read a 1)) ∧
    Width.long.sext (BitVec.ofNat 64 (mem.read a 4)) =
      BitVec.ofInt 64 (Scalar.int.wrap (mem.read a 4)) ∧
    BitVec.ofNat 64 (mem.read a 8) = BitVec.ofInt 64 (Scalar.long.wrap (mem.read a 8)) := by
  refine ⟨?_, ?_, ?_⟩
  · have hlt := mem.read_lt a 1
    rw [← BitVec.ofInt_natCast]
    congr 1
    exact (Int.emod_eq_of_lt (by omega) (by omega)).symm
  · rw [← BitVec.ofInt_natCast, sext_long_ofInt]
  · rw [← BitVec.ofInt_natCast, ofInt_wrap_long]

end MiniC.X86
