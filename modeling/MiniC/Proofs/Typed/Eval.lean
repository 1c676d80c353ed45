import MiniC.Proofs.Range
import MiniC.Proofs.Typed.WellTyped
import MiniC.Proofs.X86.Machine

/-!
# The values of integer expressions

What an expression without floats and calls means, in numbers: the integer types are ranges of `Int`,
an operation is done on numbers and its result cut to the range of its type (`wrap`), and addresses
are numbers like those of a `long`. Operands are evaluated from left to right; of an assignment
through a pointer, the value comes before the address.

How objects are kept is a parameter (`Storage`): `memory` keeps them as bytes, where pointers can
reach them. Evaluation ends in a `Trap` at a division that has no result, and `outside` these rules at
floats and calls; a well-typed expression without them stays inside (`eval_ne_outside`).
-/

set_option autoImplicit false

namespace MiniC

/-- Whether two numbers are in a relation. -/
def Relation.holds : Relation → Int → Int → Bool
  | .eq, a, b => a == b
  | .ne, a, b => a != b
  | .lt, a, b => decide (a < b)
  | .le, a, b => decide (a ≤ b)
  | .gt, a, b => decide (b < a)
  | .ge, a, b => decide (b ≤ a)

/-- The place of an object in memory, for a frame with the given base. -/
def Symbol.locate (D : X86.Layout) (base : BitVec 64) (s : Symbol) : BitVec 64 :=
  match s.address with
  | .label name => D name
  | .frame offset => base + BitVec.ofInt 64 offset

namespace Typed

/-- Why an expression has no value here. -/
inductive Trap where
  /-- The divisor is zero, or the quotient is too large for a `long`. -/
  | division
  /-- There are floats or calls, or addresses where objects have none. -/
  | outside
deriving DecidableEq, Repr

/-- A truth value as a number. -/
def truth (b : Bool) : Int := if b then 1 else 0

/-- An operation on the bits of two numbers, in two's complement. -/
def onBits (f : BitVec 64 → BitVec 64 → BitVec 64) (a b : Int) : Int :=
  (f (BitVec.ofInt 64 a) (BitVec.ofInt 64 b)).toInt

/-- Divisions that have no result. -/
def Faults (type : CType) (a b : Int) : Prop :=
  b = 0 ∨ type.word = .long ∧ a = -2 ^ 63 ∧ b = -1

instance (type : CType) (a b : Int) : Decidable (Faults type a b) :=
  inferInstanceAs (Decidable (_ ∨ _))

/-- The result of an operation as a number of a type. A shift takes its count modulo 64. -/
def arith (op : ArithOp) (type : CType) (a b : Int) : Except Trap Int :=
  match op with
  | .add => .ok (type.wrap (a + b))
  | .sub => .ok (type.wrap (a - b))
  | .mul => .ok (type.wrap (a * b))
  | .div => if Faults type a b then .error .division else .ok (type.wrap (a.tdiv b))
  | .mod => if Faults type a b then .error .division else .ok (type.wrap (a.tmod b))
  | .bitAnd => .ok (type.wrap (onBits (· &&& ·) a b))
  | .bitOr => .ok (type.wrap (onBits (· ||| ·) a b))
  | .bitXor => .ok (type.wrap (onBits (· ^^^ ·) a b))
  | .shl => .ok (type.wrap (a * 2 ^ (b % 64).toNat))
  | .shr => .ok (type.wrap (a >>> (b % 64).toNat))

/-- The result of an operator between two operands. -/
def combine (op : BinaryOp) (type : CType) (a b : Int) : Except Trap Int :=
  match op.relation?, op.arith? with
  | some relation, _ => .ok (truth (relation.holds a b))
  | none, some op => arith op type a b
  | none, none => .error .outside

/-- The result of an operator before one operand. -/
def compute (op : UnaryOp) (type : CType) (a : Int) : Except Trap Int :=
  match op.value? with
  | some .negate => .ok (type.wrap (-a))
  | some .invert => .ok (type.wrap (-a - 1))
  | some .not => .ok (truth (a == 0))
  | none => .error .outside

/-- The truth value of an operand at which a logical operator ends: `&&` at a false one, `||` at a
true one. -/
def decisive? : BinaryOp → Option Bool
  | .logicalAnd => some false
  | .logicalOr => some true
  | _ => none

/-- The number that a constant is. -/
def number : Value → Except Trap Int
  | .int v => .ok v.toInt
  | .char v => .ok v.toNat
  | .long v => .ok v.toInt
  | .float _ => .error .outside
  | .str _ => .error .outside

/-- How far `++` and `--` move an object. -/
def stride : CType → Int
  | .pointer element => element.size
  | _ => 1

/-! ### Storage -/

/-- How objects are kept in a store. -/
structure Storage (σ : Type) where
  /-- Where an object lies. -/
  address : Symbol → Except Trap Int
  /-- The value of an object that is a number or an address. -/
  read : σ → Symbol → Int
  write : σ → Symbol → Int → σ
  /-- The number of a type that an address points to. -/
  fetch : σ → Int → Scalar → Except Trap Int
  store : σ → Int → Scalar → Int → Except Trap σ

/-- Objects as bytes in memory. -/
def memory (D : X86.Layout) (base : BitVec 64) : Storage X86.Memory where
  address s := .ok (s.locate D base).toInt
  read mem s := s.type.wrap (mem.read (s.locate D base) s.type.size)
  write mem s v := mem.write (s.locate D base) s.type.size (BitVec.ofInt 64 v).toNat
  fetch mem a element :=
    if element.isInteger then .ok (element.wrap (mem.read (BitVec.ofInt 64 a) element.size))
    else .error .outside
  store mem a element v :=
    if element.isInteger then
      .ok (mem.write (BitVec.ofInt 64 a) element.size (BitVec.ofInt 64 v).toNat)
    else .error .outside

/-! ### Evaluation -/

section Evaluation

variable {σ : Type} (S : Storage σ)

/-- Objects whose value is a number or an address. -/
def isWord : CType → Bool
  | .scalar s => s.isInteger
  | .pointer _ => true
  | _ => false

/-- The value of an expression, and the store after it. -/
def eval : Expr → σ → Except Trap (Int × σ)
  | .literal v, st => do return (← number v, st)
  | .load (.object s), st =>
    if s.type.isArray then do return (← S.address s, st)
    else if isWord s.type then return (S.read st s, st)
    else throw .outside
  | .load (.pointee address pointer), st => do
    let (a, st) ← eval address st
    match pointer.element? with
    | some element => return (← S.fetch st a element, st)
    | none => throw .outside
  | .addressOf s _, st => do return (← S.address s, st)
  | .unary op operand type, st => do
    let (a, st) ← eval operand st
    return (← compute op type a, st)
  | .binary op left right type, st => do
    let (a, st) ← eval left st
    let (b, st) ← eval right st
    return (← combine op type a b, st)
  | .logical op left right, st => do
    let (a, st) ← eval left st
    match decisive? op with
    | some truthValue =>
      if (a != 0) = truthValue then return (truth truthValue, st)
      else
        let (b, st) ← eval right st
        return (truth (b != 0), st)
    | none => throw .outside
  | .assign (.object s) value, st => do
    let (v, st) ← eval value st
    return (v, S.write st s v)
  | .assign (.pointee address pointer) value, st => do
    let (v, st) ← eval value st
    let (a, st) ← eval address st
    match pointer.element? with
    | some element => return (v, ← S.store st a element v)
    | none => throw .outside
  | .step s increment after, st =>
    if isWord s.type then
      let old := S.read st s
      let new := s.type.wrap (if increment then old + stride s.type else old - stride s.type)
      return (if after then old else new, S.write st s new)
    else throw .outside
  | .call _ _ _, _ => throw .outside
  | .convert operand source target, st => do
    let (v, st) ← eval operand st
    if source.isInteger && target.isInteger then return (target.wrap v, st) else throw .outside
  | .offset pointer count element subtract, st => do
    let (a, st) ← eval pointer st
    let (n, st) ← eval count st
    let distance := element.size * n
    return (Scalar.long.wrap (if subtract then a - distance else a + distance), st)

end Evaluation

/-- Expressions without floats and calls; their constants are integers. -/
def Expr.isIntegral : Expr → Bool
  | .literal v => v.integer?.isSome
  | .load (.object s) => !s.type.isFloat
  | .load (.pointee address pointer) => address.isIntegral && pointer.element? != some .float
  | .addressOf _ _ => true
  | .unary _ operand _ => operand.isIntegral
  | .binary _ left right _ => left.isIntegral && right.isIntegral
  | .logical _ left right => left.isIntegral && right.isIntegral
  | .assign (.object s) value => !s.type.isFloat && value.isIntegral
  | .assign (.pointee address pointer) value =>
    address.isIntegral && pointer.element? != some .float && value.isIntegral
  | .step _ _ _ => true
  | .call _ _ _ => false
  | .convert operand source target => operand.isIntegral && source.isInteger && target.isInteger
  | .offset pointer count _ _ => pointer.isIntegral && count.isIntegral

/-! ### Ranges -/

theorem wrap_long_truth (b : Bool) : Scalar.long.wrap (truth b) = truth b := by
  cases b <;> decide

theorem bind_eq_ok {ε α β : Type} {x : Except ε α} {f : α → Except ε β} {b : β}
    (h : x >>= f = .ok b) : ∃ a, x = .ok a ∧ f a = .ok b := by
  cases x with
  | error e => cases h
  | ok a => exact ⟨a, rfl, h⟩

theorem wrap_of_number {v : Value} {n : Int} (h : number v = .ok n) : v.type.wrap n = n := by
  cases v with
  | int v =>
    cases h
    have hlo := Int32.le_toInt v
    have hhi := Int32.toInt_lt v
    exact Int.bmod_eq_of_le (by omega) (by omega)
  | char v =>
    cases h
    have hhi := v.toNat_lt
    exact Int.emod_eq_of_lt (by omega) (by omega)
  | long v =>
    cases h
    exact Scalar.wrap_long_of_bounds (Int64.le_toInt v) (Int64.toInt_lt v)
  | float x => cases h
  | str s => cases h

theorem wrap_of_arith {op : ArithOp} {type : CType} {a b v : Int} (h : arith op type a b = .ok v) :
    type.wrap v = v := by
  unfold arith at h
  split at h
  all_goals first
    | (cases h; exact CType.wrap_wrap type _)
    | (split at h <;> cases h; exact CType.wrap_wrap type _)

section Memory

variable {V : Vocabulary} {D : X86.Layout} {base : BitVec 64} {mem mem' : X86.Memory}

theorem wrap_of_combine {op : BinaryOp} {l r : Expr} {type : CType} {a b v : Int}
    (hwt : (Expr.binary op l r type).WellTyped V) (h : combine op type a b = .ok v) :
    type.wrap v = v := by
  unfold combine at h
  split at h
  · rename_i relation hrel
    cases h
    cases hwt with
    | arithmetic hop =>
      cases op <;> simp_all [BinaryOp.relation?, BinaryOp.arith?]
    | distance => cases hrel
    | compare => exact wrap_long_truth _
  · exact wrap_of_arith h
  · cases h

/-- A value that an object can be given lies in the range of the object's type. -/
theorem wrap_of_fits {t : Expr} {type : CType} {v : Int} (hfits : t.Fits type)
    (hv : t.type.wrap v = v) (h : eval (memory D base) t mem = .ok (v, mem')) :
    type.wrap v = v := by
  rcases hfits with ⟨rfl, -⟩ | ⟨hp, rfl⟩
  · rwa [Expr.valueType, CType.wrap_decay]
  · cases h
    cases type <;> cases hp
    rfl

/-- A value lies in the range of its type. -/
theorem wrap_of_eval {t : Expr} (hwt : t.WellTyped V) {v : Int}
    (h : eval (memory D base) t mem = .ok (v, mem')) : t.type.wrap v = v := by
  induction t using Expr.induct generalizing v mem mem' with
  | literal value =>
    rw [eval] at h
    obtain ⟨n, hn, h1⟩ := bind_eq_ok h
    cases h1
    exact wrap_of_number hn
  | object s =>
    rw [eval] at h
    split at h
    · rename_i harray
      cases h
      show s.type.wrap _ = _
      cases hs : s.type <;> simp [hs, CType.isArray] at harray
      exact Scalar.wrap_long_toInt _
    · split at h
      · cases h
        exact CType.wrap_wrap s.type _
      · cases h
  | pointee a pointer ih =>
    rw [eval] at h
    obtain ⟨⟨p, mem1⟩, -, h1⟩ := bind_eq_ok h
    cases hwt with
    | pointee =>
      obtain ⟨n, hn, h2⟩ := bind_eq_ok h1
      cases h2
      simp only [memory] at hn
      split at hn <;> cases hn
      exact CType.wrap_wrap (.scalar _) _
  | addressOf s type =>
    cases hwt with
    | addressOf =>
      cases h
      exact Scalar.wrap_long_toInt _
  | unary op e type ih =>
    rw [eval] at h
    obtain ⟨⟨a, mem1⟩, -, h1⟩ := bind_eq_ok h
    obtain ⟨n, hn, h2⟩ := bind_eq_ok h1
    cases h2
    cases hwt with
    | negate => cases hn; exact CType.wrap_wrap _ _
    | invert => cases hn; exact CType.wrap_wrap _ _
    | not => cases hn; exact wrap_long_truth _
  | binary op l r type ihl ihr =>
    rw [eval] at h
    obtain ⟨⟨a, mem1⟩, -, h1⟩ := bind_eq_ok h
    obtain ⟨⟨b, mem2⟩, -, h2⟩ := bind_eq_ok h1
    obtain ⟨n, hn, h3⟩ := bind_eq_ok h2
    cases h3
    exact wrap_of_combine hwt hn
  | logical op l r ihl ihr =>
    rw [eval] at h
    obtain ⟨⟨a, mem1⟩, -, h1⟩ := bind_eq_ok h
    dsimp only at h1
    split at h1
    · split at h1
      · cases h1
        exact wrap_long_truth _
      · obtain ⟨⟨b, mem2⟩, -, h2⟩ := bind_eq_ok h1
        cases h2
        exact wrap_long_truth _
    · cases h1
  | assignObject s value ih =>
    rw [eval] at h
    obtain ⟨⟨n, mem1⟩, hn, h1⟩ := bind_eq_ok h
    cases h1
    cases hwt with
    | assignObject hs ha hv ht => exact wrap_of_fits ht (ih hv hn) hn
  | assignPointee a pointer value iha ihv =>
    rw [eval] at h
    obtain ⟨⟨n, mem1⟩, hn, h1⟩ := bind_eq_ok h
    obtain ⟨⟨p, mem2⟩, -, h2⟩ := bind_eq_ok h1
    cases hwt with
    | assignPointee ha hat hv hvt =>
      obtain ⟨mem3, -, h3⟩ := bind_eq_ok h2
      cases h3
      exact wrap_of_fits (.inl ⟨hvt, rfl⟩) (ihv hv hn) hn
  | step s increment after =>
    rw [eval] at h
    split at h
    · cases h
      show s.type.wrap _ = _
      split <;> exact CType.wrap_wrap _ _
    · cases h
  | call name args type => cases h
  | convert e source target ih =>
    rw [eval] at h
    obtain ⟨⟨n, mem1⟩, -, h1⟩ := bind_eq_ok h
    dsimp only at h1
    split at h1
    · cases h1
      exact CType.wrap_wrap (.scalar target) _
    · cases h1
  | offset p c element subtract ihp ihc =>
    rw [eval] at h
    obtain ⟨⟨a, mem1⟩, -, h1⟩ := bind_eq_ok h
    obtain ⟨⟨n, mem2⟩, -, h2⟩ := bind_eq_ok h1
    cases h2
    exact CType.wrap_wrap .long _

theorem bind_ne_outside {α β : Type} {x : Except Trap α} {f : α → Except Trap β}
    (hx : x ≠ .error .outside) (hf : ∀ a, f a ≠ .error .outside) : x >>= f ≠ .error .outside := by
  cases x with
  | error trap =>
    intro h
    cases h
    exact hx rfl
  | ok a => exact hf a

theorem combine_ne_outside {op : BinaryOp} {l r : Expr} {type : CType}
    (hwt : (Expr.binary op l r type).WellTyped V) (a b : Int) :
    combine op type a b ≠ .error .outside := by
  have harith : ∀ op', arith op' type a b ≠ .error .outside := by
    intro op'
    unfold arith
    cases op' <;> (dsimp only; try split) <;> simp
  unfold combine
  split
  · simp
  · exact harith _
  · rename_i hrel hop
    cases hwt <;> simp_all [BinaryOp.arith?]

/-- An expression without floats and calls has a value, unless a division in it has none. -/
theorem eval_ne_outside {t : Expr} (hwt : t.WellTyped V) (hi : t.isIntegral = true) :
    eval (memory D base) t mem ≠ .error .outside := by
  induction t using Expr.induct generalizing mem with
  | literal value =>
    rw [eval]
    rw [Expr.isIntegral] at hi
    refine bind_ne_outside ?_ (by simp [pure, Except.pure])
    cases value <;> simp_all [number, Value.integer?]
  | object s =>
    rw [eval]
    rw [Expr.isIntegral] at hi
    cases hwt with
    | object hs ht =>
      split
      · exact bind_ne_outside (by simp [memory]) (by simp [pure, Except.pure])
      · split
        · simp [pure, Except.pure]
        · rename_i harray hword
          exfalso
          cases hty : s.type with
          | scalar k => cases k <;> simp_all [CType.isFloat, isWord, Scalar.isInteger]
          | _ => simp_all [CType.isArray, CType.isVoid, isWord]
  | pointee a pointer ih =>
    rw [eval]
    rw [Expr.isIntegral, Bool.and_eq_true] at hi
    cases hwt with
    | pointee ha ht =>
      rename_i element
      have helement : element.isInteger = true := by
        cases element <;> simp_all [CType.element?, Scalar.isInteger]
      refine bind_ne_outside (ih ha hi.1) fun p => ?_
      exact bind_ne_outside (by simp [memory, helement]) (by simp [pure, Except.pure])
  | addressOf s type => rw [eval]; simp [memory, bind, Except.bind, pure, Except.pure]
  | unary op e type ih =>
    rw [eval]
    rw [Expr.isIntegral] at hi
    have hcompute : ∀ a, compute op type a ≠ .error .outside := by
      intro a
      cases hwt <;> simp [compute, UnaryOp.value?]
    have he : e.WellTyped V := by cases hwt <;> assumption
    exact bind_ne_outside (ih he hi) fun p =>
      bind_ne_outside (hcompute _) (by simp [pure, Except.pure])
  | binary op l r type ihl ihr =>
    rw [eval]
    rw [Expr.isIntegral, Bool.and_eq_true] at hi
    have hl : l.WellTyped V := by cases hwt <;> assumption
    have hr : r.WellTyped V := by cases hwt <;> assumption
    exact bind_ne_outside (ihl hl hi.1) fun p => bind_ne_outside (ihr hr hi.2) fun q =>
      bind_ne_outside (combine_ne_outside hwt _ _) (by simp [pure, Except.pure])
  | logical op l r ihl ihr =>
    rw [eval]
    rw [Expr.isIntegral, Bool.and_eq_true] at hi
    cases hwt with
    | logical hop hl hr =>
      refine bind_ne_outside (ihl hl hi.1) fun p => ?_
      dsimp only
      split
      · split
        · simp [pure, Except.pure]
        · exact bind_ne_outside (ihr hr hi.2) (by simp [pure, Except.pure])
      · rename_i hnone
        cases op <;> simp_all [decisive?, BinaryOp.isLogical]
  | assignObject s value ih =>
    rw [eval]
    rw [Expr.isIntegral, Bool.and_eq_true] at hi
    cases hwt with
    | assignObject hs ha hv ht =>
      exact bind_ne_outside (ih hv hi.2) (by simp [pure, Except.pure])
  | assignPointee a pointer value iha ihv =>
    rw [eval]
    rw [Expr.isIntegral, Bool.and_eq_true, Bool.and_eq_true] at hi
    cases hwt with
    | assignPointee ha hat hv hvt =>
      rename_i element
      have helement : element.isInteger = true := by
        cases element <;> simp_all [CType.element?, Scalar.isInteger]
      refine bind_ne_outside (ihv hv hi.2) fun p => bind_ne_outside (iha ha hi.1.1) fun q => ?_
      exact bind_ne_outside (by simp [memory, helement]) (by simp [pure, Except.pure])
  | step s increment after =>
    rw [eval]
    cases hwt with
    | step hs ht =>
      rw [if_pos]
      · simp [pure, Except.pure]
      · cases hty : s.type <;> simp_all [CType.isInteger, CType.isPointer, isWord]
  | call name args type => cases hi
  | convert e source target ih =>
    rw [eval]
    rw [Expr.isIntegral, Bool.and_eq_true, Bool.and_eq_true] at hi
    cases hwt with
    | convert he ht hne =>
      refine bind_ne_outside (ih he hi.1.1) fun p => ?_
      simp [hi.1.2, hi.2, pure, Except.pure]
  | offset p c element subtract ihp ihc =>
    rw [eval]
    rw [Expr.isIntegral, Bool.and_eq_true] at hi
    cases hwt with
    | offset hp hc =>
      exact bind_ne_outside (ihp hp hi.1) fun a => bind_ne_outside (ihc hc hi.2) fun n =>
        by simp [pure, Except.pure]

end Memory

end Typed

end MiniC
