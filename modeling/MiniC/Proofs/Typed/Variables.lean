import MiniC.Proofs.Typed.Exec
import MiniC.Proofs.X86.Words

/-!
# Variables in memory

Where no address is ever taken, objects are variables: a store gives each its value, and an assignment
changes one of them (`valuation`). The expressions that can be evaluated so are the plain ones.

In memory a variable is some bytes. As long as no two variables share a byte, whatever a plain statement
does to the store it does to the bytes, and it changes no byte outside the variables (`exec_memory`).
-/

set_option autoImplicit false

namespace MiniC

open MiniC.X86 (Layout Memory)

/-- A byte of an object lies at an address. -/
def Symbol.Covers (D : Layout) (base : BitVec 64) (o : Symbol) (a : BitVec 64) : Prop :=
  (a - o.locate D base).toNat < o.type.size

namespace Typed

/-- Objects as variables, which have values but no addresses. -/
def valuation : Storage (Symbol → Int) where
  address _ := .error .outside
  read st o := st o
  write st o v := Function.update st o v
  fetch _ _ _ := .error .outside
  store _ _ _ _ := .error .outside

/-! ### Plain trees -/

/-- Expressions over integer variables: without addresses, floats and calls. -/
def Expr.isPlain : Expr → Bool
  | .literal v => v.integer?.isSome
  | .load (.object o) => o.type.isInteger
  | .load (.pointee _ _) => false
  | .addressOf _ _ => false
  | .unary _ operand _ => operand.isPlain
  | .binary _ left right _ => left.isPlain && right.isPlain
  | .logical _ left right => left.isPlain && right.isPlain
  | .assign (.object o) value => o.type.isInteger && value.isPlain
  | .assign (.pointee _ _) _ => false
  | .step o _ _ => o.type.isInteger
  | .call _ _ _ => false
  | .convert operand source target => operand.isPlain && source.isInteger && target.isInteger
  | .offset _ _ _ _ => false

section Kinds

variable (p : Expr → Bool) (q : Symbol → Bool)

mutual

/-- Statements over expressions of one kind that declare objects of one kind; they print nothing and
initialize no arrays. -/
def Stmt.isOver : Stmt → Bool
  | .block body => allOver body
  | .print _ _ => false
  | .declare o none _ => q o
  | .declare o (some (.scalar value)) _ => q o && p value
  | .declare _ (some (.elements _)) _ => false
  | .expr e _ => p e
  | .cond c thenBranch elseBranch _ => p c && thenBranch.isOver && optionOver elseBranch
  | .whileLoop c body _ => p c && body.isOver
  | .forLoop init c update body _ => optionOver init && c.all p && update.all p && body.isOver
  | .ret value _ => value.all p
  | .empty => true

def allOver : List Stmt → Bool
  | [] => true
  | s :: rest => s.isOver && allOver rest

def optionOver : Option Stmt → Bool
  | none => true
  | some s => s.isOver

end

end Kinds

/-- Statements over integer variables. -/
abbrev Stmt.isPlain (s : Stmt) : Bool := s.isOver Expr.isPlain (·.type.isInteger)

/-- Functions over integer variables. -/
def Function.isPlain (f : Function) : Bool :=
  f.parameters.all (·.type.isInteger) && (Stmt.block f.body).isPlain

/-- Statements over integer expressions, which may have addresses. -/
abbrev Stmt.isIntegral (s : Stmt) : Bool := s.isOver Expr.isIntegral fun _ => true

theorem isFloat_of_isInteger {type : CType} (h : type.isInteger = true) : type.isFloat = false := by
  cases type with
  | scalar s => cases s <;> simp_all [CType.isInteger, CType.isFloat, Scalar.isInteger]
  | _ => rfl

theorem Expr.isIntegral_of_isPlain {t : Expr} (h : t.isPlain = true) : t.isIntegral = true := by
  induction t using Expr.induct with
  | literal v => exact h
  | object o => simpa [Expr.isIntegral] using isFloat_of_isInteger h
  | unary op e type ih => exact ih h
  | binary op l r type ihl ihr =>
    rw [Expr.isPlain, Bool.and_eq_true] at h
    rw [Expr.isIntegral, ihl h.1, ihr h.2]
    rfl
  | logical op l r ihl ihr =>
    rw [Expr.isPlain, Bool.and_eq_true] at h
    rw [Expr.isIntegral, ihl h.1, ihr h.2]
    rfl
  | assignObject o v ih =>
    rw [Expr.isPlain, Bool.and_eq_true] at h
    rw [Expr.isIntegral, isFloat_of_isInteger h.1, ih h.2]
    rfl
  | step => rfl
  | convert e source target ih =>
    rw [Expr.isPlain, Bool.and_eq_true, Bool.and_eq_true] at h
    rw [Expr.isIntegral, ih h.1.1, h.1.2, h.2]
    rfl
  | _ => cases h

/-- Plain statements are statements over integer expressions. -/
theorem Stmt.isIntegral_of_isPlain {s : Stmt} (h : s.isPlain = true) : s.isIntegral = true := by
  have hoption : ∀ t : Option Expr, t.all Expr.isPlain = true → t.all Expr.isIntegral = true := by
    intro t ht
    cases t with
    | none => rfl
    | some t => exact Expr.isIntegral_of_isPlain ht
  have hbranch : ∀ branch : Option Stmt, (∀ s ∈ branch, s.isPlain = true → s.isIntegral = true) →
      optionOver Expr.isPlain (·.type.isInteger) branch = true →
      optionOver Expr.isIntegral (fun _ => true) branch = true := by
    intro branch ih hs
    cases branch with
    | none => rfl
    | some s => exact ih s rfl hs
  induction s using Stmt.induct with
  | block body ih =>
    show allOver _ _ body = true
    have hall : allOver Expr.isPlain (·.type.isInteger) body = true := h
    clear h
    induction body with
    | nil => rfl
    | cons s rest ihrest =>
      rw [allOver, Bool.and_eq_true] at hall ⊢
      exact ⟨ih s (by simp) hall.1, ihrest (fun s hs => ih s (by simp [hs])) hall.2⟩
  | print e place => cases h
  | declare o init place =>
    match init, h with
    | none, _ => rfl
    | some (.scalar t), h =>
      simp only [Stmt.isOver, Bool.and_eq_true] at h ⊢
      exact ⟨trivial, Expr.isIntegral_of_isPlain h.2⟩
  | expr e place => exact Expr.isIntegral_of_isPlain h
  | cond c thenBranch elseBranch place ihthen ihelse =>
    simp only [Stmt.isOver, Bool.and_eq_true] at h ⊢
    exact ⟨⟨Expr.isIntegral_of_isPlain h.1.1, ihthen h.1.2⟩, hbranch _ ihelse h.2⟩
  | whileLoop c body place ih =>
    simp only [Stmt.isOver, Bool.and_eq_true] at h ⊢
    exact ⟨Expr.isIntegral_of_isPlain h.1, ih h.2⟩
  | forLoop init c update body place ihinit ih =>
    simp only [Stmt.isOver, Bool.and_eq_true] at h ⊢
    exact ⟨⟨⟨hbranch _ ihinit h.1.1.1, hoption _ h.1.1.2⟩, hoption _ h.1.2⟩, ih h.2⟩
  | ret value place => exact hoption _ h
  | empty => rfl

/-! ### Bytes of variables -/

section Bytes

variable (D : Layout) (base : BitVec 64) (vars : Symbol → Prop)

/-- No two variables share a byte. -/
def Apart : Prop :=
  ∀ o o' a, vars o → vars o' → o.Covers D base a → o'.Covers D base a → o = o'

/-- The bytes of the variables are their values. -/
def Represents (st : Symbol → Int) (mem : Memory) : Prop :=
  ∀ o, vars o → (memory D base).read mem o = st o

/-- No byte outside the variables is changed. -/
def Spares (mem mem' : Memory) : Prop :=
  ∀ a, (∀ o, vars o → ¬ o.Covers D base a) → mem' a = mem a

end Bytes

section Bytes

variable {D : Layout} {base : BitVec 64} {vars : Symbol → Prop} {st st' : Symbol → Int}
  {mem mem1 mem2 : Memory}

theorem Spares.refl (mem : Memory) : Spares D base vars mem mem := fun _ _ => rfl

theorem Spares.trans (h : Spares D base vars mem mem1) (h' : Spares D base vars mem1 mem2) :
    Spares D base vars mem mem2 :=
  fun a ha => (h' a ha).trans (h a ha)

theorem covers_locate {o : Symbol} {i : Nat} (hi : i < o.type.size) :
    o.Covers D base (o.locate D base + BitVec.ofNat 64 i) := by
  show (o.locate D base + BitVec.ofNat 64 i - o.locate D base).toNat < _
  rw [Memory.add_ofNat_sub_self]
  exact Nat.lt_of_le_of_lt (Nat.mod_le _ _) hi

theorem bmod_congr {a b : Int} {m : Nat} (h : a % m = b % m) : a.bmod m = b.bmod m := by
  rw [← Int.emod_bmod, h, Int.emod_bmod]

/-- The bytes of a number are read as a number of the same range. -/
theorem wrap_bytes {s : Scalar} (hs : s.isInteger = true) (v : Int) :
    s.wrap (((BitVec.ofInt 64 v).toNat % 256 ^ s.size : Nat) : Int) = s.wrap v := by
  have hword : ((BitVec.ofInt 64 v).toNat : Int) = v % 2 ^ 64 := by
    rw [BitVec.toNat_ofInt]
    omega
  generalize (BitVec.ofInt 64 v).toNat = n at hword ⊢
  cases s with
  | char =>
    rw [Scalar.wrap, Scalar.wrap, Scalar.size]
    omega
  | int =>
    rw [Scalar.wrap, Scalar.wrap, Scalar.size]
    apply bmod_congr
    omega
  | long =>
    rw [Scalar.wrap, Scalar.wrap, Scalar.size]
    apply bmod_congr
    omega
  | float => cases hs

theorem read_write_self {o : Symbol} (ho : o.type.isInteger = true) {v : Int}
    (hv : o.type.wrap v = v) : (memory D base).read ((memory D base).write mem o v) o = v := by
  obtain ⟨s, hs⟩ : ∃ s, o.type = .scalar s := by
    cases htype : o.type <;> simp_all [CType.isInteger]
  have hint : s.isInteger = true := by
    rw [hs] at ho
    exact ho
  have hsize : s.size ≤ 2 ^ 64 := by
    cases s <;> decide
  rw [hs] at hv
  show o.type.wrap _ = v
  simp only [memory, hs]
  rw [CType.size, Memory.read_write_self _ _ hsize]
  exact (wrap_bytes hint v).trans hv

theorem Represents.write (hapart : Apart D base vars) (h : Represents D base vars st mem)
    {o : Symbol} (ho : vars o) (hint : o.type.isInteger = true) {v : Int} (hv : o.type.wrap v = v) :
    Represents D base vars (Function.update st o v) ((memory D base).write mem o v) := by
  intro o' ho'
  by_cases heq : o' = o
  · subst heq
    rw [Function.update_self]
    exact read_write_self hint hv
  · rw [Function.update_of_ne heq, ← h o' ho']
    show o'.type.wrap _ = o'.type.wrap _
    congr 2
    apply Memory.read_congr
    intro i hi
    have hcovers : o'.Covers D base (o'.locate D base + BitVec.ofNat 64 i) := covers_locate hi
    exact if_neg fun hc => heq (hapart o' o _ ho' ho hcovers hc)

theorem spares_write (mem : Memory) {o : Symbol} (ho : vars o) (v : Int) :
    Spares D base vars mem ((memory D base).write mem o v) :=
  fun _ ha => if_neg (ha o ho)

end Bytes

/-! ### From variables to memory -/

/-- Memory has come to hold the values of a store, and nothing else in it has changed. -/
structure Follows (D : Layout) (base : BitVec 64) (vars : Symbol → Prop) (mem : Memory)
    (st' : Symbol → Int) (mem' : Memory) : Prop where
  represents : Represents D base vars st' mem'
  spares : Spares D base vars mem mem'

section Refinement

variable {D : Layout} {base : BitVec 64} {vars : Symbol → Prop} {V : Vocabulary}
  {st st1 st' : Symbol → Int} {mem mem1 mem2 : Memory}

theorem Follows.refl (h : Represents D base vars st mem) : Follows D base vars mem st mem :=
  ⟨h, .refl mem⟩

theorem Follows.trans (h : Follows D base vars mem st1 mem1)
    (h' : Follows D base vars mem1 st' mem2) : Follows D base vars mem st' mem2 :=
  ⟨h'.represents, h.spares.trans h'.spares⟩

theorem Follows.write (h : Follows D base vars mem st mem1) (hapart : Apart D base vars) {o : Symbol}
    (ho : vars o) (hint : o.type.isInteger = true) {v : Int} (hv : o.type.wrap v = v) :
    Follows D base vars mem (Function.update st o v) ((memory D base).write mem1 o v) :=
  ⟨h.represents.write hapart ho hint hv, h.spares.trans (spares_write mem1 ho v)⟩

theorem isWord_of_isInteger {type : CType} (h : type.isInteger = true) : isWord type = true := by
  cases type with
  | scalar s => exact h
  | _ => cases h

theorem isArray_of_isInteger {type : CType} (h : type.isInteger = true) : type.isArray = false := by
  cases type with
  | array => cases h
  | _ => rfl

/-- A plain expression has the same value over memory, and changes it as it changes the store. -/
theorem eval_memory (hapart : Apart D base vars)
    (hvars : ∀ o, V.objects o → o.type.isInteger = true → vars o) {t : Expr} (hwt : t.WellTyped V)
    (hp : t.isPlain = true) (hr : Represents D base vars st mem) {v : Int}
    (h : eval valuation t st = .ok (v, st')) :
    ∃ mem', eval (memory D base) t mem = .ok (v, mem') ∧ Follows D base vars mem st' mem' := by
  induction t using Expr.induct generalizing st st' mem v with
  | literal value =>
    rw [eval] at h
    obtain ⟨n, hn, h1⟩ := bind_eq_ok h
    cases h1
    refine ⟨mem, ?_, .refl hr⟩
    rw [eval, hn]
    rfl
  | object o =>
    have hint : o.type.isInteger = true := hp
    rw [eval, isArray_of_isInteger hint, isWord_of_isInteger hint] at h
    cases h
    refine ⟨mem, ?_, .refl hr⟩
    cases hwt with
    | object hs =>
      rw [eval, isArray_of_isInteger hint, isWord_of_isInteger hint, hr o (hvars o hs hint)]
      rfl
  | unary op e type ih =>
    rw [eval] at h
    obtain ⟨⟨a, st1⟩, ha, h1⟩ := bind_eq_ok h
    obtain ⟨n, hn, h2⟩ := bind_eq_ok h1
    cases h2
    have he : e.WellTyped V := by cases hwt <;> assumption
    obtain ⟨mem1, ha', hf⟩ := ih he hp hr ha
    refine ⟨mem1, ?_, hf⟩
    rw [eval, ha']
    show (do return (← compute op type a, mem1)) = _
    rw [hn]
    rfl
  | binary op l r type ihl ihr =>
    rw [Expr.isPlain, Bool.and_eq_true] at hp
    rw [eval] at h
    obtain ⟨⟨a, st1⟩, ha, h1⟩ := bind_eq_ok h
    obtain ⟨⟨b, st2⟩, hb, h2⟩ := bind_eq_ok h1
    obtain ⟨n, hn, h3⟩ := bind_eq_ok h2
    cases h3
    have hl : l.WellTyped V := by cases hwt <;> assumption
    have hrwt : r.WellTyped V := by cases hwt <;> assumption
    obtain ⟨mem1, ha', hf⟩ := ihl hl hp.1 hr ha
    obtain ⟨mem2, hb', hf'⟩ := ihr hrwt hp.2 hf.represents hb
    refine ⟨mem2, ?_, hf.trans hf'⟩
    rw [eval, ha']
    simp only [bind, Except.bind, hb', hn]
    rfl
  | logical op l r ihl ihr =>
    rw [Expr.isPlain, Bool.and_eq_true] at hp
    rw [eval] at h
    obtain ⟨⟨a, st1⟩, ha, h1⟩ := bind_eq_ok h
    cases hwt with
    | logical hop hl hrwt =>
      obtain ⟨mem1, ha', hf⟩ := ihl hl hp.1 hr ha
      rw [eval, ha']
      cases hb : decisive? op with
      | none =>
        rw [hb] at h1
        cases h1
      | some b =>
        rw [hb] at h1
        simp only at h1
        by_cases hdecided : (a != 0) = b
        · -- the left operand decides
          rw [if_pos hdecided] at h1
          cases h1
          exact ⟨mem1, if_pos hdecided, hf⟩
        · rw [if_neg hdecided] at h1
          obtain ⟨⟨a', st2⟩, hr', h2⟩ := bind_eq_ok h1
          cases h2
          obtain ⟨mem2, hr'', hf'⟩ := ihr hrwt hp.2 hf.represents hr'
          refine ⟨mem2, (if_neg hdecided).trans ?_, hf.trans hf'⟩
          rw [hr'']
          rfl
  | assignObject o value ih =>
    rw [Expr.isPlain, Bool.and_eq_true] at hp
    rw [eval] at h
    obtain ⟨⟨n, st1⟩, hn, h1⟩ := bind_eq_ok h
    cases h1
    cases hwt with
    | assignObject hs ha hv ht =>
      obtain ⟨mem1, hn', hf⟩ := ih hv hp.2 hr hn
      have hrange := wrap_of_fits ht (wrap_of_eval hv hn') hn'
      refine ⟨_, ?_, hf.write hapart (hvars o hs hp.1) hp.1 hrange⟩
      rw [eval, hn']
      rfl
  | step o increment after =>
    have hint : o.type.isInteger = true := hp
    cases hwt with
    | step hs =>
      have ho := hvars o hs hint
      rw [eval, isWord_of_isInteger hint] at h
      rw [eval, isWord_of_isInteger hint, hr o ho]
      cases h
      exact ⟨_, rfl, (Follows.refl hr).write hapart ho hint (CType.wrap_wrap _ _)⟩
  | convert e source target ih =>
    rw [Expr.isPlain, Bool.and_eq_true, Bool.and_eq_true] at hp
    rw [eval] at h
    obtain ⟨⟨n, st1⟩, hn, h1⟩ := bind_eq_ok h
    simp only [hp.1.2, hp.2] at h1
    cases h1
    cases hwt with
    | convert he =>
      obtain ⟨mem1, hn', hf⟩ := ih he hp.1.1 hr hn
      refine ⟨mem1, ?_, hf⟩
      rw [eval, hn', hp.1.2, hp.2]
      rfl
  | _ => cases hp

theorem holds_memory (hapart : Apart D base vars)
    (hvars : ∀ o, V.objects o → o.type.isInteger = true → vars o) {c : Option Expr}
    (hwt : ∀ t ∈ c, t.WellTyped V) (hp : c.all Expr.isPlain = true)
    (hr : Represents D base vars st mem) (h : Holds valuation c st st') :
    ∃ mem', Holds (memory D base) c mem mem' ∧ Follows D base vars mem st' mem' := by
  cases h with
  | absent => exact ⟨mem, .absent, .refl hr⟩
  | present h hv =>
    obtain ⟨mem', h', hf⟩ := eval_memory hapart hvars (hwt _ rfl) hp hr h
    exact ⟨mem', .present h' hv, hf⟩

theorem drops_memory (hapart : Apart D base vars)
    (hvars : ∀ o, V.objects o → o.type.isInteger = true → vars o) {t : Option Expr}
    (hwt : ∀ e ∈ t, e.WellTyped V) (hp : t.all Expr.isPlain = true)
    (hr : Represents D base vars st mem) (h : Drops valuation t st st') :
    ∃ mem', Drops (memory D base) t mem mem' ∧ Follows D base vars mem st' mem' := by
  cases h with
  | absent => exact ⟨mem, .absent, .refl hr⟩
  | present h =>
    obtain ⟨mem', h', hf⟩ := eval_memory hapart hvars (hwt _ rfl) hp hr h
    exact ⟨mem', .present h', hf⟩

/-- A plain statement ends in the same way over memory, and changes it as it changes the store. -/
theorem exec_memory (hapart : Apart D base vars)
    (hvars : ∀ o, V.objects o → o.type.isInteger = true → vars o) {result : CType} {s : Stmt}
    {x : Ending} (h : Exec valuation s st x st') (hwt : s.WellTyped V result)
    (hp : s.isPlain = true) (hr : Represents D base vars st mem) :
    ∃ mem', Exec (memory D base) s mem x mem' ∧ Follows D base vars mem st' mem' := by
  induction h generalizing mem with
  | nil => exact ⟨mem, .nil, .refl hr⟩
  | cons h hrest ih ihrest =>
    simp only [Stmt.isOver, allOver, Bool.and_eq_true] at hp
    cases hwt with
    | block hb =>
      obtain ⟨mem1, h1, hf1⟩ := ih (hb _ (by simp)) hp.1 hr
      obtain ⟨mem2, h2, hf2⟩ := ihrest (.block fun s hs => hb s (by simp [hs])) hp.2 hf1.represents
      exact ⟨mem2, .cons h1 h2, hf1.trans hf2⟩
  | consReturn h ih =>
    simp only [Stmt.isOver, allOver, Bool.and_eq_true] at hp
    cases hwt with
    | block hb =>
      obtain ⟨mem1, h1, hf1⟩ := ih (hb _ (by simp)) hp.1 hr
      exact ⟨mem1, .consReturn h1, hf1⟩
  | declare => exact ⟨mem, .declare, .refl hr⟩
  | declareInit h =>
    simp only [Stmt.isOver, Bool.and_eq_true] at hp
    cases hwt with
    | declare hs ht hsize hi =>
      cases hi _ rfl with
      | scalar ha he hfits =>
        obtain ⟨mem1, h1, hf⟩ := eval_memory hapart hvars he hp.2 hr h
        have hrange := wrap_of_fits hfits (wrap_of_eval he h1) h1
        exact ⟨_, .declareInit h1, hf.write hapart (hvars _ hs hp.1) hp.1 hrange⟩
  | expr h =>
    cases hwt with
    | expr he =>
      obtain ⟨mem1, h1, hf⟩ := eval_memory hapart hvars he hp hr h
      exact ⟨mem1, .expr h1, hf⟩
  | condTrue hc hv h ih =>
    simp only [Stmt.isOver, Bool.and_eq_true] at hp
    cases hwt with
    | cond hcwt ht hthen helse =>
      obtain ⟨mem1, h1, hf1⟩ := eval_memory hapart hvars hcwt hp.1.1 hr hc
      obtain ⟨mem2, h2, hf2⟩ := ih hthen hp.1.2 hf1.represents
      exact ⟨mem2, .condTrue h1 hv h2, hf1.trans hf2⟩
  | condFalse hc h ih =>
    simp only [Stmt.isOver, optionOver, Bool.and_eq_true] at hp
    cases hwt with
    | cond hcwt ht hthen helse =>
      obtain ⟨mem1, h1, hf1⟩ := eval_memory hapart hvars hcwt hp.1.1 hr hc
      obtain ⟨mem2, h2, hf2⟩ := ih (helse _ rfl) hp.2 hf1.represents
      exact ⟨mem2, .condFalse h1 h2, hf1.trans hf2⟩
  | condSkip hc =>
    simp only [Stmt.isOver, Bool.and_eq_true] at hp
    cases hwt with
    | cond hcwt ht hthen helse =>
      obtain ⟨mem1, h1, hf1⟩ := eval_memory hapart hvars hcwt hp.1.1 hr hc
      exact ⟨mem1, .condSkip h1, hf1⟩
  | whileStop hc =>
    simp only [Stmt.isOver, Bool.and_eq_true] at hp
    cases hwt with
    | whileLoop hcwt ht hb =>
      obtain ⟨mem1, h1, hf1⟩ := eval_memory hapart hvars hcwt hp.1 hr hc
      exact ⟨mem1, .whileStop h1, hf1⟩
  | whileStep hc hv h hrest ih ihrest =>
    have hloop := hp
    have hloopwt := hwt
    simp only [Stmt.isOver, Bool.and_eq_true] at hp
    cases hwt with
    | whileLoop hcwt ht hb =>
      obtain ⟨mem1, h1, hf1⟩ := eval_memory hapart hvars hcwt hp.1 hr hc
      obtain ⟨mem2, h2, hf2⟩ := ih hb hp.2 hf1.represents
      -- the rounds that are left are a shorter execution of the same loop
      obtain ⟨mem3, h3, hf3⟩ := ihrest hloopwt hloop hf2.represents
      exact ⟨mem3, .whileStep h1 hv h2 h3, (hf1.trans hf2).trans hf3⟩
  | whileReturn hc hv h ih =>
    simp only [Stmt.isOver, Bool.and_eq_true] at hp
    cases hwt with
    | whileLoop hcwt ht hb =>
      obtain ⟨mem1, h1, hf1⟩ := eval_memory hapart hvars hcwt hp.1 hr hc
      obtain ⟨mem2, h2, hf2⟩ := ih hb hp.2 hf1.represents
      exact ⟨mem2, .whileReturn h1 hv h2, hf1.trans hf2⟩
  | forInit h hrest ih ihrest =>
    simp only [Stmt.isOver, optionOver, Bool.and_eq_true] at hp
    cases hwt with
    | forLoop hi hcwt hu hb =>
      obtain ⟨mem1, h1, hf1⟩ := ih (hi _ rfl) hp.1.1.1 hr
      obtain ⟨mem2, h2, hf2⟩ := ihrest (.forLoop (by simp) hcwt hu hb)
        (by simp [Stmt.isOver, optionOver, hp]) hf1.represents
      exact ⟨mem2, .forInit h1 h2, hf1.trans hf2⟩
  | forInitReturn h ih =>
    simp only [Stmt.isOver, optionOver, Bool.and_eq_true] at hp
    cases hwt with
    | forLoop hi hcwt hu hb =>
      obtain ⟨mem1, h1, hf1⟩ := ih (hi _ rfl) hp.1.1.1 hr
      exact ⟨mem1, .forInitReturn h1, hf1⟩
  | forStop hc =>
    simp only [Stmt.isOver, Bool.and_eq_true] at hp
    cases hwt with
    | forLoop hi hcwt hu hb =>
      obtain ⟨mem1, h1, hf1⟩ := eval_memory hapart hvars (hcwt _ rfl).1 hp.1.1.2 hr hc
      exact ⟨mem1, .forStop h1, hf1⟩
  | forStep hc h hu hrest ih ihrest =>
    have hloop := hp
    have hloopwt := hwt
    simp only [Stmt.isOver, Bool.and_eq_true] at hp
    cases hwt with
    | forLoop hi hcwt huwt hb =>
      obtain ⟨mem1, h1, hf1⟩ := holds_memory hapart hvars (fun t ht => (hcwt t ht).1) hp.1.1.2 hr hc
      obtain ⟨mem2, h2, hf2⟩ := ih hb hp.2 hf1.represents
      obtain ⟨mem3, h3, hf3⟩ := drops_memory hapart hvars huwt hp.1.2 hf2.represents hu
      obtain ⟨mem4, h4, hf4⟩ := ihrest hloopwt hloop hf3.represents
      exact ⟨mem4, .forStep h1 h2 h3 h4, ((hf1.trans hf2).trans hf3).trans hf4⟩
  | forReturn hc h ih =>
    simp only [Stmt.isOver, Bool.and_eq_true] at hp
    cases hwt with
    | forLoop hi hcwt huwt hb =>
      obtain ⟨mem1, h1, hf1⟩ := holds_memory hapart hvars (fun t ht => (hcwt t ht).1) hp.1.1.2 hr hc
      obtain ⟨mem2, h2, hf2⟩ := ih hb hp.2 hf1.represents
      exact ⟨mem2, .forReturn h1 h2, hf1.trans hf2⟩
  | retValue h =>
    cases hwt with
    | retValue he ht =>
      obtain ⟨mem1, h1, hf⟩ := eval_memory hapart hvars he hp hr h
      exact ⟨mem1, .retValue h1, hf⟩
  | ret => exact ⟨mem, .ret, .refl hr⟩
  | empty => exact ⟨mem, .empty, .refl hr⟩

end Refinement

end Typed

end MiniC
