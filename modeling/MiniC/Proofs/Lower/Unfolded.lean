import MiniC.Proofs.Lower.ExprValue
import MiniC.Proofs.Typing.Folding

/-!
# Folded constants and the code they replace

Checking folds signs and casts of integer constants into one literal. `Ast.Expr.unfolded` is the tree without
this, with a node for each sign and each conversion. The literal has the number that the tree evaluates to, so
the code of the tree computes in its register what the code of the literal loads.
-/

set_option autoImplicit false

namespace MiniC

namespace Typed

/-- A conversion that is kept as a node. -/
def Expr.converted (t : Expr) (target : Scalar) : Expr :=
  match t.type with
  | .scalar source => if source = target then t else .convert t source target
  | _ => t

/-- The operand of a sign, kept as a node: a `char` is converted to `int`. -/
def Expr.widened (t : Expr) : Expr := if t.type = .char then t.converted .int else t

end Typed

/-- The typed tree of an integer constant with all signs and casts as nodes. -/
def Ast.Expr.unfolded : Ast.Expr → Typed.Expr
  | literal v _ => .literal v
  | unary .minus e _ => .unary .minus e.unfolded.widened e.unfolded.widened.type
  | unary _ e _ => e.unfolded.widened
  | cast t e _ =>
    match t.integer? with
    | some s => e.unfolded.converted s
    | none => e.unfolded
  | _ => .literal default

namespace Lower

open Emit
open MiniC.Emitter (added)
open MiniC.X86 (Machine Layout)
open Typed (Vocabulary eval number)

/-! ### The number of a literal -/

/-- A tree that always evaluates to a literal, and is of its type. -/
structure Denotes (t : Typed.Expr) (v : Value) : Prop where
  integer : v.integer?.isSome = true
  type : t.type = v.type
  wellTyped : ∀ V, t.WellTyped V
  integral : t.isIntegral = true
  value : ∀ {σ : Type} (S : Typed.Storage σ) (st : σ) (n : Int), number v = .ok n → eval S t st = .ok (n, st)

theorem number_eq {v : Value} {n : Int64} (h : v.integer? = some n) : number v = .ok n.toInt := by
  cases v with
  | char c =>
    cases h
    have hc := c.toNat_lt
    rw [Int64.toInt_ofNat_of_lt (by omega)]
    rfl
  | int i => cases h; rw [Int32.toInt_toInt64]; rfl
  | long i => cases h; rfl
  | float x => cases h
  | str text => cases h

/-- A converted constant is its number cut to the range of the type. -/
theorem number_ofInteger (n : Int64) {s : Scalar} (hs : s.isInteger = true) :
    number (.ofInteger n s) = .ok (s.wrap n.toInt) := by
  cases s with
  | char =>
    show Except.ok (((UInt8.ofInt n.toInt).toNat : Int)) = _
    rw [UInt8.ofInt, UInt8.toNat_ofNat', Scalar.wrap]
    congr 1
    omega
  | int =>
    show Except.ok (n.toInt32.toInt) = _
    rw [Int64.toInt_toInt32, Scalar.wrap]
  | long =>
    show Except.ok n.toInt = _
    rw [Scalar.wrap_long_of_bounds (Int64.le_toInt n) (Int64.toInt_lt n)]
  | float => cases hs

/-- The negated constant is the negated number cut to the range of its type. -/
theorem number_negate {v w : Value} {n : Int} (hn : number v = .ok n) (hc : v.type ≠ .char)
    (h : v.negate? = some w) : number w = .ok (v.type.wrap (-n)) ∧ w.type = v.type := by
  cases v with
  | int i => cases h; cases hn; exact ⟨congrArg Except.ok (Int32.toInt_neg i), rfl⟩
  | long i => cases h; cases hn; exact ⟨congrArg Except.ok (Int64.toInt_neg i), rfl⟩
  | char c => exact absurd rfl hc
  | _ => cases hn

namespace Denotes

variable {t : Typed.Expr} {v w : Value}

theorem literal (h : v.integer?.isSome = true) : Denotes (.literal v) v where
  integer := h
  type := rfl
  wellTyped _ := .literal (by cases v <;> trivial)
  integral := h
  value S st n hn := by rw [eval, hn]; rfl

theorem number (h : Denotes t v) : ∃ n, v.integer? = some n ∧ Typed.number v = .ok n.toInt := by
  obtain ⟨n, hn⟩ := Option.isSome_iff_exists.mp h.integer
  exact ⟨n, hn, number_eq hn⟩

theorem converted (h : Denotes t v) {target : Scalar} (ht : target.isInteger = true)
    (hw : v.convert? target = some w) : Denotes (t.converted target) w := by
  obtain ⟨source, hv, hs⟩ := Value.type_of_integer h.integer
  unfold Typed.Expr.converted
  rw [h.type, hv]
  dsimp only
  split
  · rename_i heq
    subst heq
    rw [Value.convert?_self hv hs] at hw
    cases hw
    exact h
  · rename_i hne
    obtain ⟨n, hn, hnumber⟩ := h.number
    rw [Value.convert?_of_integer hn] at hw
    cases hw
    refine ⟨Value.integer_ofInteger n ht, ?_, fun V => .convert (h.wellTyped V) (h.type.trans hv) hne, ?_, ?_⟩
    · cases target <;> rfl
    · simp [Typed.Expr.isIntegral, h.integral, hs, ht]
    · intro σ S st m hm
      rw [number_ofInteger n ht] at hm
      cases hm
      rw [eval, h.value S st _ hnumber]
      simp [bind, Except.bind, hs, ht, pure, Except.pure]

theorem widened (h : Denotes t v) : Denotes t.widened v.promote := by
  unfold Typed.Expr.widened
  split
  · rename_i hchar
    refine h.converted rfl ?_
    rw [← Value.convert?_promote]
    refine Value.convert?_self ?_ rfl
    rw [h.type] at hchar
    cases v <;> cases hchar
    rfl
  · rename_i hne
    rw [h.type] at hne
    cases v <;> first | exact h | exact absurd rfl hne

theorem negated (h : Denotes t v) (hc : v.type ≠ .char) (hw : v.negate? = some w) :
    Denotes (.unary .minus t t.type) w := by
  obtain ⟨s, hv, hs⟩ := Value.type_of_integer h.integer
  obtain ⟨n, -, hnumber⟩ := h.number
  obtain ⟨hwnumber, hwtype⟩ := number_negate hnumber hc hw
  rw [h.type]
  refine ⟨?_, hwtype.symm, fun V => ?_, h.integral, fun S st m hm => ?_⟩
  · cases v <;> cases hw <;> first | rfl | cases h.integer
  · rw [hv]
    refine .negate (h.wellTyped V) ?_ ?_
    · rw [Typed.Expr.valueType, h.type, hv]
      rfl
    · intro hchar
      exact hc (hv.trans (congrArg _ hchar))
  · rw [hwnumber] at hm
    cases hm
    rw [eval, h.value S st _ hnumber]
    rfl

end Denotes

/-- An integer constant is folded to the literal that its tree evaluates to. -/
theorem denotes_unfolded {e : Ast.Expr} (h : e.isConstant = true) :
    ∃ v, (∀ env, Typing.expr env e = .ok (.literal v)) ∧ Denotes e.unfolded v := by
  induction e using Ast.Expr.induct with
  | literal v span => exact ⟨v, fun env => by rw [Typing.expr], .literal h⟩
  | unary op e span ih =>
    cases op <;> first | cases h | skip
    all_goals
      obtain ⟨v, hv, hd⟩ := ih h
      obtain ⟨hplus, w, hw, hminus⟩ := Typing.arithmeticUnary_literal hd.integer span
    case plus => exact ⟨v.promote, fun env => (Typing.expr_sign (hv env) span).1.trans hplus, hd.widened⟩
    case minus =>
      refine ⟨w, fun env => (Typing.expr_sign (hv env) span).2.trans hminus, hd.widened.negated ?_ (by simpa using hw)⟩
      cases v <;> simp [Value.promote, Value.type]
  | cast type e span ih =>
    obtain ⟨htype, he⟩ := Bool.and_eq_true_iff.mp h
    obtain ⟨target, htarget⟩ := Option.isSome_iff_exists.mp htype
    obtain ⟨hresolve, hint⟩ := Ast.TypeName.resolve_of_integer htarget
    obtain ⟨v, hv, hd⟩ := ih he
    obtain ⟨source, hvs, hs⟩ := Value.type_of_integer hd.integer
    obtain ⟨n, hn, -⟩ := hd.number
    have hconvert := Value.convert?_of_integer hn target
    refine ⟨.ofInteger n target, fun env => ?_, ?_⟩
    · rw [Typing.expr_cast (hv env) hresolve hvs, Typing.convert_literal hvs hs hint hconvert]
    · rw [Ast.Expr.unfolded, htarget]
      exact hd.converted hint hconvert
  | _ => cases h

/-! ### The code -/

/-- What was appended between two states of the emitter leaves a word in a register, wherever it stands in a
program that has not used its labels before. -/
def Leaves (e e' : Emitter) (r : Reg) (w : BitVec 64) : Prop :=
  e'.text.toList = e.text.toList ++ added e e' ∧ ∀ (D : Layout) (m : Machine) before after,
    X86.Older e.labels before → ∃ m', X86.Reaches D (before ++ added e e' ++ after) (before.length, m)
      (before.length + (added e e').length, m') ∧ m'.regs r.gpr = w

theorem Denotes.leaves {t : Typed.Expr} {v : Value} (h : Denotes t v) {n : Int} (hn : Typed.number v = .ok n)
    {s : Setting} {e e' : Emitter} {r : Reg} (hexec : exec (expr t) s e = (.ok r, e')) :
    r.view = v.type.word ∧ Leaves e e' r (BitVec.ofInt 64 n) := by
  have V : Vocabulary := ⟨[], fun _ => False, fun _ => False, fun _ => False⟩
  have hheld := held_of_exec (h.wellTyped V) h.integral hexec
  refine ⟨hheld.view.trans (congrArg CType.word h.type), hheld.holding.grows.text, fun D m before after hold => ?_⟩
  obtain ⟨x, m', ⟨rfl, hd⟩, hreaches⟩ :=
    compiled V D t (h.wellTyped V) h.integral hexec (h.value _ m.mem n hn) before after hold
  exact ⟨m', hreaches, hd.value⟩

/-- The code of a folded integer constant and the code of its tree with all signs and casts, generated from one
state, leave the same word in registers of one type. -/
theorem folded_code_agrees {c : Ast.Expr} (h : c.isConstant = true) :
    ∃ v, (∀ env, Typing.expr env c = .ok (.literal v)) ∧
      ∀ {s : Setting} {e e1 e2 : Emitter} {r1 r2 : Reg}, exec (expr (.literal v)) s e = (.ok r1, e1) →
        exec (expr c.unfolded) s e = (.ok r2, e2) →
        r1.view = r2.view ∧ ∃ w, Leaves e e1 r1 w ∧ Leaves e e2 r2 w := by
  obtain ⟨v, hv, hd⟩ := denotes_unfolded h
  obtain ⟨n, -, hn⟩ := hd.number
  refine ⟨v, hv, fun h1 h2 => ?_⟩
  obtain ⟨hview1, hleaves1⟩ := (Denotes.literal hd.integer).leaves hn h1
  obtain ⟨hview2, hleaves2⟩ := hd.leaves hn h2
  exact ⟨hview1.trans hview2.symm, _, hleaves1, hleaves2⟩

/-- `-(char)300`, a character that is cut and then negated. -/
def cutThenNegated : Ast.Expr :=
  .unary .minus (.cast ⟨.char, 0, none⟩ (.literal (.int 300) .unknown) .unknown) .unknown

/-- It is folded to `-44`, which both codes leave in the first register. -/
theorem cutThenNegated_agrees :
    ∃ e1 e2 w, exec (expr (.literal (.int (-44)))) ⟨{}, false⟩ {} = (.ok ⟨.int, 0⟩, e1) ∧
      exec (expr cutThenNegated.unfolded) ⟨{}, false⟩ {} = (.ok ⟨.int, 0⟩, e2) ∧
      Leaves {} e1 ⟨.int, 0⟩ w ∧ Leaves {} e2 ⟨.int, 0⟩ w := by
  obtain ⟨v, hv, hcode⟩ := folded_code_agrees (c := cutThenNegated) rfl
  have hfolded : Typing.expr ⟨{}, []⟩ cutThenNegated = .ok (.literal (.int (-44))) := by cbv
  obtain rfl : v = .int (-44) := by simpa [hfolded] using (hv ⟨{}, []⟩).symm
  obtain ⟨e1, h1⟩ := exec_eq_ok (m := expr (.literal (.int (-44)))) (s := ⟨{}, false⟩) (e := {}) (a := ⟨.int, 0⟩) (by cbv)
  obtain ⟨e2, h2⟩ := exec_eq_ok (m := expr cutThenNegated.unfolded) (s := ⟨{}, false⟩) (e := {}) (a := ⟨.int, 0⟩) (by cbv)
  obtain ⟨-, w, hw1, hw2⟩ := hcode h1 h2
  exact ⟨e1, e2, w, h1, h2, hw1, hw2⟩

end Lower

end MiniC
