import MiniC.Proofs.Ast.Spelled
import MiniC.Typing.Stmt

/-!
# Constants in local and global initializers

The data of a global object is folded from the written expression, while the initializer of a local one is
checked like any other expression, and folds on the way. The two differ in a sign before a `char`, which makes
it an `int` in an expression (`Value.promote`) and leaves it alone in data; the conversion to the type of the
object makes up for it.

Main statement: for integer constants the two kinds of initializers give the same literals or are refused for
the same reason (`localInit_agrees`).
-/

set_option autoImplicit false

namespace MiniC

/-! ### Signs and conversions of constants -/

namespace Value

variable {v : Value} {s target : Scalar}

/-- An operand of a sign: a `char` becomes an `int`. -/
def promote : Value → Value
  | char c => int (Int32.ofNat c.toNat)
  | v => v

@[simp] theorem integer?_promote (v : Value) : v.promote.integer? = v.integer? := by
  cases v with
  | char c =>
    have hc := c.toNat_lt
    have hint : (Int32.ofNat c.toNat).toInt64 = Int64.ofNat c.toNat := by
      rw [← Int64.toInt_inj, Int32.toInt_toInt64, Int32.toInt_ofNat_of_lt (by omega),
        Int64.toInt_ofNat_of_lt (by omega)]
    simp [promote, integer?, hint]
  | _ => rfl

theorem convert?_of_integer {n : Int64} (h : v.integer? = some n) (target : Scalar) :
    v.convert? target = some (ofInteger n target) := by
  cases v <;> cases h <;> rfl

theorem convert?_promote (v : Value) (target : Scalar) : v.promote.convert? target = v.convert? target := by
  cases v with
  | char c => rw [convert?_of_integer (integer?_promote _), convert?_of_integer rfl]
  | _ => rfl

@[simp] theorem negate?_promote (v : Value) : v.promote.negate? = v.negate? := by
  cases v <;> rfl

@[simp] theorem promote_promote (v : Value) : v.promote.promote = v.promote := by
  cases v <;> rfl

theorem convert?_self (hv : v.type = .scalar s) (hs : s.isInteger = true) : v.convert? s = some v := by
  cases v with
  | char c =>
    cases hv
    have hc := c.toNat_lt
    rw [convert?_of_integer rfl, ofInteger, Int64.toInt_ofNat_of_lt (by omega)]
    have hmod : ((c.toNat : Int) % 2 ^ 8).toNat = c.toNat := by omega
    rw [UInt8.ofInt, hmod, UInt8.ofNat_toNat]
  | float x => cases hv; cases hs
  | str text => cases hv
  | _ => cases hv; simp [convert?, integer?, ofInteger]

theorem type_of_integer (h : v.integer?.isSome = true) : ∃ s : Scalar, v.type = .scalar s ∧ s.isInteger = true := by
  cases v <;> first | exact ⟨_, rfl, rfl⟩ | cases h

theorem integer_ofInteger (n : Int64) (hs : s.isInteger = true) : (ofInteger n s).integer?.isSome = true := by
  cases s <;> first | rfl | cases hs

end Value

namespace Ast

/-- A type name that stands for an integer type. -/
def TypeName.integer? (t : TypeName) : Option Scalar :=
  match t.resolve? with
  | some (.scalar s) => if s.isInteger then some s else none
  | _ => none

theorem TypeName.resolve_of_integer {t : TypeName} {s : Scalar} (h : t.integer? = some s) :
    t.resolve? = some (.scalar s) ∧ s.isInteger = true := by
  unfold TypeName.integer? at h
  split at h
  · split at h <;> cases h
    exact ⟨by assumption, by assumption⟩
  · cases h

/-- Integer constants: literals under signs and casts to integer types. -/
def Expr.isConstant : Expr → Bool
  | literal v _ => v.integer?.isSome
  | unary .plus e _ => e.isConstant
  | unary .minus e _ => e.isConstant
  | cast t e _ => t.integer?.isSome && e.isConstant
  | _ => false

/-- Initializers of integer objects that are made of integer constants: one constant or a list for a number,
lists nested in any way for an array, and a string for an array of characters. -/
def Initializer.isConstantFor (init : Initializer) : CType → Bool
  | .scalar s => s.isInteger && match init with
    | .expr e => e.isConstant
    | .list _ _ => true
  | .array s _ => s.isInteger && match init with
    | .list _ _ => init.leaves.all Expr.isConstant
    | .expr (.literal (.str _) _) => s = .char
    | .expr _ => false
  | _ => false

end Ast

/-- Data as the initializer of a local object. -/
def Constant.asLocal : Constant → Typed.LocalInit
  | value v => .scalar (.literal v)
  | list items => .elements ((flattenAll items).map .literal)

@[simp] theorem Constant.flattenAll_value (values : List Value) : flattenAll (values.map value) = values := by
  induction values with
  | nil => rfl
  | cons v vs ih => simp [flattenAll, flatten, ih]

namespace Typing

open Typed (LocalInit)

variable {env : Env} {v w : Value}

/-! ### Checking constants -/

/-- A literal that is converted to an integer type stays one. -/
theorem convert_literal {source target : Scalar} (hv : v.type = .scalar source) (hs : source.isInteger = true)
    (ht : target.isInteger = true) (h : v.convert? target = some w) :
    convert (.literal v) source target = .literal w := by
  unfold convert
  split
  · rename_i heq
    subst heq
    rw [Value.convert?_self hv hs] at h
    cases h
    rfl
  · simp [ht, h]

theorem valueType_literal {s : Scalar} (hv : v.type = .scalar s) : (Typed.Expr.literal v).valueType = .scalar s := by
  simp [Typed.Expr.valueType, Typed.Expr.type, hv, CType.decay]

theorem nonVoid_literal (span : Span) (v : Value) : nonVoid span (.literal v) = .ok (.literal v) := by
  cases v <;> rfl

/-- The sign `+` makes an `int` of a `char`, and `-` gives the negated number. -/
theorem arithmeticUnary_literal (hv : v.integer?.isSome = true) (span : Span) :
    arithmeticUnary .plus (.literal v) span = .ok (.literal v.promote) ∧
      ∃ w, v.negate? = some w ∧ arithmeticUnary .minus (.literal v) span = .ok (.literal w) := by
  cases v with
  | char c =>
    have hwide : convert (.literal (.char c)) .char .int = .literal (Value.promote (.char c)) :=
      convert_literal rfl rfl rfl (by simp [Value.convert?, Value.integer?, Value.ofInteger, Value.promote])
    refine ⟨congrArg Except.ok hwide, .int (-Int32.ofNat c.toNat), rfl, ?_⟩
    have hpromoted : Scalar.char.common .int = .int := rfl
    simp only [arithmeticUnary, valueType_literal (v := .char c) rfl, hpromoted, hwide]
    rfl
  | float x => cases hv
  | str text => cases hv
  | _ => exact ⟨rfl, _, rfl, rfl⟩

theorem expr_sign {e : Ast.Expr} (h : expr env e = .ok (.literal v)) (span : Span) :
    expr env (.unary .plus e span) = arithmeticUnary .plus (.literal v) span ∧
      expr env (.unary .minus e span) = arithmeticUnary .minus (.literal v) span := by
  constructor <;> simp only [expr, h, nonVoid_literal, bind, Except.bind]

theorem expr_cast {e : Ast.Expr} (h : expr env e = .ok (.literal v)) {t : Ast.TypeName} {source target : Scalar}
    (ht : t.resolve? = some (.scalar target)) (hv : v.type = .scalar source) (span : Span) :
    expr env (.cast t e span) = .ok (convert (.literal v) source target) := by
  have hresolve : t.resolve span = .ok (.scalar target) := by rw [Ast.TypeName.resolve, ht]
  simp only [expr, h, nonVoid_literal, hresolve, bind, Except.bind, valueType_literal hv]
  rfl

/-- An integer constant is checked to the literal that it folds to, up to the type of a signed `char`. -/
theorem folded (env : Env) {e : Ast.Expr} (h : e.isConstant = true) :
    ∃ v w, e.fold? = some v ∧ v.integer?.isSome = true ∧ expr env e = .ok (.literal w) ∧
      (w = v ∨ w = v.promote) := by
  induction e using Ast.Expr.induct with
  | literal v span => exact ⟨v, v, rfl, h, by rw [expr], .inl rfl⟩
  | unary op e span ih =>
    cases op <;> first | cases h | skip
    all_goals
      obtain ⟨v, w, hv, hi, hw, hsame⟩ := ih h
      have hwi : w.integer?.isSome = true := by rcases hsame with rfl | rfl <;> simpa using hi
      obtain ⟨hplus, n, hn, hminus⟩ := arithmeticUnary_literal hwi span
    case plus =>
      refine ⟨v, w.promote, hv, hi, (expr_sign hw span).1.trans hplus, .inr ?_⟩
      rcases hsame with rfl | rfl <;> simp
    case minus =>
      have hneg : v.negate? = some n := by rcases hsame with rfl | rfl <;> simpa using hn
      refine ⟨n, n, by rw [Ast.Expr.fold?, hv]; exact hneg, ?_, (expr_sign hw span).2.trans hminus, .inl rfl⟩
      cases v <;> cases hneg <;> first | rfl | cases hi
  | cast type e span ih =>
    obtain ⟨htype, he⟩ := Bool.and_eq_true_iff.mp h
    obtain ⟨target, htarget⟩ := Option.isSome_iff_exists.mp htype
    obtain ⟨hresolve, hint⟩ := Ast.TypeName.resolve_of_integer htarget
    obtain ⟨v, w, hv, hi, hw, hsame⟩ := ih he
    obtain ⟨n, hn⟩ := Option.isSome_iff_exists.mp hi
    have hwn : w.integer? = some n := by rcases hsame with rfl | rfl <;> simpa using hn
    obtain ⟨source, hws, hsource⟩ := Value.type_of_integer (Option.isSome_iff_exists.mpr ⟨n, hwn⟩)
    refine ⟨.ofInteger n target, .ofInteger n target, ?_, Value.integer_ofInteger n hint, ?_, .inl rfl⟩
    · simp only [Ast.Expr.fold?, hresolve, hv, Option.bind_some, Value.convert?_of_integer hn]
    · rw [expr_cast hw hresolve hws, convert_literal hws hsource hint (Value.convert?_of_integer hwn _)]
  | _ => cases h

/-! ### Initializers -/

/-- An integer constant is given the same value in data and in code. -/
theorem constantOf_agrees (env : Env) (name : String) {e : Ast.Expr} (h : e.isConstant = true) {s : Scalar}
    (hs : s.isInteger = true) :
    ∃ v w, constantOf name (.scalar s) e = .ok v ∧ value env e = .ok (.literal w) ∧
      coerce (.literal w) (.scalar s) e.span = .ok (.literal v) := by
  obtain ⟨v, w, hv, hi, hw, hsame⟩ := folded env h
  obtain ⟨n, hn⟩ := Option.isSome_iff_exists.mp hi
  have hwn : w.integer? = some n := by rcases hsame with rfl | rfl <;> simpa using hn
  obtain ⟨source, hws, hsource⟩ := Value.type_of_integer (Option.isSome_iff_exists.mpr ⟨n, hwn⟩)
  have hvs := Value.convert?_of_integer hn s
  refine ⟨.ofInteger n s, w, by simp [constantOf, hv, hvs], ?_, ?_⟩
  · simp only [value, hw, nonVoid_literal, bind, Except.bind]
  · have hconvert := convert_literal hws hsource hs (Value.convert?_of_integer hwn s)
    simp only [coerce, valueType_literal hws]
    split
    · rename_i heq
      cases heq
      rw [convert, if_pos rfl] at hconvert
      rw [hconvert]
    · simp only [hconvert]

theorem mapM_agrees (env : Env) (name : String) {es : List Ast.Expr} (h : ∀ e ∈ es, e.isConstant = true)
    {s : Scalar} (hs : s.isInteger = true) :
    ∃ vs, es.mapM (constantOf name (.scalar s)) = .ok vs ∧
      es.mapM (fun e => value env e >>= fun t => coerce t (.scalar s) e.span) = .ok (vs.map .literal) := by
  induction es with
  | nil => exact ⟨[], rfl, rfl⟩
  | cons e es ih =>
    obtain ⟨v, w, hdata, hvalue, hcode⟩ := constantOf_agrees env name (h e List.mem_cons_self) hs
    obtain ⟨vs, hdatas, hcodes⟩ := ih fun e' he' => h e' (List.mem_cons_of_mem _ he')
    refine ⟨v :: vs, ?_, ?_⟩
    · rw [List.mapM_cons, hdata, hdatas]
      rfl
    · rw [List.mapM_cons, hcodes]
      simp only [hvalue, hcode, bind, Except.bind]
      rfl

/-- The elements of an array are the same literals in data and in code, or there are too many of them. -/
theorem arrayElements_agrees (env : Env) (name : String) {s : Scalar} {length : Nat} {init : Ast.Initializer}
    (h : init.isConstantFor (.array s length) = true) :
    ∃ values, arrayConstants name s length init = withinLength name length init.span values ∧
      arrayElements env name s length init = withinLength name length init.span (values.map .literal) := by
  obtain ⟨hs, hinit⟩ := Bool.and_eq_true_iff.mp h
  cases init with
  | list items span =>
    have hleaves := List.all_eq_true.mp hinit
    obtain ⟨vs, hdata, hcode⟩ := mapM_agrees env name hleaves hs
    refine ⟨vs, ?_, ?_⟩
    · cases s <;> simp only [arrayConstants, hdata, bind, Except.bind]
    · simp only [bind, Except.bind] at hcode
      cases s <;> simp only [arrayElements, hcode, bind, Except.bind]
  | expr e =>
    cases e with
    | literal v span =>
      cases v with
      | str text =>
        obtain rfl : s = .char := of_decide_eq_true hinit
        exact ⟨arrayChars text length, rfl, rfl⟩
      | _ => cases hinit
    | _ => cases hinit

/-- Integer constants initialize a local object with the literals that a global one has as data, or both are
refused alike: for more constants than the array has elements, or for a list where there is no array. -/
theorem localInit_agrees (env : Env) (name : String) {type : CType} {init : Ast.Initializer}
    (h : init.isConstantFor type = true) :
    localInit env name type init = (globalInit name type init).map Constant.asLocal ∧
      ∀ x, globalInit name type init = .error x →
        (∃ element length found, type = .array element length ∧ length < found ∧
          x = ⟨.tooManyInitializers name length found, init.span⟩) ∨
        (type.isArray = false ∧ (∃ items span, init = .list items span) ∧
          x = ⟨.unsupported (.listForNonArray name), init.span⟩) := by
  cases type with
  | scalar s =>
    obtain ⟨hs, hinit⟩ := Bool.and_eq_true_iff.mp h
    cases init with
    | expr e =>
      obtain ⟨v, w, hdata, hvalue, hcode⟩ := constantOf_agrees env name hinit hs
      simp only [localInit, globalInit, hdata, hvalue, hcode, bind, Except.bind]
      exact ⟨rfl, fun x hx => by cases hx⟩
    | list items span => exact ⟨rfl, fun x hx => by cases hx; exact .inr ⟨rfl, ⟨items, span, rfl⟩, rfl⟩⟩
  | array s length =>
    obtain ⟨values, hdata, hcode⟩ := arrayElements_agrees env name h
    by_cases hmany : length < values.length
    · simp only [localInit, globalInit, hdata, hcode, withinLength, List.length_map, if_pos hmany]
      exact ⟨rfl, fun x hx => by cases hx; exact .inl ⟨s, length, values.length, rfl, hmany, rfl⟩⟩
    · simp only [localInit, globalInit, hdata, hcode, withinLength, List.length_map, if_neg hmany]
      refine ⟨?_, fun x hx => by cases hx⟩
      simp [Except.map, Constant.asLocal, bind, Except.bind, pure, Except.pure]
  | _ => cases h

/-- `{{-1}, {(char)300, +'a'}}`. -/
def nestedConstants : Ast.Initializer :=
  let at_ := Span.unknown
  .list [.list [.expr (.unary .minus (.literal (.int 1) at_) at_)] at_,
    .list [.expr (.cast ⟨.char, 0, none⟩ (.literal (.int 300) at_) at_),
      .expr (.unary .plus (.literal (.char 97) at_) at_)] at_] at_

/-- The list fills an array of three characters, and is too long for one of two. -/
theorem localInit_nestedConstants :
    let env : Env := ⟨{}, []⟩
    localInit env "s" (.array .char 3) nestedConstants =
        .ok (.elements [.literal (.char 255), .literal (.char 44), .literal (.char 97)]) ∧
      localInit env "s" (.array .char 2) nestedConstants =
        .error ⟨.tooManyInitializers "s" 2 3, .unknown⟩ := by
  have hfits : nestedConstants.isConstantFor (.array .char 3) = true := rfl
  have hmany : nestedConstants.isConstantFor (.array .char 2) = true := rfl
  exact ⟨(localInit_agrees _ _ hfits).1, (localInit_agrees _ _ hmany).1⟩

end Typing

end MiniC
