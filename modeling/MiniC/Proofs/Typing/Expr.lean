import MiniC.Proofs.Ast.Spelled
import MiniC.Proofs.Range
import MiniC.Proofs.Typed.WellTyped
import MiniC.Typing.Expr

/-!
# Checked expressions are well typed

Whatever checking gives for an expression obeys the typing rules (`sound`): each conversion
that the rules ask for has been put in, on every path through decay, promotion, null pointers and
compound assignment. The proof is an induction over the expression that speaks at once of its value,
of the place it may denote and of the address of that place.
-/

set_option autoImplicit false

namespace MiniC.Typing

open Typed (Vocabulary Place null)

/-! ### Results of checking -/

/-- What is given has a property. -/
def Gives {α : Type} (x : Except Error α) (P : α → Prop) : Prop := ∀ a, x = .ok a → P a

section Gives

variable {α β : Type} {x : Except Error α} {P P' : α → Prop} {Q : β → Prop}

theorem gives_ok {a : α} (h : P a) : Gives (.ok a) P := fun a' ha' => by cases ha'; exact h

theorem gives_pure {a : α} (h : P a) : Gives (pure a) P := gives_ok h

theorem gives_refuse (fault : Fault) (span : Span) : Gives (refuse fault span) P :=
  fun a ha => by cases ha

theorem Gives.bind {f : α → Except Error β} (h : Gives x P) (hf : ∀ a, P a → Gives (f a) Q) :
    Gives (x >>= f) Q := by
  intro b hb
  cases hx : x with
  | error e => rw [hx] at hb; cases hb
  | ok a => rw [hx] at hb; exact hf a (h a hx) b hb

theorem Gives.mono (h : Gives x P) (himp : ∀ a, P a → P' a) : Gives x P' :=
  fun a ha => himp a (h a ha)

theorem Gives.map {f : α → β} (h : Gives x P) (hf : ∀ a, P a → Q (f a)) : Gives (x.map f) Q := by
  cases x with
  | error e => exact nofun
  | ok a => exact gives_ok (hf a (h a rfl))

end Gives

/-- Names mean objects of the vocabulary, and functions take values. -/
structure Env.Within (V : Vocabulary) (env : Env) : Prop where
  functions : env.functions = V.functions
  objects : ∀ name s, env.scopes.lookup? name = some s → V.objects s ∧ s.type.isVoid = false
  parameters : ∀ name signature, V.functions.find? name = some signature →
    ∀ t ∈ signature.parameters, t.isVoid = false

section Rules

variable {V : Vocabulary} {e l r : Typed.Expr}

/-! ### Conversions -/

theorem type_of_valueType {s : Scalar} (h : e.valueType = .scalar s) : e.type = .scalar s := by
  unfold Typed.Expr.valueType at h
  cases ht : e.type <;> simp_all [CType.decay]

theorem constant_of_convert? {v w : Value} {target : Scalar} (ht : target.isInteger = true)
    (h : v.convert? target = some w) : V.Constant w := by
  cases v with
  | str s => cases h
  | _ =>
    cases h
    cases target <;> first | exact trivial | cases ht

/-- A converted value has the type it is converted to, whether it is folded, converted or handed on. -/
theorem type_convert {source : Scalar} (h : e.valueType = .scalar source) (target : Scalar) :
    (convert e source target).type = .scalar target := by
  unfold convert
  split
  · rename_i heq
    exact heq ▸ type_of_valueType h
  · split
    · split
      · rename_i w _ hw
        exact Value.type_convert? hw
      · rfl
    · rfl

theorem convert_wellTyped (he : e.WellTyped V) {source : Scalar} (ht : e.valueType = .scalar source)
    (target : Scalar) :
    (convert e source target).WellTyped V ∧ (convert e source target).type = .scalar target := by
  refine ⟨?_, type_convert ht target⟩
  unfold convert
  split
  · exact he
  · rename_i hne
    split
    · split
      · rename_i w hint hw
        exact .literal (constant_of_convert? hint hw)
      · exact .convert he (type_of_valueType ht) hne
    · exact .convert he (type_of_valueType ht) hne

theorem valueType_of_type {s : Scalar} (h : e.type = .scalar s) : e.valueType = .scalar s := by
  simp [Typed.Expr.valueType, h, CType.decay]

theorem coerce_gives (he : e.WellTyped V) {target : CType} (ht : target.isVoid = false)
    (span : Span) : Gives (coerce e target span) fun v => v.WellTyped V ∧ v.Fits target := by
  unfold coerce
  split
  · rename_i heq
    exact gives_ok ⟨he, .inl ⟨heq, ht⟩⟩
  · dsimp only
    split
    · rename_i source target' hs _
      obtain ⟨hwt, htype⟩ := convert_wellTyped he hs target'
      exact gives_ok ⟨hwt, .inl ⟨valueType_of_type htype, rfl⟩⟩
    · split
      · exact gives_ok ⟨.literal trivial, .inr ⟨rfl, rfl⟩⟩
      · exact gives_refuse _ _
    · exact gives_refuse _ _

theorem nonVoid_gives {P : Typed.Expr → Prop} (h : P e) (span : Span) :
    Gives (nonVoid span e) fun v => P v ∧ v.type.isVoid = false := by
  unfold nonVoid
  split
  · exact gives_refuse _ _
  · rename_i hv
    exact gives_ok ⟨h, by simpa using hv⟩

/-! ### Operations -/

theorem isSome_relation? {op : BinaryOp} (h : op.isRelational = true) :
    op.relation?.isSome = true := by
  cases op <;> simp_all [BinaryOp.isRelational, BinaryOp.relation?]

theorem isSome_arith? {op : BinaryOp} (hl : op.isLogical = false) (hr : op.isRelational = false) :
    op.arith?.isSome = true := by
  cases op <;> simp_all [BinaryOp.isRelational, BinaryOp.isLogical, BinaryOp.arith?]

theorem common_ne_char (a b : Scalar) : a.common b ≠ .char := by
  cases a <;> cases b <;> decide

theorem pointerOffset_wellTyped {p c : Typed.Expr} {s element : Scalar} (hp : p.WellTyped V)
    (hc : c.WellTyped V) (hpt : p.valueType = .pointer element) (hct : c.valueType = .scalar s)
    (subtract : Bool) : (pointerOffset p c s element subtract).WellTyped V := by
  obtain ⟨hwt, htype⟩ := convert_wellTyped hc hct .long
  exact .offset hp hwt hpt htype

theorem scalarBinary_gives {op : BinaryOp} {a b : Scalar} (hl : l.WellTyped V)
    (hr : r.WellTyped V) (hlt : l.valueType = .scalar a) (hrt : r.valueType = .scalar b)
    (hop : op.isLogical = false) (span : Span) :
    Gives (scalarBinary op l r a b span) (Typed.Expr.WellTyped V) := by
  obtain ⟨hl', hlt'⟩ := convert_wellTyped hl hlt (a.common b)
  obtain ⟨hr', hrt'⟩ := convert_wellTyped hr hrt (a.common b)
  have hlv := valueType_of_type hlt'
  have hrv := valueType_of_type hrt'
  unfold scalarBinary
  dsimp only
  split
  · exact gives_refuse _ _
  · rename_i hint
    refine gives_ok ?_
    split
    · rename_i hrel
      exact .compare (isSome_relation? hrel) hl' hr' (.scalars hlv hrv)
    · rename_i hrel
      refine .arithmetic (isSome_arith? hop (by simpa using hrel)) hl' hr' hlv hrv
        (common_ne_char a b) fun hfloat => ?_
      simpa [hfloat] using hint

theorem pointerDistance_wellTyped {element : Scalar} (hl : l.WellTyped V) (hr : r.WellTyped V)
    (hlt : l.valueType = .pointer element) (hrt : r.valueType = .pointer element) :
    (pointerDistance l r element).WellTyped V :=
  .arithmetic rfl (.distance hl hr hlt hrt) (.literal trivial) rfl rfl (by simp) (by simp)

theorem binary_gives (op : BinaryOp) (hl : l.WellTyped V) (hr : r.WellTyped V)
    (hlv : l.type.isVoid = false) (hrv : r.type.isVoid = false) (span : Span) :
    Gives (binary op l r span) (Typed.Expr.WellTyped V) := by
  unfold binary
  dsimp only
  split
  · rename_i hop
    exact gives_ok (.logical hop hl hr hlv hrv)
  · rename_i hop
    have hop' : op.isLogical = false := by simpa using hop
    split
    · rename_i a b hlt hrt
      exact scalarBinary_gives hl hr hlt hrt hop' span
    · rename_i element s hlt hrt
      split
      · exact gives_ok (pointerOffset_wellTyped hl hr hlt hrt _)
      · split
        · rename_i hrel
          exact gives_ok (.compare (isSome_relation? hrel.1) hl (.literal trivial)
            (.pointerNull hlt))
        · exact gives_refuse _ _
    · rename_i s element hlt hrt
      split
      · exact gives_ok (pointerOffset_wellTyped hr hl hrt hlt _)
      · split
        · rename_i hrel
          exact gives_ok (.compare (isSome_relation? hrel.1) (.literal trivial) hr
            (.nullPointer hrt))
        · exact gives_refuse _ _
    · rename_i a b hlt hrt
      split
      · rename_i hsub
        exact gives_ok (pointerDistance_wellTyped hl hr hlt (hsub.1 ▸ hrt))
      · split
        · rename_i hrel
          exact gives_ok (.compare (isSome_relation? hrel.2) hl hr (.pointers hlt (hrel.1 ▸ hrt)))
        · exact gives_refuse _ _
    · exact gives_refuse _ _
    · exact gives_refuse _ _

theorem constant_of_negate? {v w : Value} {s : Scalar} (hs : s.isInteger = true)
    (hv : v.type = .scalar s) (h : v.negate? = some w) : V.Constant w := by
  cases v with
  | float x => cases hv; cases hs
  | str text => cases hv
  | _ => cases h; trivial

theorem arithmeticUnary_gives (he : e.WellTyped V) (op : UnaryOp)
    (hop : op = .plus ∨ op = .minus ∨ op = .bitNot) (span : Span) :
    Gives (arithmeticUnary op e span) (Typed.Expr.WellTyped V) := by
  unfold arithmeticUnary
  split
  · rename_i s hs
    dsimp only
    split
    · exact gives_refuse _ _
    · rename_i hfloat
      obtain ⟨hwt, htype⟩ := convert_wellTyped he hs (s.common .int)
      split
      · exact gives_ok hwt
      · rename_i hplus
        -- the operand of a sign or a complement has the type of the node
        have hnode : (Typed.Expr.unary op (convert e s (s.common .int))
            (.scalar (s.common .int))).WellTyped V := by
          rcases hop.resolve_left hplus with rfl | rfl
          · exact .negate hwt (valueType_of_type htype) (common_ne_char _ _)
          · refine .invert hwt (valueType_of_type htype) ?_
            cases s <;> simp_all [Scalar.common, Scalar.max, Scalar.rank]
        split
        · rename_i v hv
          rw [hv] at htype
          split
          · rename_i w hint hw
            exact gives_ok (.literal (constant_of_negate? hint htype hw))
          · exact gives_ok hnode
        · exact gives_ok hnode
  · exact gives_refuse _ _

/-! ### Places -/

/-- Places that can be read and, unless they are arrays, written. -/
def PlaceOk (V : Vocabulary) : Place → Prop
  | .object s => V.objects s ∧ s.type.isVoid = false
  | .pointee a pointer =>
    ∃ element, a.WellTyped V ∧ a.valueType = .pointer element ∧ pointer = .pointer element

theorem PlaceOk.load {p : Place} (h : PlaceOk V p) : (Typed.Expr.load p).WellTyped V := by
  cases p with
  | object s => exact .object h.1 h.2
  | pointee a pointer =>
    obtain ⟨element, ha, ht, rfl⟩ := h
    exact .pointee ha ht

theorem dereference_gives (he : e.WellTyped V) (span : Span) :
    Gives (dereference e span) (PlaceOk V) := by
  unfold dereference
  split
  · rename_i hp
    cases ht : e.valueType <;> rw [ht] at hp <;> cases hp
    rename_i element
    exact gives_ok ⟨element, he, ht, rfl⟩
  · exact gives_refuse _ _

theorem element_gives {b i : Typed.Expr} (hb : b.WellTyped V) (hi : i.WellTyped V) (span : Span) :
    Gives (element b i span) (PlaceOk V) := by
  unfold element
  split
  · rename_i el hbt
    split
    · rename_i s hit
      split
      · exact gives_ok ⟨el, pointerOffset_wellTyped hb hi hbt hit false, rfl, rfl⟩
      · exact gives_refuse _ _
    · exact gives_refuse _ _
  · exact gives_refuse _ _

theorem variableAddress_gives {s : Symbol} (hs : V.objects s) (span : Span) :
    Gives (variableAddress s span) (Typed.Expr.WellTyped V) := by
  unfold variableAddress
  split
  · rename_i element ht
    exact gives_ok (.addressOf hs (.inl ht))
  · rename_i element length ht
    exact gives_ok (.addressOf hs (.inr ⟨length, ht⟩))
  · exact gives_refuse _ _

theorem placeAddress_gives {p : Place} (h : PlaceOk V p) (span : Span) :
    Gives (placeAddress p span) (Typed.Expr.WellTyped V) := by
  cases p with
  | object s => exact variableAddress_gives h.1 span
  | pointee a pointer =>
    obtain ⟨element, ha, -⟩ := h
    exact gives_ok ha

end Rules

/-! ### All expressions -/

section Expressions

variable {V : Vocabulary} {env : Env} {L : Ast.Lexicon}

theorem Env.Within.object_gives (h : env.Within V) (name : String) (span : Span) :
    Gives (env.object name span) fun s => V.objects s ∧ s.type.isVoid = false := by
  unfold Env.object
  split
  · rename_i s hs
    exact gives_ok (h.objects name s hs)
  · exact gives_refuse _ _

theorem Env.Within.function_gives (h : env.Within V) (name : String) (span : Span) :
    Gives (env.function name span) fun s => V.functions.find? name = some s := by
  unfold Env.function
  split
  · rename_i s hs
    exact gives_ok (h.functions ▸ hs)
  · exact gives_refuse _ _

attribute [local simp] expr place addressOf

/-- What checking gives for an expression: as a value, as a target of assignment, and as an operand
of `&`. -/
structure Sound (V : Vocabulary) (env : Env) (e : Ast.Expr) : Prop where
  value : Gives (expr env e) (Typed.Expr.WellTyped V)
  place : Gives (place env e) fun p => PlaceOk V p ∧ ∀ s, p = .object s → s.type.isArray = false
  address : ∀ span, Gives (addressOf env e span) (Typed.Expr.WellTyped V)

theorem Sound.nonVoid {e : Ast.Expr} (h : Sound V env e) (span : Span) :
    Gives (expr env e >>= nonVoid span) fun v => v.WellTyped V ∧ v.type.isVoid = false :=
  h.value.bind fun _ hv => nonVoid_gives hv span

/-- An expression that is neither a name, a dereference nor an element is no place. -/
theorem Sound.of_value {e : Ast.Expr} (h : Gives (expr env e) (Typed.Expr.WellTyped V))
    (hp : Typing.place env e = refuse .notAssignable e.span)
    (ha : ∀ span, addressOf env e span = refuse .notAssignable span) : Sound V env e :=
  ⟨h, hp ▸ gives_refuse _ _, fun span => ha span ▸ gives_refuse _ _⟩

theorem sound_name (h : env.Within V) (name : String) (span : Span) :
    Sound V env (.name name span) where
  value := by
    rw [expr]
    exact (h.object_gives name span).bind fun s hs => gives_pure (.object hs.1 hs.2)
  place := by
    rw [Typing.place]
    refine (h.object_gives name span).bind fun s hs => ?_
    split
    · exact gives_refuse _ _
    · rename_i harray
      refine gives_pure ⟨hs, fun s' hs' => ?_⟩
      cases hs'
      simpa using harray
  address := by
    intro span'
    rw [addressOf]
    exact (h.object_gives name span').bind fun s hs => variableAddress_gives hs.1 span'

theorem not_object_of_dereference {e : Typed.Expr} {span : Span} :
    Gives (dereference e span) fun p => ∀ s, p ≠ .object s := by
  unfold dereference
  split
  · exact gives_ok (by simp)
  · exact gives_refuse _ _

theorem not_object_of_element {b i : Typed.Expr} {span : Span} :
    Gives (element b i span) fun p => ∀ s, p ≠ .object s := by
  unfold element
  split
  · split
    · split
      · exact gives_ok (by simp)
      · exact gives_refuse _ _
    · exact gives_refuse _ _
  · exact gives_refuse _ _

theorem sound_index {a i : Ast.Expr} (ha : Sound V env a) (hi : Sound V env i) (span : Span) :
    Sound V env (.index a i span) where
  value := by
    rw [expr]
    exact (ha.nonVoid _).bind fun b hb => (hi.nonVoid _).bind fun i hi =>
      (element_gives hb.1 hi.1 span).bind fun p hp => gives_pure hp.load
  place := by
    rw [Typing.place]
    exact (ha.nonVoid _).bind fun b hb => (hi.nonVoid _).bind fun i hi p hp =>
      ⟨element_gives hb.1 hi.1 span p hp, fun s hs => absurd hs (not_object_of_element p hp s)⟩
  address := by
    intro span'
    rw [addressOf]
    exact (ha.nonVoid _).bind fun b hb => (hi.nonVoid _).bind fun i hi =>
      (element_gives hb.1 hi.1 span').bind fun p hp => placeAddress_gives hp span'

theorem sound_dereference {e : Ast.Expr} (he : Sound V env e) (span : Span) :
    Sound V env (.unary .dereference e span) where
  value := by
    rw [expr]
    exact (he.nonVoid _).bind fun v hv => (dereference_gives hv.1 span).bind fun p hp =>
      gives_pure hp.load
  place := by
    rw [Typing.place]
    exact (he.nonVoid _).bind fun v hv p hp =>
      ⟨dereference_gives hv.1 span p hp, fun s hs => absurd hs (not_object_of_dereference p hp s)⟩
  address := by
    intro span'
    rw [addressOf]
    exact (he.nonVoid _).bind fun v hv => (dereference_gives hv.1 span').bind fun p hp =>
      placeAddress_gives hp span'

theorem step_gives (h : env.Within V) (operand : Ast.Expr) (increment after : Bool) (span : Span) :
    Gives (step env operand increment after span) (Typed.Expr.WellTyped V) := by
  unfold step
  split
  · refine (h.object_gives _ span).bind fun s hs => ?_
    split
    · rename_i ht
      exact gives_pure (.step hs.1 ht)
    · exact gives_refuse _ _
  · exact gives_refuse _ _

theorem sound_unary (h : env.Within V) (op : UnaryOp) {e : Ast.Expr} (he : Sound V env e)
    (span : Span) : Sound V env (.unary op e span) := by
  have harith : ∀ op, op = .plus ∨ op = .minus ∨ op = .bitNot →
      Gives (do arithmeticUnary op (← expr env e >>= nonVoid e.span) span)
        (Typed.Expr.WellTyped V) :=
    fun op hop => (he.nonVoid _).bind fun v hv => arithmeticUnary_gives hv.1 op hop span
  cases op with
  | dereference => exact sound_dereference he span
  | addressOf =>
    refine .of_value ?_ rfl fun _ => rfl
    rw [expr]
    exact he.address span
  | plus =>
    refine .of_value ?_ rfl fun _ => rfl
    rw [expr]
    exact harith _ (by simp)
  | minus =>
    refine .of_value ?_ rfl fun _ => rfl
    rw [expr]
    exact harith _ (by simp)
  | bitNot =>
    refine .of_value ?_ rfl fun _ => rfl
    rw [expr]
    exact harith _ (by simp)
  | logicalNot =>
    refine .of_value ?_ rfl fun _ => rfl
    rw [expr]
    exact (he.nonVoid _).bind fun v hv => gives_pure (.not hv.1 hv.2)
  | _ =>
    refine .of_value ?_ rfl fun _ => rfl
    rw [expr]
    exact step_gives h e _ _ span

theorem assign_wellTyped {p : Place} {v : Typed.Expr} (hp : PlaceOk V p)
    (ha : ∀ s, p = .object s → s.type.isArray = false) (hv : v.WellTyped V) (ht : v.Fits p.type) :
    (Typed.Expr.assign p v).WellTyped V := by
  cases p with
  | object s => exact .assignObject hp.1 (ha s rfl) hv ht
  | pointee a pointer =>
    obtain ⟨element, hawt, hat, rfl⟩ := hp
    rcases ht with ⟨ht, -⟩ | ⟨hpointer, -⟩
    · exact .assignPointee hawt hat hv ht
    · cases hpointer

theorem PlaceOk.isVoid {p : Place} (h : PlaceOk V p) : p.type.isVoid = false := by
  cases p with
  | object s => exact h.2
  | pointee a pointer =>
    obtain ⟨element, -, -, rfl⟩ := h
    rfl

theorem sound_assign (op : AssignOp) {target value : Ast.Expr} (ht : Sound V env target)
    (hv : Sound V env value) (span : Span) : Sound V env (.assign op target value span) := by
  refine .of_value ?_ rfl fun _ => rfl
  rw [expr]
  refine ht.place.bind fun p ⟨hp, ha⟩ => ?_
  split
  · exact (hv.nonVoid _).bind fun v hv => (coerce_gives hv.1 hp.isVoid span).bind fun w hw =>
      gives_pure (assign_wellTyped hp ha hw.1 hw.2)
  · refine (hv.nonVoid _).bind fun v hv => ?_
    refine (binary_gives _ hp.load hv.1 hp.isVoid hv.2 span).bind fun result hr => ?_
    exact (coerce_gives hr hp.isVoid span).bind fun w hw =>
      gives_pure (assign_wellTyped hp ha hw.1 hw.2)
  · exact gives_refuse _ _

theorem arguments_gives {args : List Ast.Expr} {types : List CType}
    (hargs : ∀ a ∈ args, Sound V env a) (htypes : ∀ t ∈ types, t.isVoid = false)
    (hlen : args.length = types.length) :
    Gives (arguments env args types) fun vs =>
      (∀ v ∈ vs, v.WellTyped V) ∧ List.Forall₂ Typed.Expr.Fits vs types := by
  induction args generalizing types with
  | nil =>
    obtain rfl : types = [] := List.length_eq_zero_iff.mp hlen.symm
    exact gives_ok ⟨by simp, .nil⟩
  | cons a args ih =>
    cases types with
    | nil => cases hlen
    | cons t types =>
      rw [arguments]
      refine ((hargs a (by simp)).nonVoid _).bind fun v hv => ?_
      refine (coerce_gives hv.1 (htypes t (by simp)) _).bind fun w hw => ?_
      refine (ih (fun a ha => hargs a (by simp [ha])) (fun t ht => htypes t (by simp [ht]))
        (by simpa using hlen)).bind fun ws hws => ?_
      exact gives_pure ⟨List.forall_mem_cons.mpr ⟨hw.1, hws.1⟩, .cons hw.2 hws.2⟩

theorem sound_call (h : env.Within V) (name : String) {args : List Ast.Expr}
    (hargs : ∀ a ∈ args, Sound V env a) (span : Span) : Sound V env (.call name args span) := by
  refine .of_value ?_ rfl fun _ => rfl
  rw [expr]
  refine (h.function_gives name span).bind fun signature hs => ?_
  split
  · exact gives_refuse _ _
  · rename_i hlen
    exact (arguments_gives hargs (h.parameters name signature hs) (by simpa using hlen)).bind
      fun vs hvs => gives_pure (.call hs hvs.1 hvs.2)

theorem sound_cast (type : Ast.TypeName) {e : Ast.Expr} (he : Sound V env e) (span : Span) :
    Sound V env (.cast type e span) := by
  refine .of_value ?_ rfl fun _ => rfl
  rw [expr]
  have hresolve : Gives (type.resolve span) fun _ => True := fun _ _ => trivial
  refine hresolve.bind fun target _ => (he.nonVoid _).bind fun v hv => ?_
  split
  · rename_i source target' hs
    exact gives_pure (convert_wellTyped hv.1 hs target').1
  · split
    · exact gives_pure hv.1
    · exact gives_refuse _ _

/-- Checking gives well-typed expressions only. -/
theorem sound (h : env.Within V) (hL : ∀ v, L.constants v → V.Constant v) {e : Ast.Expr}
    (he : e.Spelled L) : Sound V env e := by
  induction e using Ast.Expr.induct with
  | literal v span =>
    cases he with
    | literal hv => exact .of_value (gives_ok (.literal (hL v hv))) rfl fun _ => rfl
  | name n span => exact sound_name h n span
  | binary op l r span hl hr =>
    cases he with
    | binary hls hrs =>
      refine .of_value ?_ rfl fun _ => rfl
      rw [expr]
      exact ((hl hls).nonVoid _).bind fun lv hlv => ((hr hrs).nonVoid _).bind fun rv hrv =>
        binary_gives op hlv.1 hrv.1 hlv.2 hrv.2 span
  | unary op e span ih =>
    cases he with
    | unary he => exact sound_unary h op (ih he) span
  | assign op t v span ht hv =>
    cases he with
    | assign hts hvs => exact sound_assign op (ht hts) (hv hvs) span
  | call f args span hargs =>
    cases he with
    | call ha => exact sound_call h f (fun a hmem => hargs a hmem (ha a hmem)) span
  | index a i span ha hi =>
    cases he with
    | index has his => exact sound_index (ha has) (hi his) span
  | cast type e span ih =>
    cases he with
    | cast he => exact sound_cast type (ih he) span

end Expressions

end MiniC.Typing
