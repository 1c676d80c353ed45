import MiniC.Proofs.Typing.Expr

/-!
# Where an array keeps its type

A checked expression counts as a pointer wherever its value is used, but the node of an array variable keeps the
array type so that its length can still be seen. That type shows in the expressions that hand on the node of
their operand: the name itself, a cast of such an expression to the pointer type it counts as, and `&*` before
such an expression (`Refers`). All others have decayed, so a cast has the type it names except there.
-/

set_option autoImplicit false

namespace MiniC.Typing

/-- The expression is the node of an array variable. -/
inductive Refers (env : Env) : Ast.Expr → Symbol → Prop
  | name {name : String} {span : Span} {s : Symbol} (hs : env.scopes.lookup? name = some s)
      (ha : s.type.isArray = true) : Refers env (.name name span) s
  | cast {e : Ast.Expr} {type : Ast.TypeName} {span : Span} {s : Symbol} (h : Refers env e s)
      (ht : type.resolve span = .ok s.type.decay) : Refers env (.cast type e span) s
  | addressOfPointee {e : Ast.Expr} {span span' : Span} {s : Symbol} (h : Refers env e s) :
      Refers env (.unary .addressOf (.unary .dereference e span') span) s

section Refers

variable {env : Env} {e : Ast.Expr} {s : Symbol}

theorem Refers.isArray (h : Refers env e s) : s.type.isArray = true := by
  induction h with
  | name _ ha => exact ha
  | cast _ _ ih => exact ih
  | addressOfPointee _ ih => exact ih

/-- Such an expression is accepted, as the node of the variable. -/
theorem Refers.expr_eq (h : Refers env e s) : expr env e = .ok (.load (.object s)) := by
  obtain ⟨element, length, harray⟩ : ∃ element length, s.type = .array element length := by
    have ha := h.isArray
    cases ht : s.type <;> simp_all [CType.isArray]
  have hvalue : (Typed.Expr.load (.object s)).valueType = .pointer element := by
    simp [Typed.Expr.valueType, Typed.Expr.type, Typed.Place.type, harray, CType.decay]
  have hnonVoid : ∀ span, nonVoid span (.load (.object s)) = .ok (.load (.object s)) := by
    intro span
    simp [nonVoid, Typed.Expr.type, Typed.Place.type, harray, CType.isVoid]
  induction h with
  | name hs _ => simp [expr, Env.object, hs, bind, Except.bind, pure, Except.pure]
  | cast _ ht ih =>
    rw [harray] at ht
    simp only [CType.decay] at ht
    simp [expr, ht, ih harray hvalue hnonVoid, hnonVoid, hvalue, bind, Except.bind, pure, Except.pure]
  | addressOfPointee _ ih =>
    simp [expr, addressOf, dereference, placeAddress, ih harray hvalue hnonVoid, hnonVoid, hvalue,
      CType.isPointer, bind, Except.bind]

end Refers

/-! ### What has decayed -/

/-- The type of an expression that has decayed. -/
abbrev Decayed (t : Typed.Expr) : Prop := t.type.isArray = false

section Operations

variable {l r e : Typed.Expr}

theorem decayed_of_type {s : Scalar} (h : e.type = .scalar s) : Decayed e := by
  rw [Decayed, h]
  rfl

theorem decayed_literal (v : Value) : Decayed (.literal v) := by
  cases v <;> rfl

theorem binary_decayed (op : BinaryOp) (span : Span) : Gives (binary op l r span) Decayed := by
  unfold binary
  dsimp only
  split
  · exact gives_ok rfl
  · split
    · unfold scalarBinary
      dsimp only
      split
      · exact gives_refuse _ _
      · refine gives_ok ?_
        show CType.isArray (if _ then _ else _) = false
        split <;> rfl
    · split_ifs <;> first | exact gives_ok rfl | exact gives_refuse _ _
    · split_ifs <;> first | exact gives_ok rfl | exact gives_refuse _ _
    · split_ifs <;> first | exact gives_ok rfl | exact gives_refuse _ _
    · exact gives_refuse _ _
    · exact gives_refuse _ _

theorem arithmeticUnary_decayed (op : UnaryOp) (span : Span) : Gives (arithmeticUnary op e span) Decayed := by
  unfold arithmeticUnary
  split
  · rename_i s hs
    have htype := type_convert hs (s.common .int)
    dsimp only
    split
    · exact gives_refuse _ _
    · split
      · exact gives_ok (decayed_of_type htype)
      · split
        · split
          · exact gives_ok (decayed_literal _)
          · exact gives_ok rfl
        · exact gives_ok rfl
  · exact gives_refuse _ _

theorem placeDecayed_dereference {e : Typed.Expr} (span : Span) :
    Gives (dereference e span) fun p => Decayed (.load p) := by
  unfold dereference
  split
  · refine gives_ok ?_
    simp only [Decayed, Typed.Expr.type, Typed.Place.type]
    split <;> rfl
  · exact gives_refuse _ _

theorem placeDecayed_element {b i : Typed.Expr} (span : Span) :
    Gives (element b i span) fun p => Decayed (.load p) ∧
      ∀ span', Gives (placeAddress p span') Decayed := by
  unfold element
  split
  · split
    · split
      · exact gives_ok ⟨rfl, fun _ => gives_ok rfl⟩
      · exact gives_refuse _ _
    · exact gives_refuse _ _
  · exact gives_refuse _ _

theorem variableAddress_decayed (s : Symbol) (span : Span) : Gives (variableAddress s span) Decayed := by
  unfold variableAddress
  split
  · exact gives_ok rfl
  · exact gives_ok rfl
  · exact gives_refuse _ _

theorem step_decayed (env : Env) (operand : Ast.Expr) (increment after : Bool) (span : Span) :
    Gives (step env operand increment after span) Decayed := by
  unfold step
  split
  · refine Gives.bind (fun _ _ => trivial : Gives _ fun _ => True) fun s _ => ?_
    split
    · rename_i ht
      refine gives_pure ?_
      show s.type.isArray = false
      cases hs : s.type <;> simp_all [CType.isInteger, CType.isPointer, CType.isArray]
    · exact gives_refuse _ _
  · exact gives_refuse _ _

end Operations

/-! ### All expressions -/

section Expressions

variable {env : Env}

/-- Whatever is given: for steps of checking of which nothing is needed. -/
theorem gives_any {α : Type} (x : Except Error α) : Gives x fun _ => True := fun _ _ => trivial

/-- The functions give no arrays, which is checked where they are declared. -/
def Env.NoArrayResults (env : Env) : Prop :=
  ∀ name signature, env.functions.find? name = some signature → signature.result.isArray = false

/-- An expression, as a value and as an operand of `&`, has decayed or is the node of an array variable. -/
structure Decays (env : Env) (e : Ast.Expr) : Prop where
  value : Gives (expr env e) fun t => t.type.isArray = true → ∃ s, Refers env e s
  address : ∀ span, Gives (addressOf env e span) fun t =>
    t.type.isArray = true → ∃ s, Refers env (.unary .addressOf e span) s

theorem Decays.of_value {e : Ast.Expr} (h : Gives (expr env e) Decayed)
    (ha : ∀ span, addressOf env e span = refuse .notAssignable span) : Decays env e where
  value := h.mono fun t ht harray => by rw [ht] at harray; cases harray
  address span := ha span ▸ gives_refuse _ _

theorem place_decayed (e : Ast.Expr) : Gives (place env e) fun p => Decayed (.load p) := by
  unfold place
  split
  · refine (gives_any _).bind fun s _ => ?_
    split
    · exact gives_refuse _ _
    · rename_i ha
      exact gives_pure (Bool.eq_false_iff.mpr ha)
  · exact (gives_any _).bind fun v _ => placeDecayed_dereference _
  · exact (gives_any _).bind fun b _ => (gives_any _).bind fun i _ =>
      (placeDecayed_element _).mono fun p hp => hp.1
  · exact gives_refuse _ _

theorem decays_unary (op : UnaryOp) {e : Ast.Expr} (he : Decays env e) (span : Span) :
    Decays env (.unary op e span) := by
  have harith : ∀ op, Gives (do arithmeticUnary op (← expr env e >>= nonVoid e.span) span) Decayed :=
    fun op => (gives_any _).bind fun v _ => arithmeticUnary_decayed op span
  cases op with
  | dereference =>
    constructor
    · rw [expr]
      refine (gives_any _).bind fun v _ => (placeDecayed_dereference span).bind fun p hp => gives_pure ?_
      intro harray
      rw [hp] at harray
      cases harray
    · intro span'
      rw [addressOf]
      -- the address of what a pointer points to is the node of the pointer
      refine Gives.bind (P := fun t => t.type.isArray = true → ∃ s, Refers env e s) ?_ fun v hv => ?_
      · exact he.value.bind fun v hv => (nonVoid_gives hv _).mono fun t ht => ht.1
      · refine Gives.bind (P := fun p => p = .pointee v v.valueType) ?_ fun p hp => ?_
        · unfold dereference
          split
          · exact gives_ok rfl
          · exact gives_refuse _ _
        · subst hp
          exact gives_ok fun harray => (hv harray).imp fun _ => .addressOfPointee
  | addressOf =>
    refine ⟨?_, fun span' => gives_refuse _ _⟩
    rw [expr]
    exact he.address span
  | logicalNot =>
    refine .of_value ?_ fun _ => rfl
    rw [expr]
    exact (gives_any _).bind fun v _ => gives_pure rfl
  | plus =>
    refine .of_value ?_ fun _ => rfl
    rw [expr]
    exact harith _
  | minus =>
    refine .of_value ?_ fun _ => rfl
    rw [expr]
    exact harith _
  | bitNot =>
    refine .of_value ?_ fun _ => rfl
    rw [expr]
    exact harith _
  | _ =>
    refine .of_value ?_ fun _ => rfl
    rw [expr]
    exact step_decayed env e _ _ span

/-- A cast converts between numbers and hands on a value that counts as the type already. -/
theorem cast_cases {type : Ast.TypeName} {e : Ast.Expr} {span : Span} :
    Gives (expr env (.cast type e span)) fun t => ∃ target v, type.resolve span = .ok target ∧
      expr env e = .ok v ∧
      ((∃ a b, v.valueType = .scalar a ∧ target = .scalar b ∧ t = convert v a b) ∨
        v.valueType = target ∧ t = v) := by
  rw [expr]
  refine Gives.bind (P := fun target => type.resolve span = .ok target) (fun _ h => h) fun target ht => ?_
  refine Gives.bind (P := fun v => expr env e = .ok v) ?_ fun v hv => ?_
  · exact Gives.bind (fun v hv => hv) fun v hv => (nonVoid_gives hv _).mono fun _ h => h.1
  · split
    · rename_i a b ha
      exact gives_pure ⟨_, v, ht, hv, .inl ⟨a, b, ha, rfl, rfl⟩⟩
    · split
      · rename_i heq
        exact gives_pure ⟨_, v, ht, hv, .inr ⟨heq, rfl⟩⟩
      · exact gives_refuse _ _

theorem decays_cast (type : Ast.TypeName) {e : Ast.Expr} (he : Decays env e) (span : Span) :
    Decays env (.cast type e span) := by
  refine ⟨cast_cases.mono ?_, fun _ => gives_refuse _ _⟩
  rintro t ⟨target, v, htarget, hv, ⟨a, b, ha, -, rfl⟩ | ⟨heq, rfl⟩⟩ harray
  · rw [type_convert ha] at harray
    cases harray
  · obtain ⟨s, hs⟩ := he.value t hv harray
    obtain rfl : .load (.object s) = t := Except.ok.inj (hs.expr_eq.symm.trans hv)
    exact ⟨s, .cast hs (htarget.trans (by rw [← heq]; rfl))⟩

theorem decays (h : env.NoArrayResults) (e : Ast.Expr) : Decays env e := by
  induction e using Ast.Expr.induct with
  | literal v span => exact .of_value (gives_ok (decayed_literal v)) fun _ => rfl
  | name n span =>
    constructor
    · rw [expr]
      unfold Env.object
      split
      · rename_i s hs
        exact gives_ok fun ha => ⟨s, .name hs ha⟩
      · exact fun t ht => by cases ht
    · intro span'
      rw [addressOf]
      refine (gives_any _).bind fun s _ => (variableAddress_decayed s span').mono fun t ht harray => ?_
      rw [ht] at harray
      cases harray
  | binary op l r span =>
    refine .of_value ?_ fun _ => rfl
    rw [expr]
    exact (gives_any _).bind fun lv _ => (gives_any _).bind fun rv _ => binary_decayed op span
  | unary op e span ih => exact decays_unary op ih span
  | assign op t v span =>
    refine .of_value ?_ fun _ => rfl
    rw [expr]
    refine (place_decayed t).bind fun p hp => ?_
    split
    · exact (gives_any _).bind fun v _ => (gives_any _).bind fun w _ => gives_pure hp
    · exact (gives_any _).bind fun v _ => (gives_any _).bind fun r _ => (gives_any _).bind fun w _ =>
        gives_pure hp
    · exact gives_refuse _ _
  | call f args span =>
    refine .of_value ?_ fun _ => rfl
    rw [expr]
    have hfunction : Gives (env.function f span) fun signature => signature.result.isArray = false := by
      unfold Env.function
      split
      · rename_i signature hs
        exact gives_ok (h f signature hs)
      · exact gives_refuse _ _
    refine hfunction.bind fun signature hs => ?_
    split
    · exact gives_refuse _ _
    · exact (gives_any _).bind fun vs _ => gives_pure hs
  | index a i span =>
    constructor
    · rw [expr]
      refine (gives_any _).bind fun b _ => (gives_any _).bind fun i _ =>
        (placeDecayed_element span).bind fun p hp => gives_pure fun harray => ?_
      rw [hp.1] at harray
      cases harray
    · intro span'
      rw [addressOf]
      refine (gives_any _).bind fun b _ => (gives_any _).bind fun i _ =>
        (placeDecayed_element span').bind fun p hp => (hp.2 span').mono fun t ht harray => ?_
      rw [ht] at harray
      cases harray
  | cast type e span ih => exact decays_cast type ih span

theorem type_cast_iff (h : env.NoArrayResults) {type : Ast.TypeName} {e : Ast.Expr} {span : Span}
    {t : Typed.Expr} (ht : expr env (.cast type e span) = .ok t) :
    ∃ target, type.resolve span = .ok target ∧ t.valueType = target ∧
      (t.type = target ↔ ¬ ∃ s, Refers env e s) := by
  obtain ⟨target, v, htarget, hv, ⟨a, b, ha, rfl, rfl⟩ | ⟨heq, rfl⟩⟩ := cast_cases t ht
  · have htype := type_convert ha b
    refine ⟨_, htarget, valueType_of_type htype, fun _ => ?_, fun _ => htype⟩
    rintro ⟨s, hs⟩
    obtain rfl : .load (.object s) = v := Except.ok.inj (hs.expr_eq.symm.trans hv)
    have harray := hs.isArray
    rw [show s.type = .scalar a from type_of_valueType ha] at harray
    cases harray
  · refine ⟨target, htarget, heq, fun htype => ?_, fun hnot => ?_⟩
    · rintro ⟨s, hs⟩
      obtain rfl : .load (.object s) = t := Except.ok.inj (hs.expr_eq.symm.trans hv)
      have harray : (Typed.Expr.load (.object s)).type.isArray = true := hs.isArray
      rw [← heq, Typed.Expr.valueType] at htype
      rw [htype] at harray
      cases hs' : (Typed.Expr.load (.object s)).type <;> simp_all [CType.decay, CType.isArray]
    · have hplain : t.type.isArray = false :=
        Bool.eq_false_iff.mpr fun harray => hnot ((decays h e).value t hv harray)
      rw [← heq, Typed.Expr.valueType]
      cases hs : t.type <;> simp_all [CType.decay, CType.isArray]

end Expressions

/-- An accepted expression has an array type just where it is the node of an array variable, and an accepted
cast has the type it names just where its operand is no such node; it counts as that type in any case. -/
theorem array_type_of_reference {env : Env} (h : env.NoArrayResults) :
    (∀ e t, expr env e = .ok t → (t.type.isArray = true ↔ ∃ s, Refers env e s) ∧
      ∀ s, Refers env e s → t = .load (.object s)) ∧
    ∀ type e span t, expr env (.cast type e span) = .ok t →
      ∃ target, type.resolve span = .ok target ∧ t.valueType = target ∧
        (t.type = target ↔ ¬ ∃ s, Refers env e s) := by
  refine ⟨fun e t ht => ?_, fun type e span t ht => type_cast_iff h ht⟩
  have hnode : ∀ s, Refers env e s → t = .load (.object s) := fun s hs =>
    Except.ok.inj (ht.symm.trans hs.expr_eq)
  refine ⟨⟨(decays h e).value t ht, ?_⟩, hnode⟩
  rintro ⟨s, hs⟩
  rw [hnode s hs]
  exact hs.isArray

/-- A scope with `int a[3]`. -/
def arrayScope : Env where
  scopes := { globals := [⟨"a", .array .int 3, .label "a"⟩] }
  functions := []

theorem noArrayResults_arrayScope : arrayScope.NoArrayResults := fun name signature h => by cases h

/-- The pointer that `(int*)a` is cast to is accepted as a pointer and has the type of the array. -/
theorem array_type_of_cast :
    (∃ s, Refers arrayScope (.cast ⟨.int, 1, none⟩ (.name "a" .unknown) .unknown) s) ∧
    ∀ t, expr arrayScope (.cast ⟨.int, 1, none⟩ (.name "a" .unknown) .unknown) = .ok t →
      t.type.isArray = true := by
  have hname : Refers arrayScope (.name "a" .unknown) ⟨"a", .array .int 3, .label "a"⟩ := .name rfl rfl
  have hcast : Refers arrayScope (.cast ⟨.int, 1, none⟩ (.name "a" .unknown) .unknown) _ := .cast hname rfl
  exact ⟨⟨_, hcast⟩, fun t ht =>
    ((array_type_of_reference noArrayResults_arrayScope).1 _ t ht).1.mpr ⟨_, hcast⟩⟩

/-- Not every expression of an array type is a name, and not every cast has the type it names. -/
theorem cast_keeps_array :
    ∃ t, expr arrayScope (.cast ⟨.int, 1, none⟩ (.name "a" .unknown) .unknown) = .ok t ∧
      t.type = .array .int 3 ∧ (Ast.TypeName.mk .int 1 none).resolve .unknown = .ok (.pointer .int) :=
  ⟨_, rfl, rfl, rfl⟩

end MiniC.Typing
