import MiniC.Proofs.Ast.Erase
import MiniC.Proofs.Typed.Erase
import MiniC.Proofs.Typing.Scoping

/-!
# Checking does not look at ranges

Ranges end up in refusals, and the places of statements in the typed tree; nothing else depends on
them. So checking a program without its ranges gives what checking the program gives, with the
ranges and places forgotten (`check_erase`).
-/

set_option autoImplicit false

namespace MiniC.Typing

open Typed (Place)

/-- The refusal without its range. -/
def Error.erase (e : Error) : Error := ⟨e.fault, .unknown⟩

/-- The result of checking, with the range of a refusal forgotten. -/
def forget {α : Type} (x : Except Error α) : Except Error α := x.mapError Error.erase

section Forget

variable {α β : Type}

@[simp] theorem forget_ok (a : α) : forget (.ok a) = .ok a := rfl

@[simp] theorem forget_pure (a : α) : forget (pure a) = pure a := rfl

@[simp] theorem forget_refuse (fault : Fault) (span : Span) :
    forget (refuse fault span : Except Error α) = refuse fault .unknown := rfl

@[simp] theorem forget_bind (x : Except Error α) (f : α → Except Error β) :
    forget (x >>= f) = forget x >>= fun a => forget (f a) := by
  cases x <;> rfl

@[simp] theorem forget_ite {c : Prop} [Decidable c] (x y : Except Error α) :
    forget (if c then x else y) = if c then forget x else forget y := by
  split <;> rfl

@[simp] theorem forget_map (f : α → β) (x : Except Error α) : forget (f <$> x) = f <$> forget x := by
  cases x <;> rfl

theorem mapM_forget {γ : Type} {f : α → Except Error β} {g : γ → Except Error β} {erase : α → γ}
    {xs : List α} (h : ∀ x ∈ xs, g (erase x) = forget (f x)) :
    (xs.map erase).mapM g = forget (xs.mapM f) := by
  induction xs with
  | nil => rfl
  | cons x xs ih =>
    rw [List.map_cons, List.mapM_cons, List.mapM_cons, forget_bind, h x List.mem_cons_self]
    rw [ih fun y hy => h y (.tail x hy)]
    simp only [forget_bind, forget_pure]

end Forget

/-! ### Expressions -/

section Expressions

@[simp] theorem forget_resolve (t : Ast.TypeName) (span : Span) :
    forget (t.resolve span) = t.resolve .unknown := by
  unfold Ast.TypeName.resolve
  cases t.resolve? <;> rfl

@[simp] theorem forget_object (env : Env) (name : String) (span : Span) :
    forget (env.object name span) = env.object name .unknown := by
  unfold Env.object
  cases env.scopes.lookup? name <;> rfl

@[simp] theorem forget_function (env : Env) (name : String) (span : Span) :
    forget (env.function name span) = env.function name .unknown := by
  unfold Env.function
  cases env.functions.find? name <;> rfl

@[simp] theorem forget_nonVoid (e : Typed.Expr) (span : Span) :
    forget (nonVoid span e) = nonVoid .unknown e := by
  unfold nonVoid
  simp

@[simp] theorem forget_coerce (e : Typed.Expr) (target : CType) (span : Span) :
    forget (coerce e target span) = coerce e target .unknown := by
  unfold coerce
  dsimp only
  rw [forget_ite]
  congr 1
  cases e.valueType <;> cases target <;> simp

@[simp] theorem forget_scalarBinary (op : BinaryOp) (l r : Typed.Expr) (a b : Scalar) (span : Span) :
    forget (scalarBinary op l r a b span) = scalarBinary op l r a b .unknown := by
  unfold scalarBinary
  simp

@[simp] theorem forget_binary (op : BinaryOp) (l r : Typed.Expr) (span : Span) :
    forget (binary op l r span) = binary op l r .unknown := by
  unfold binary
  dsimp only
  rw [forget_ite]
  congr 1
  cases l.valueType <;> cases r.valueType <;> simp

@[simp] theorem forget_arithmeticUnary (op : UnaryOp) (e : Typed.Expr) (span : Span) :
    forget (arithmeticUnary op e span) = arithmeticUnary op e .unknown := by
  unfold arithmeticUnary
  cases e.valueType with
  | scalar s =>
    dsimp only
    rw [forget_ite, forget_ite]
    congr 2
    cases convert e s (s.common .int) with
    | literal v =>
      dsimp only
      cases op <;> cases (s.common .int).isInteger <;> cases v.negate? <;> rfl
    | _ => rfl
  | _ => rfl

@[simp] theorem forget_dereference (e : Typed.Expr) (span : Span) :
    forget (dereference e span) = dereference e .unknown := by
  unfold dereference
  simp

@[simp] theorem forget_element (base index : Typed.Expr) (span : Span) :
    forget (element base index span) = element base index .unknown := by
  unfold element
  cases base.valueType <;> cases index.valueType <;> simp

@[simp] theorem forget_variableAddress (s : Symbol) (span : Span) :
    forget (variableAddress s span) = variableAddress s .unknown := by
  unfold variableAddress
  cases s.type <;> rfl

@[simp] theorem forget_placeAddress (p : Place) (span : Span) :
    forget (placeAddress p span) = placeAddress p .unknown := by
  cases p with
  | object s => exact forget_variableAddress s span
  | pointee address pointer => rfl

theorem step_erase (env : Env) (e : Ast.Expr) (increment after : Bool) (span : Span) :
    step env e.erase increment after .unknown = forget (step env e increment after span) := by
  cases e with
  | name name s => simp [step, Ast.Expr.erase]
  | _ => rfl

/-- The three ways to look at an expression: for its value, as a target and for its address. -/
structure ExprForgets (env : Env) (e : Ast.Expr) : Prop where
  value : expr env e.erase = forget (expr env e)
  target : place env e.erase = forget (place env e)
  address (span : Span) : addressOf env e.erase .unknown = forget (addressOf env e span)

theorem exprForgets (env : Env) (e : Ast.Expr) : ExprForgets env e := by
  induction e using Ast.Expr.induct with
  | literal v span => exact ⟨rfl, rfl, fun _ => rfl⟩
  | name n span =>
    refine ⟨?_, ?_, fun span => ?_⟩
    · simp [Ast.Expr.erase, expr]
    · simp [Ast.Expr.erase, place]
    · simp [Ast.Expr.erase, addressOf]
  | binary op l r span ihl ihr =>
    refine ⟨?_, rfl, fun _ => rfl⟩
    simp [Ast.Expr.erase, expr, ihl.value, ihr.value]
  | unary op e span ih =>
    refine ⟨?_, ?_, ?_⟩
    · cases op <;> simp [Ast.Expr.erase, expr, ih.value, ih.address span, step_erase env e _ _ span]
    · cases op with
      | dereference => simp [Ast.Expr.erase, place, ih.value]
      | _ => rfl
    · intro span
      cases op with
      | dereference => simp [Ast.Expr.erase, addressOf, ih.value]
      | _ => rfl
  | assign op t v span iht ihv =>
    refine ⟨?_, rfl, fun _ => rfl⟩
    simp only [Ast.Expr.erase, expr, iht.target, forget_bind]
    congr 1
    funext target
    cases op <;> cases target <;> simp [ihv.value, compoundValue]
  | call f args span ih =>
    refine ⟨?_, rfl, fun _ => rfl⟩
    have harguments : ∀ types, arguments env (args.map Ast.Expr.erase) types =
        forget (arguments env args types) := by
      induction args with
      | nil =>
        intro types
        rfl
      | cons a args iha =>
        intro types
        cases types with
        | nil => rfl
        | cons type types =>
          simp [arguments, (ih a List.mem_cons_self).value, iha fun b hb => ih b (.tail a hb)]
    simp [Ast.Expr.erase, expr, harguments]
  | index a i span iha ihi =>
    refine ⟨?_, ?_, fun span => ?_⟩
    · simp [Ast.Expr.erase, expr, iha.value, ihi.value]
    · simp [Ast.Expr.erase, place, iha.value, ihi.value]
    · simp [Ast.Expr.erase, addressOf, iha.value, ihi.value]
  | cast type e span ih =>
    refine ⟨?_, rfl, fun _ => rfl⟩
    simp only [Ast.Expr.erase, expr, ih.value, forget_bind, forget_resolve, Ast.Expr.span_erase,
      forget_nonVoid]
    congr 1
    funext target
    congr 1
    funext value
    cases value.valueType <;> cases target <;> simp

end Expressions

/-! ### Initializers -/

theorem fold?_erase (e : Ast.Expr) : e.erase.fold? = e.fold? := by
  induction e using Ast.Expr.induct with
  | unary op e span ih =>
    rw [Ast.Expr.erase]
    cases op with
    | minus | plus => simp only [Ast.Expr.fold?, ih]
    | _ => rfl
  | cast type e span ih => simp only [Ast.Expr.erase, Ast.Expr.fold?, ih]
  | _ => rfl

theorem leaves_erase (i : Ast.Initializer) : i.erase.leaves = i.leaves.map Ast.Expr.erase := by
  induction i using Ast.Initializer.induct with
  | expr e => rfl
  | list items span ih =>
    show Ast.leavesOfAll (Ast.Initializer.eraseAll items) = (Ast.leavesOfAll items).map _
    induction items with
    | nil => rfl
    | cons i items ihs =>
      rw [Ast.Initializer.eraseAll, Ast.leavesOfAll, Ast.leavesOfAll, List.map_append,
        ih i List.mem_cons_self, ihs fun j hj => ih j (.tail i hj)]

@[simp] theorem forget_withinLength {α : Type} (name : String) (length : Nat) (span : Span)
    (values : List α) :
    forget (withinLength name length span values) = withinLength name length .unknown values := by
  unfold withinLength
  simp

theorem constantOf_erase (name : String) (type : CType) (e : Ast.Expr) :
    constantOf name type e.erase = forget (constantOf name type e) := by
  unfold constantOf
  rw [fold?_erase, Ast.Expr.span_erase]
  cases e.fold? with
  | none => rfl
  | some v =>
    dsimp only
    cases type with
    | pointer s => cases s <;> cases v <;> simp
    | scalar s =>
      dsimp only
      cases v.convert? s <;> rfl
    | _ => rfl

theorem arrayConstants_erase (name : String) (element : Scalar) (length : Nat)
    (init : Ast.Initializer) :
    arrayConstants name element length init.erase =
      forget (arrayConstants name element length init) := by
  cases init with
  | list items span =>
    have hleaves := leaves_erase (.list items span)
    have hspan := Ast.Initializer.span_erase (.list items span)
    have hconstants : ((Ast.Initializer.list items span).leaves.map Ast.Expr.erase).mapM
        (constantOf name (.scalar element)) =
          forget ((Ast.Initializer.list items span).leaves.mapM (constantOf name (.scalar element))) :=
      mapM_forget fun e _ => constantOf_erase name (.scalar element) e
    rw [Ast.Initializer.erase] at hleaves hspan ⊢
    cases element <;> simp only [arrayConstants, hleaves, hspan, hconstants, forget_bind,
      forget_withinLength]
  | expr e =>
    have hfold := fold?_erase e
    cases e
    case literal v span =>
      cases element with
      | char =>
        cases v with
        | str s => exact (forget_withinLength name length span _).symm
        | _ => rfl
      | _ => rfl
    all_goals
      rw [Ast.Expr.erase] at hfold
      rw [Ast.Initializer.erase, Ast.Expr.erase]
      cases element <;> simp only [arrayConstants, hfold, forget_refuse, Ast.Expr.span]

theorem globalInit_erase (name : String) (type : CType) (init : Ast.Initializer) :
    globalInit name type init.erase = forget (globalInit name type init) := by
  cases type with
  | array element length =>
    simp only [globalInit, arrayConstants_erase, forget_bind, forget_pure]
  | _ =>
    cases init with
    | expr e => simp only [globalInit, Ast.Initializer.erase, constantOf_erase, forget_bind, forget_pure]
    | list items span => rfl

theorem value_erase (env : Env) (e : Ast.Expr) : value env e.erase = forget (value env e) := by
  simp [value, (exprForgets env e).value]

theorem arrayElements_erase (env : Env) (name : String) (element : Scalar) (length : Nat)
    (init : Ast.Initializer) :
    arrayElements env name element length init.erase =
      forget (arrayElements env name element length init) := by
  cases init with
  | list items span =>
    have hleaves := leaves_erase (.list items span)
    have hspan := Ast.Initializer.span_erase (.list items span)
    have helements : ((Ast.Initializer.list items span).leaves.map Ast.Expr.erase).mapM
        (fun e => do coerce (← value env e) (.scalar element) e.span) =
          forget ((Ast.Initializer.list items span).leaves.mapM
            (fun e => do coerce (← value env e) (.scalar element) e.span)) :=
      mapM_forget fun e _ => by simp [value_erase]
    rw [Ast.Initializer.erase] at hleaves hspan ⊢
    cases element <;> simp only [arrayElements, hleaves, hspan, helements, forget_bind,
      forget_withinLength]
  | expr e =>
    have hvalue := value_erase env e
    cases e
    case literal v span =>
      cases element with
      | char =>
        cases v with
        | str s => exact (forget_withinLength name length span _).symm
        | _ => rfl
      | _ => cases v <;> rfl
    all_goals
      rw [Ast.Expr.erase] at hvalue
      rw [Ast.Initializer.erase, Ast.Expr.erase]
      cases element <;> simp only [arrayElements, hvalue, forget_bind, forget_refuse, Ast.Expr.span]

theorem localInit_erase (env : Env) (name : String) (type : CType) (init : Ast.Initializer) :
    localInit env name type init.erase = forget (localInit env name type init) := by
  cases type with
  | array element length =>
    simp only [localInit, arrayElements_erase, forget_bind, forget_pure]
  | _ =>
    cases init with
    | expr e => simp [localInit, Ast.Initializer.erase, value_erase]
    | list items span => rfl

/-! ### Statements -/

namespace Check

variable {α β γ δ : Type}

/-- With ranges forgotten the second check does what the first one does. -/
def Forgets (erase : α → β) (m : Check α) (m' : Check β) : Prop :=
  ∀ locals, exec m' locals = (erase <$> forget (exec m locals).1, (exec m locals).2)

section Forgets

variable {erase : α → β} {erase' : γ → δ} {m : Check α} {m' : Check β}

theorem Forgets.pure {a : α} {b : β} (h : b = erase a) : Forgets erase (pure a) (pure b) := by
  subst h
  exact fun _ => rfl

theorem Forgets.bind {f : α → Check γ} {f' : β → Check δ} (hm : Forgets erase m m')
    (hf : ∀ a, Forgets erase' (f a) (f' (erase a))) : Forgets erase' (m >>= f) (m' >>= f') := by
  intro locals
  rw [exec_bind, exec_bind, hm locals]
  obtain ⟨_ | a, l⟩ := exec m locals
  · rfl
  · exact hf a l

theorem Forgets.map {f : α → γ} {f' : β → δ} (hm : Forgets erase m m')
    (hf : ∀ a, f' (erase a) = erase' (f a)) : Forgets erase' (f <$> m) (f' <$> m') := by
  rw [map_eq_pure_bind, map_eq_pure_bind]
  exact hm.bind fun a => .pure (hf a)

theorem Forgets.refusal (fault : Fault) (span : Span) :
    Forgets erase (throw ⟨fault, span⟩) (throw ⟨fault, .unknown⟩) :=
  fun _ => rfl

theorem Forgets.refusalThen (fault : Fault) (span : Span) {f : γ → Check α} {f' : γ → Check β} :
    Forgets erase (throw ⟨fault, span⟩ >>= f) (throw ⟨fault, .unknown⟩ >>= f') :=
  fun _ => rfl

theorem Forgets.ite {c : Prop} [Decidable c] {k : Check α} {k' : Check β} (hm : Forgets erase m m')
    (hk : Forgets erase k k') : Forgets erase (if c then m else k) (if c then m' else k') := by
  split
  · exact hm
  · exact hk

theorem Forgets.withEnv {f f' : Env → Except Error α} (ctx : Context)
    (h : ∀ env, f' env = forget (f env)) : Forgets id (withEnv ctx f) (withEnv ctx f') := by
  intro locals
  show (f' ⟨locals.scopes, ctx.functions⟩, locals) = _
  rw [h, ← id_map (forget (f ⟨locals.scopes, ctx.functions⟩))]
  rfl

theorem Forgets.get : Forgets id (get : Check Locals) (get : Check Locals) := fun _ => rfl

theorem Forgets.inBlock (h : Forgets erase m m') : Forgets erase (inBlock m) (inBlock m') := by
  intro locals
  rw [exec_inBlock, exec_inBlock, h]

end Forgets

end Check

theorem resolve_forgets (t : Ast.TypeName) (span : Span) :
    Check.Forgets id (t.resolve span : Check CType) (t.resolve .unknown : Check CType) := by
  intro locals
  unfold Ast.TypeName.resolve
  cases t.resolve? <;> rfl

theorem reserve_forgets (name : String) (type : CType) (span : Span) :
    Check.Forgets id (Check.reserve name type span) (Check.reserve name type .unknown) := by
  intro locals
  unfold Check.exec Check.reserve Frame.allocate
  dsimp only
  by_cases hsize : (locals.frame.extend type).size < 0x80000000
  · simp only [if_pos hsize]
    rfl
  · simp only [if_neg hsize]
    rfl

theorem declare_forgets (s : Symbol) (span : Span) :
    Check.Forgets id (Check.declare s span) (Check.declare s .unknown) := by
  intro locals
  unfold Check.exec Check.declare Scopes.declare
  by_cases htaken : locals.scopes.declares s.name = true
  · simp only [if_pos htaken]
    rfl
  · simp only [if_neg htaken]
    rfl

theorem Check.Forgets.option {α β γ δ : Type} (erase : α → β) (erase' : γ → δ) {f : α → Check γ}
    {f' : β → Check δ} (x : Option α) (h : ∀ a ∈ x, Check.Forgets erase' (f a) (f' (erase a))) :
    Check.Forgets (Option.map erase') (x.mapM f) ((x.map erase).mapM f') := by
  cases x with
  | none => exact .pure rfl
  | some a => exact (h a rfl).map fun _ => rfl

theorem Check.Forgets.list {α β γ δ : Type} {erase : α → β} {erase' : γ → δ} {f : α → Check γ}
    {f' : β → Check δ} (xs : List α) (h : ∀ a ∈ xs, Check.Forgets erase' (f a) (f' (erase a))) :
    Check.Forgets (List.map erase') (xs.mapM f) ((xs.map erase).mapM f') := by
  induction xs with
  | nil => exact .pure rfl
  | cons x xs ih =>
    rw [List.map_cons, List.mapM_cons, List.mapM_cons]
    refine .bind (h x List.mem_cons_self) fun _ => ?_
    exact .bind (ih fun y hy => h y (.tail x hy)) fun _ => .pure rfl

theorem mapM_forgets {α β : Type} {erase : α → α} {f : α → Check β} (x : Option α)
    (h : ∀ a, Check.Forgets id (f a) (f (erase a))) : Check.Forgets id (x.mapM f) ((x.map erase).mapM f) := by
  rw [← Option.map_id]
  exact .option erase id x fun a _ => h a

theorem declaration_forgets (ctx : Context) (d : Ast.Declaration) :
    Check.Forgets Typed.Stmt.erase (declaration ctx d) (declaration ctx d.erase) := by
  unfold declaration
  refine .bind (resolve_forgets d.type d.span) fun type => ?_
  refine .ite (.refusalThen _ _) (.bind (mapM_forgets d.init fun init => ?_) fun init => ?_)
  · exact .withEnv ctx fun env => localInit_erase env d.name type init
  refine .bind .get fun locals => .ite (.refusalThen _ _) ?_
  refine .bind (reserve_forgets d.name type d.span) fun symbol => ?_
  exact .bind (declare_forgets symbol d.span) fun _ => .pure rfl

theorem declarations_forgets (ctx : Context) (ds : List Ast.Declaration) :
    Check.Forgets Typed.Stmt.erase (declarations ctx ds)
      (declarations ctx (ds.map Ast.Declaration.erase)) := by
  unfold declarations
  refine .bind (.list ds fun d _ => declaration_forgets ctx d) fun typed => ?_
  obtain _ | ⟨s, _ | ⟨s', ss⟩⟩ := typed
  · exact .pure rfl
  · exact .pure rfl
  · refine .pure ?_
    rw [Typed.Stmt.erase, Typed.Stmt.eraseAll_eq_map]
    rfl

theorem returned_erase (env : Env) (result : CType) (e : Ast.Expr) (span : Span) :
    returned env result e.erase .unknown = forget (returned env result e span) := by
  unfold returned
  rw [value_erase, forget_bind, Ast.Expr.span_erase]
  congr 1
  funext v
  rw [forget_ite, forget_refuse]
  congr 1
  rw [← forget_coerce v result e.span]
  cases coerce v result e.span with
  | ok converted => rfl
  | error error =>
    obtain ⟨fault, at_⟩ := error
    cases fault <;> rfl

theorem ret_forgets (ctx : Context) (e : Option Ast.Expr) (span : Span) :
    Check.Forgets Typed.Stmt.erase (ret ctx e span) (ret ctx (e.map Ast.Expr.erase) .unknown) := by
  cases e with
  | some e =>
    refine .bind (.withEnv ctx fun env => returned_erase env ctx.result e span) fun v => ?_
    exact .pure rfl
  | none => exact .ite (.pure rfl) (.refusal _ _)

theorem checkValue_forgets (ctx : Context) (e : Ast.Expr) :
    Check.Forgets id (checkValue ctx e) (checkValue ctx e.erase) :=
  .withEnv ctx fun env => value_erase env e

theorem withEnv_expr_forgets (ctx : Context) (e : Ast.Expr) :
    Check.Forgets id (Check.withEnv ctx fun env => expr env e)
      (Check.withEnv ctx fun env => expr env e.erase) :=
  .withEnv ctx fun env => (exprForgets env e).value

theorem stmts_forgets (ctx : Context) {body : List Ast.Stmt}
    (h : ∀ s ∈ body, Check.Forgets Typed.Stmt.erase (stmt ctx s) (stmt ctx s.erase)) :
    Check.Forgets (List.map Typed.Stmt.erase) (stmts ctx body)
      (stmts ctx (body.map Ast.Stmt.erase)) := by
  induction body with
  | nil => exact .pure rfl
  | cons s body ih =>
    refine .bind (h s List.mem_cons_self) fun _ => ?_
    exact .bind (ih fun s' hs' => h s' (.tail s hs')) fun _ => .pure rfl

theorem optionalStmt_forgets (ctx : Context) {s : Option Ast.Stmt}
    (h : ∀ s' ∈ s, Check.Forgets Typed.Stmt.erase (stmt ctx s') (stmt ctx s'.erase)) :
    Check.Forgets (Option.map Typed.Stmt.erase) (optionalStmt ctx s)
      (optionalStmt ctx (s.map Ast.Stmt.erase)) := by
  cases s with
  | none => exact .pure rfl
  | some s => exact .bind (h s rfl) fun _ => .pure rfl

theorem stmt_forgets (ctx : Context) (s : Ast.Stmt) :
    Check.Forgets Typed.Stmt.erase (stmt ctx s) (stmt ctx s.erase) := by
  induction s using Ast.Stmt.induct with
  | expr e span => exact .bind (withEnv_expr_forgets ctx e) fun _ => .pure rfl
  | block body span ih =>
    rw [Ast.Stmt.erase, Ast.Stmt.eraseAll_eq_map]
    refine .bind (stmts_forgets ctx ih).inBlock fun typed => .pure ?_
    rw [Typed.Stmt.erase, Typed.Stmt.eraseAll_eq_map]
  | declare ds span => exact declarations_forgets ctx ds
  | print e span => exact .bind (checkValue_forgets ctx e) fun _ => .pure rfl
  | cond c t e span iht ihe =>
    rw [Ast.Stmt.erase, Ast.Stmt.eraseOption_eq_map]
    refine .bind (checkValue_forgets ctx c) fun c' => .bind iht fun t' => ?_
    refine .bind (optionalStmt_forgets ctx ihe) fun e' => .pure ?_
    rw [Typed.Stmt.erase, Typed.Stmt.eraseOption_eq_map]
    rfl
  | whileLoop c b span ihb =>
    exact .bind (checkValue_forgets ctx c) fun c' => .bind ihb fun b' => .pure rfl
  | forLoop i c u b span ihi ihb =>
    rw [Ast.Stmt.erase, Ast.Stmt.eraseOption_eq_map]
    refine .inBlock (.bind (optionalStmt_forgets ctx ihi) fun i' => ?_)
    refine .bind (mapM_forgets c (checkValue_forgets ctx)) fun c' => ?_
    refine .bind (mapM_forgets u (withEnv_expr_forgets ctx)) fun u' => .bind ihb fun b' => .pure ?_
    rw [Typed.Stmt.erase, Typed.Stmt.eraseOption_eq_map]
    rfl
  | ret v span => exact ret_forgets ctx v span
  | empty span => exact .pure rfl

/-! ### Files -/

namespace Known

theorem signature_erase (f : Ast.Function) : signature f.erase = forget (signature f) := by
  have hparameters : (f.parameters.map Ast.Parameter.erase).mapM
      (fun p => do
        let type ← p.type.resolve p.span
        if type.isVoid then refuse (.unsupported (.voidParameter p.name)) p.span else return type) =
      forget (f.parameters.mapM fun p => do
        let type ← p.type.resolve p.span
        if type.isVoid then refuse (.unsupported (.voidParameter p.name)) p.span else return type) :=
    mapM_forget fun p _ => by simp [Ast.Parameter.erase]
  unfold signature
  simp only [Ast.Function.erase, forget_bind, forget_resolve, forget_ite, forget_refuse,
    forget_pure, hparameters, Option.isSome_map]

theorem addFunction_erase (k : Known) (f : Ast.Function) :
    k.addFunction f.erase = forget (k.addFunction f) := by
  unfold addFunction
  rw [signature_erase, forget_bind]
  congr 1
  funext new
  rw [forget_ite, forget_refuse]
  congr 1
  dsimp only [Ast.Function.erase]
  cases k.functions.find? f.name with
  | none => rfl
  | some old =>
    dsimp only
    rw [forget_ite]
    rfl

@[simp] theorem forget_declare (s : Scopes) (symbol : Symbol) (span : Span) :
    forget (s.declare symbol span) = s.declare symbol .unknown := by
  unfold Scopes.declare
  simp

theorem addGlobal_erase (k : Known) (d : Ast.Declaration) :
    k.addGlobal d.erase =
      (fun r => (r.1.erase, r.2)) <$> forget (k.addGlobal d) := by
  have hinit : ∀ type, (d.init.map Ast.Initializer.erase).mapM (globalInit d.name type) =
      forget (d.init.mapM (globalInit d.name type)) := by
    intro type
    cases d.init with
    | none => rfl
    | some init => simp [globalInit_erase]
  unfold addGlobal
  simp only [Ast.Declaration.erase, hinit, forget_bind, forget_resolve, forget_ite, forget_refuse,
    forget_declare, forget_pure, map_bind]
  congr 1
  funext type
  split
  · rfl
  · split
    · rfl
    · simp only [map_bind, map_pure]
      rfl

theorem addGlobals_erase (k : Known) (ds : List Ast.Declaration) :
    k.addGlobals (ds.map Ast.Declaration.erase) =
      (List.map Typed.Global.erase <$> forget (k.addGlobals ds).1, (k.addGlobals ds).2) := by
  induction ds generalizing k with
  | nil => rfl
  | cons d ds ih =>
    rw [List.map_cons, addGlobals, addGlobals, addGlobal_erase]
    cases k.addGlobal d with
    | error e => rfl
    | ok r =>
      obtain ⟨g, k'⟩ := r
      show ((k'.addGlobals (ds.map Ast.Declaration.erase)).1.map _, _) = _
      rw [ih k']
      show _ = (List.map Typed.Global.erase <$> forget ((k'.addGlobals ds).1.map (g :: ·)), _)
      cases (k'.addGlobals ds).1 <;> rfl

theorem addItem_erase (k : Known) (item : Ast.Item) :
    k.addItem item.erase =
      (List.map Typed.Global.erase <$> forget (k.addItem item).1, (k.addItem item).2) := by
  cases item with
  | function f =>
    rw [Ast.Item.erase, addItem, addItem, addFunction_erase]
    cases k.addFunction f <;> rfl
  | declare ds => exact addGlobals_erase k ds

theorem addItems_erase (k : Known) (items : List Ast.Item) :
    k.addItems (items.map Ast.Item.erase) =
      (List.map Typed.Global.erase <$> forget (k.addItems items).1, (k.addItems items).2) := by
  induction items generalizing k with
  | nil => rfl
  | cons item items ih =>
    rw [List.map_cons, addItems, addItems, addItem_erase]
    obtain ⟨result, k'⟩ := k.addItem item
    cases result with
    | error e => rfl
    | ok gs =>
      show ((k'.addItems (items.map Ast.Item.erase)).1.map _, _) = _
      rw [ih k']
      show _ = (List.map Typed.Global.erase <$> forget ((k'.addItems items).1.map (gs ++ ·)), _)
      cases (k'.addItems items).1 with
      | error e => rfl
      | ok others => simp [Except.map, forget, Except.mapError, Functor.map]

end Known

theorem parameters_forgets (ps : List Ast.Parameter) (types : List CType) :
    Check.Forgets id (parameters ps types) (parameters (ps.map Ast.Parameter.erase) types) := by
  induction ps generalizing types with
  | nil => exact .pure rfl
  | cons p ps ih =>
    cases types with
    | nil => exact .pure rfl
    | cons type types =>
      refine .bind (reserve_forgets p.name type p.span) fun symbol => ?_
      refine .bind (declare_forgets symbol p.span) fun _ => .bind (ih types) fun others => ?_
      exact .pure rfl

theorem bodyStmts_erase (s : Ast.Stmt) : bodyStmts s.erase = (bodyStmts s).map Ast.Stmt.erase := by
  cases s with
  | block body span => exact Ast.Stmt.eraseAll_eq_map body
  | _ => rfl

theorem functionBody_forgets (ctx : Context) (f : Ast.Function) (types : List CType)
    (body : Ast.Stmt) :
    Check.Forgets (fun r => (r.1, r.2.map Typed.Stmt.erase)) (functionBody ctx f types body)
      (functionBody ctx f.erase types body.erase) := by
  unfold functionBody
  refine .bind (parameters_forgets f.parameters types) fun ps => ?_
  rw [bodyStmts_erase]
  exact .bind (stmts_forgets ctx fun s _ => stmt_forgets ctx s) fun body => .pure rfl

theorem function_erase (k : Known) (f : Ast.Function) (body : Ast.Stmt) :
    (function k f.erase body.erase).1 =
      Typed.Function.erase <$> forget (function k f body).1 := by
  unfold function
  rw [show f.erase.name = f.name from rfl]
  cases k.functions.find? f.name with
  | none => rfl
  | some signature =>
    dsimp only
    rw [(functionBody_forgets ⟨k.functions, signature.result⟩ f signature.parameters body).inBlock]
    cases (Check.exec (Check.inBlock (functionBody ⟨k.functions, signature.result⟩ f
      signature.parameters body)) { scopes := k.scopes }).1 <;> rfl

theorem functions_erase (k : Known) (items : List Ast.Item) :
    (functions k (items.map Ast.Item.erase)).1 =
      List.map Typed.Function.erase <$> forget (functions k items).1 := by
  induction items with
  | nil => rfl
  | cons item items ih =>
    -- Only functions with a body are looked at.
    obtain ⟨name, result, ps, _ | body, span⟩ | ds := item
    · exact ih
    · have hfunction := function_erase k ⟨name, result, ps, some body, span⟩ body
      rw [functions_definition]
      show (functions k (.function (Ast.Function.erase ⟨name, result, ps, some body, span⟩) ::
        items.map Ast.Item.erase)).1 = _
      rw [Ast.Function.erase, Option.map_some, functions_definition]
      show (do
        let f ← (function k (Ast.Function.erase ⟨name, result, ps, some body, span⟩) body.erase).1
        let others ← (functions k (items.map Ast.Item.erase)).1
        return f :: others) = _
      rw [hfunction, ih]
      cases (function k ⟨name, result, ps, some body, span⟩ body).1 with
      | error e => rfl
      | ok f => cases (functions k items).1 <;> rfl
    · exact ih

/-- **Checking does not look at layout.** -/
theorem check_erase (p : Ast.Program) :
    check p.erase = Typed.Program.erase <$> forget (check p) := by
  unfold check program
  rw [Ast.Program.erase, Known.addItems_erase]
  obtain ⟨result, k⟩ := Known.addItems {} p.items
  cases result with
  | error e => rfl
  | ok globals =>
    show ((functions k (p.items.map Ast.Item.erase)).1.map _ : Except Error Typed.Program) = _
    rw [functions_erase]
    show _ = Typed.Program.erase <$> forget ((functions k p.items).1.map _)
    cases (functions k p.items).1 <;> rfl

end MiniC.Typing
