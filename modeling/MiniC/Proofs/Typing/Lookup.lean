import MiniC.Proofs.Typing.Names

/-!
# What is accepted stays accepted when more is known

A body sees global objects and functions only by looking names up, and a name that is not found is a
refusal. So a function that is accepted is accepted with the same typed body and frame wherever every
name it can look up means the same, whatever else is known there and in whatever order
(`function_follows`). A name of a local object hides a new global one, so new names cannot get in the
way.

Blocks open and close while a body is checked, so the statement that goes through is about two runs
from states of which the second knows more (`Check.Follows`).
-/

set_option autoImplicit false

namespace MiniC.Typing

/-! ### What one check accepts another does too -/

/-- What the first gives, the second gives too. -/
def Follows {α : Type} (x y : Except Error α) : Prop := ∀ a, x = .ok a → y = .ok a

section Follows

variable {α β : Type} {x y : Except Error α}

theorem Follows.refl (x : Except Error α) : Follows x x := fun _ h => h

theorem Follows.refused (fault : Fault) (span : Span) (y : Except Error α) :
    Follows (refuse fault span) y := fun _ h => by cases h

theorem Follows.bind {f g : α → Except Error β} (h : Follows x y) (hf : ∀ a, Follows (f a) (g a)) :
    Follows (x >>= f) (y >>= g) := by
  intro b hb
  cases x with
  | error e => cases hb
  | ok a =>
    rw [h a rfl]
    exact hf a b hb

theorem Follows.andThen (h : Follows x y) (f : α → Except Error β) : Follows (x >>= f) (y >>= f) :=
  h.bind fun _ => .refl _

theorem Follows.list {f g : β → Except Error α} (xs : List β) (h : ∀ b ∈ xs, Follows (f b) (g b)) :
    Follows (xs.mapM f) (xs.mapM g) := by
  induction xs with
  | nil => exact .refl _
  | cons x xs ih =>
    rw [List.mapM_cons, List.mapM_cons]
    refine (h x List.mem_cons_self).bind fun _ => ?_
    exact (ih fun b hb => h b (.tail x hb)).andThen _

theorem Follows.toOption_eq (h : Follows x y) (h' : Follows y x) : x.toOption = y.toOption := by
  cases x with
  | ok a => rw [h a rfl]
  | error e =>
    cases y with
    | ok b => cases h' b rfl
    | error e' => rfl

end Follows

/-! ### Expressions -/

/-- Names mean in the second what they mean in the first. A function may have got a body since. -/
structure Env.Extends (env env' : Env) : Prop where
  objects : ∀ name o, env.scopes.lookup? name = some o → env'.scopes.lookup? name = some o
  functions : ∀ name old, env.functions.find? name = some old →
    ∃ new, env'.functions.find? name = some new ∧ new.result = old.result ∧
      new.parameters = old.parameters

section Expressions

variable {env env' : Env}

theorem Env.Extends.object (h : env.Extends env') (name : String) (span : Span) :
    Follows (env.object name span) (env'.object name span) := by
  intro o ho
  unfold Env.object at ho ⊢
  cases hfind : env.scopes.lookup? name with
  | none =>
    rw [hfind] at ho
    cases ho
  | some found =>
    rw [hfind] at ho
    rw [h.objects name found hfind]
    exact ho

theorem Env.Extends.function {α : Type} (h : env.Extends env') (name : String) (span : Span)
    {f g : Signature → Except Error α}
    (hf : ∀ old new : Signature, new.result = old.result → new.parameters = old.parameters →
      Follows (f old) (g new)) :
    Follows (env.function name span >>= f) (env'.function name span >>= g) := by
  intro a ha
  unfold Env.function at ha ⊢
  cases hfind : env.functions.find? name with
  | none =>
    rw [hfind] at ha
    cases ha
  | some old =>
    rw [hfind] at ha
    obtain ⟨new, hnew, hresult, hparameters⟩ := h.functions name old hfind
    rw [hnew]
    exact hf old new hresult hparameters a ha

/-- An expression that is accepted is accepted for its value, as a target and for its address. -/
structure ExprFollows (env env' : Env) (e : Ast.Expr) : Prop where
  value : Follows (expr env e) (expr env' e)
  target : Follows (place env e) (place env' e)
  address (span : Span) : Follows (addressOf env e span) (addressOf env' e span)

theorem step_follows (h : env.Extends env') (e : Ast.Expr) (increment after : Bool) (span : Span) :
    Follows (step env e increment after span) (step env' e increment after span) := by
  cases e with
  | name name s => exact (h.object name span).andThen _
  | _ => exact .refl _

theorem arguments_follows {args : List Ast.Expr} (h : ∀ a ∈ args, Follows (expr env a) (expr env' a))
    (types : List CType) : Follows (arguments env args types) (arguments env' args types) := by
  induction args generalizing types with
  | nil => exact .refl _
  | cons a args ih =>
    cases types with
    | nil => exact .refl _
    | cons type types =>
      simp only [arguments]
      refine ((h a List.mem_cons_self).andThen _).bind fun v => Follows.bind (.refl _) fun w => ?_
      exact (ih (fun b hb => h b (.tail a hb)) types).andThen _

theorem operands_follow {a b : Ast.Expr} {α : Type} (ha : Follows (expr env a) (expr env' a))
    (hb : Follows (expr env b) (expr env' b)) (f : Typed.Expr → Typed.Expr → Except Error α) :
    Follows
      (do
        let l ← expr env a >>= nonVoid a.span
        let r ← expr env b >>= nonVoid b.span
        f l r)
      (do
        let l ← expr env' a >>= nonVoid a.span
        let r ← expr env' b >>= nonVoid b.span
        f l r) :=
  (ha.andThen _).bind fun _ => (hb.andThen _).andThen _

theorem exprFollows (h : env.Extends env') (e : Ast.Expr) : ExprFollows env env' e := by
  induction e using Ast.Expr.induct with
  | literal v span => exact ⟨.refl _, .refl _, fun _ => .refl _⟩
  | name n span =>
    exact ⟨(h.object n span).andThen _, (h.object n span).andThen _,
      fun span' => (h.object n span').andThen _⟩
  | binary op l r span ihl ihr =>
    exact ⟨operands_follow ihl.value ihr.value _, .refl _, fun _ => .refl _⟩
  | unary op e span ih =>
    refine ⟨?_, ?_, fun span' => ?_⟩
    · cases op with
      | addressOf => exact ih.address span
      | preIncrement => exact step_follows h e true false span
      | postIncrement => exact step_follows h e true true span
      | preDecrement => exact step_follows h e false false span
      | postDecrement => exact step_follows h e false true span
      | _ => exact (ih.value.andThen _).andThen _
    · cases op with
      | dereference => exact (ih.value.andThen _).andThen _
      | _ => exact .refl _
    · cases op with
      | dereference => exact (ih.value.andThen _).andThen _
      | _ => exact .refl _
  | assign op t v span iht ihv =>
    refine ⟨iht.target.bind fun target => ?_, .refl _, fun _ => .refl _⟩
    cases op with
    | assign => exact (ihv.value.andThen _).andThen _
    | compound op =>
      cases target with
      | object symbol => exact (ihv.value.andThen _).andThen _
      | pointee address type => exact .refl _
  | call f args span ih =>
    refine ⟨?_, .refl _, fun _ => .refl _⟩
    simp only [expr]
    refine h.function f span fun old new hresult hparameters => ?_
    rw [hresult, hparameters]
    split
    · exact .refused _ _ _
    · exact (arguments_follows (fun a ha => (ih a ha).value) old.parameters).andThen _
  | index a i span iha ihi =>
    exact ⟨operands_follow iha.value ihi.value _, operands_follow iha.value ihi.value _,
      fun _ => operands_follow iha.value ihi.value _⟩
  | cast type e span ih =>
    exact ⟨Follows.bind (.refl _) fun target => (ih.value.andThen _).andThen _, .refl _, fun _ => .refl _⟩

theorem value_follows (h : env.Extends env') (e : Ast.Expr) :
    Follows (value env e) (value env' e) :=
  (exprFollows h e).value.andThen _

theorem arrayElements_follows (h : env.Extends env') (name : String) (element : Scalar)
    (length : Nat) (init : Ast.Initializer) :
    Follows (arrayElements env name element length init)
      (arrayElements env' name element length init) := by
  unfold arrayElements
  split
  · exact .refl _
  · exact (value_follows h _).andThen _
  · refine Follows.andThen (.list _ fun e _ => ?_) _
    exact (value_follows h e).andThen _

theorem localInit_follows (h : env.Extends env') (name : String) (type : CType)
    (init : Ast.Initializer) :
    Follows (localInit env name type init) (localInit env' name type init) := by
  unfold localInit
  split
  · exact (arrayElements_follows h name _ _ _).andThen _
  · exact (value_follows h _).andThen _
  · exact .refl _

theorem returned_follows (h : env.Extends env') (result : CType) (e : Ast.Expr) (span : Span) :
    Follows (returned env result e span) (returned env' result e span) :=
  (value_follows h e).andThen _

end Expressions

/-! ### Statements -/

/-- The same blocks are open, at least one, and all global objects of the first are in the second. -/
structure Scopes.Extends (s s' : Scopes) : Prop where
  blocks : s.blocks = s'.blocks
  inside : s.blocks ≠ []
  globals : ∀ name o, Scope.find? s.globals name = some o → Scope.find? s'.globals name = some o

/-- The second state knows more global objects; the frame is the same. -/
structure Locals.Extends (l l' : Locals) : Prop where
  scopes : l.scopes.Extends l'.scopes
  frame : l.frame = l'.frame

/-- The second context knows more functions; the same type is returned. -/
structure Context.Extends (ctx ctx' : Context) : Prop where
  functions : ∀ name old, ctx.functions.find? name = some old →
    ∃ new, ctx'.functions.find? name = some new ∧ new.result = old.result ∧
      new.parameters = old.parameters
  result : ctx.result = ctx'.result

namespace Scopes.Extends

variable {s s' : Scopes}

theorem lookup? (h : s.Extends s') {name : String} {o : Symbol} (ho : s.lookup? name = some o) :
    s'.lookup? name = some o := by
  unfold Scopes.lookup? at ho ⊢
  rw [← h.blocks]
  split at ho
  · exact ho
  · exact h.globals name o ho

theorem declares (h : s.Extends s') (name : String) : s.declares name = s'.declares name := by
  have hcurrent : s.current = s'.current := by
    unfold current
    rw [← h.blocks]
    cases hblocks : s.blocks with
    | nil => exact absurd hblocks h.inside
    | cons block outer => rfl
  unfold Scopes.declares
  rw [hcurrent]

theorem push (h : s.Extends s') : s.push.Extends s'.push :=
  ⟨congrArg ([] :: ·) h.blocks, List.cons_ne_nil _ _, h.globals⟩

theorem insert (h : s.Extends s') (o : Symbol) : (s.insert o).Extends (s'.insert o) := by
  obtain ⟨globals, _ | ⟨block, outer⟩⟩ := s
  · exact absurd rfl h.inside
  · obtain ⟨globals', blocks'⟩ := s'
    cases h.blocks
    exact ⟨rfl, List.cons_ne_nil _ _, h.globals⟩

end Scopes.Extends

namespace Check

variable {α β : Type}

/-- From a state that knows more, the second check accepts what the first does. -/
def Follows (m m' : Check α) : Prop :=
  ∀ l l' : Locals, l.Extends l' → ∀ a l1, exec m l = (.ok a, l1) →
    ∃ l1', exec m' l' = (.ok a, l1') ∧ l1.Extends l1'

section Follows

variable {m m' : Check α} {ctx ctx' : Context}

theorem Follows.pure (a : α) : Follows (pure a) (pure a) := by
  intro l l' hl b l1 h
  obtain ⟨rfl, rfl⟩ := pure_eq_ok h
  exact ⟨l', rfl, hl⟩

theorem Follows.refusal (e : Error) (m' : Check α) : Follows (throw e) m' :=
  fun _ _ _ _ _ h => by cases h

theorem Follows.refusalThen (e : Error) {f : β → Check α} (m' : Check α) :
    Follows (throw e >>= f) m' :=
  fun _ _ _ _ _ h => by cases h

theorem Follows.bind {f f' : α → Check β} (hm : Follows m m') (hf : ∀ a, Follows (f a) (f' a)) :
    Follows (m >>= f) (m' >>= f') := by
  intro l l' hl b l2 h
  obtain ⟨a, l1, ha, hb⟩ := bind_eq_ok h
  obtain ⟨l1', ha', hl1⟩ := hm l l' hl a l1 ha
  obtain ⟨l2', hb', hl2⟩ := hf a l1 l1' hl1 b l2 hb
  refine ⟨l2', ?_, hl2⟩
  rw [exec_bind, ha']
  exact hb'

theorem Follows.map {f : α → β} (hm : Follows m m') : Follows (f <$> m) (f <$> m') := by
  rw [map_eq_pure_bind, map_eq_pure_bind]
  exact hm.bind fun a => .pure (f a)

theorem Follows.ite {c : Prop} [Decidable c] {k k' : Check α} (hm : Follows m m')
    (hk : Follows k k') : Follows (if c then m else k) (if c then m' else k') := by
  split
  · exact hm
  · exact hk

theorem Follows.withEnv (hctx : ctx.Extends ctx') {f f' : Env → Except Error α}
    (hf : ∀ {env env' : Env}, env.Extends env' → Typing.Follows (f env) (f' env')) :
    Follows (withEnv ctx f) (withEnv ctx' f') := by
  intro l l' hl a l1 h
  obtain ⟨ha, rfl⟩ := withEnv_eq_ok h
  have henv : Env.Extends ⟨l1.scopes, ctx.functions⟩ ⟨l'.scopes, ctx'.functions⟩ :=
    ⟨fun _ _ ho => hl.scopes.lookup? ho, hctx.functions⟩
  exact ⟨l', congrArg (·, l') (hf henv a ha), hl⟩

/-- A block leaves the scopes as they were, so after it they are related as before. -/
theorem Follows.inBlock (hm : Gains m) (hm' : Gains m') (h : Follows m m') :
    Follows (inBlock m) (inBlock m') := by
  intro l l' hl a l1 hrun
  have hrestored := hm.inBlock l
  have hrestored' := hm'.inBlock l'
  rw [hrun] at hrestored
  obtain ⟨l2, hbody, rfl⟩ := inBlock_eq_ok hrun
  have hpushed : Locals.Extends { l with scopes := l.scopes.push } { l' with scopes := l'.scopes.push } :=
    ⟨hl.scopes.push, hl.frame⟩
  obtain ⟨l2', hbody', hl2⟩ := h _ _ hpushed a l2 hbody
  rw [exec_inBlock, hbody'] at hrestored' ⊢
  refine ⟨_, rfl, ?_, hl2.frame⟩
  rw [hrestored, hrestored']
  exact hl.scopes

theorem Follows.reserve (name : String) (type : CType) (span : Span) :
    Follows (reserve name type span) (reserve name type span) := by
  intro l l' hl o l1 h
  unfold exec Check.reserve at h ⊢
  rw [← hl.frame]
  cases hplace : l.frame.allocate name type span with
  | error e =>
    rw [hplace] at h
    cases h
  | ok r =>
    rw [hplace] at h
    cases h
    exact ⟨_, rfl, hl.scopes, rfl⟩

theorem Follows.declare (o : Symbol) (span : Span) : Follows (declare o span) (declare o span) := by
  intro l l' hl u l1 h
  unfold exec Check.declare Scopes.declare at h ⊢
  rw [← hl.scopes.declares]
  by_cases htaken : l.scopes.declares o.name = true
  · rw [if_pos htaken] at h
    cases h
  · rw [if_neg htaken] at h ⊢
    cases h
    exact ⟨_, rfl, hl.scopes.insert o, hl.frame⟩

/-- What depends on whether a name is declared in the innermost scope. -/
theorem Follows.ifDeclared (name : String) {k k' : Check α} (hm : Follows m m') (hk : Follows k k') :
    Follows (do if (← get).scopes.declares name then m else k)
      (do if (← get).scopes.declares name then m' else k') := by
  intro l l' hl a l1 h
  change exec (if l.scopes.declares name then m else k) l = _ at h
  show ∃ l1', exec (if l'.scopes.declares name then m' else k') l' = (.ok a, l1') ∧ l1.Extends l1'
  rw [← hl.scopes.declares]
  exact Follows.ite hm hk l l' hl a l1 h

theorem Follows.option {f f' : β → Check α} (x : Option β) (h : ∀ a ∈ x, Follows (f a) (f' a)) :
    Follows (x.mapM f) (x.mapM f') := by
  cases x with
  | none => exact .pure none
  | some a => exact (h a rfl).map

theorem Follows.list {f f' : β → Check α} (xs : List β) (h : ∀ a ∈ xs, Follows (f a) (f' a)) :
    Follows (xs.mapM f) (xs.mapM f') := by
  induction xs with
  | nil => exact .pure []
  | cons x xs ih =>
    rw [List.mapM_cons, List.mapM_cons]
    refine .bind (h x List.mem_cons_self) fun _ => ?_
    exact .bind (ih fun y hy => h y (.tail x hy)) fun _ => .pure _

end Follows

end Check

section Statements

variable {ctx ctx' : Context}

theorem declaration_follows (hctx : ctx.Extends ctx') (d : Ast.Declaration) :
    Check.Follows (declaration ctx d) (declaration ctx' d) := by
  have hresolve : Check.Follows (d.type.resolve d.span : Check CType) (d.type.resolve d.span) := by
    intro l l' hl type l1 h
    obtain ⟨htype, rfl⟩ := Check.lift_eq_ok h
    exact ⟨l', congrArg (·, l') htype, hl⟩
  unfold declaration
  refine .bind hresolve fun type => .ite (.refusalThen _ _) ?_
  refine .bind (.option d.init fun init _ => .withEnv hctx fun henv => ?_) fun init => ?_
  · exact localInit_follows henv d.name type init
  · refine .ifDeclared d.name (.refusalThen _ _) (.bind (.reserve d.name type d.span) fun symbol => ?_)
    exact .bind (.declare symbol d.span) fun _ => .pure _

theorem declarations_follow (hctx : ctx.Extends ctx') (ds : List Ast.Declaration) :
    Check.Follows (declarations ctx ds) (declarations ctx' ds) := by
  refine .bind (.list ds fun d _ => declaration_follows hctx d) fun typed => ?_
  obtain _ | ⟨s, _ | ⟨s', ss⟩⟩ := typed
  all_goals exact .pure _

theorem checkValue_follows (hctx : ctx.Extends ctx') (e : Ast.Expr) :
    Check.Follows (checkValue ctx e) (checkValue ctx' e) :=
  .withEnv hctx fun henv => value_follows henv e

theorem withEnv_expr_follows (hctx : ctx.Extends ctx') (e : Ast.Expr) :
    Check.Follows (Check.withEnv ctx fun env => expr env e)
      (Check.withEnv ctx' fun env => expr env e) :=
  .withEnv hctx fun henv => (exprFollows henv e).value

theorem ret_follows (hctx : ctx.Extends ctx') (e : Option Ast.Expr) (span : Span) :
    Check.Follows (ret ctx e span) (ret ctx' e span) := by
  unfold ret
  rw [← hctx.result]
  cases e with
  | some e => exact .bind (.withEnv hctx fun henv => returned_follows henv _ e span) fun v => .pure _
  | none => exact .ite (.pure _) (.refusal _ _)

theorem stmts_follow {body : List Ast.Stmt}
    (h : ∀ s ∈ body, Check.Follows (stmt ctx s) (stmt ctx' s)) :
    Check.Follows (stmts ctx body) (stmts ctx' body) := by
  induction body with
  | nil => exact .pure []
  | cons s body ih =>
    refine .bind (h s List.mem_cons_self) fun _ => ?_
    exact .bind (ih fun s' hs' => h s' (.tail s hs')) fun _ => .pure _

theorem optionalStmt_follows {s : Option Ast.Stmt}
    (h : ∀ s' ∈ s, Check.Follows (stmt ctx s') (stmt ctx' s')) :
    Check.Follows (optionalStmt ctx s) (optionalStmt ctx' s) := by
  cases s with
  | none => exact .pure none
  | some s => exact .bind (h s rfl) fun _ => .pure _

theorem stmt_follows (hctx : ctx.Extends ctx') (s : Ast.Stmt) :
    Check.Follows (stmt ctx s) (stmt ctx' s) := by
  induction s using Ast.Stmt.induct with
  | expr e span => exact .bind (withEnv_expr_follows hctx e) fun _ => .pure _
  | block body span ih =>
    refine .bind (.inBlock ?_ ?_ (stmts_follow ih)) fun _ => .pure _
    all_goals exact stmts_gains_of fun s _ => stmt_gains s
  | declare ds span => exact declarations_follow hctx ds
  | print e span => exact .bind (checkValue_follows hctx e) fun _ => .pure _
  | cond c t e span iht ihe =>
    refine .bind (checkValue_follows hctx c) fun _ => .bind iht fun _ => ?_
    exact .bind (optionalStmt_follows ihe) fun _ => .pure _
  | whileLoop c b span ihb =>
    exact .bind (checkValue_follows hctx c) fun _ => .bind ihb fun _ => .pure _
  | forLoop i c u b span ihi ihb =>
    refine .inBlock ?_ ?_ (.bind (optionalStmt_follows ihi) fun _ => ?_)
    · exact forClauses_gains (fun s _ => stmt_gains s) (stmt_gains b) c u span
    · exact forClauses_gains (fun s _ => stmt_gains s) (stmt_gains b) c u span
    · refine .bind (.option c fun e _ => checkValue_follows hctx e) fun _ => ?_
      exact .bind (.option u fun e _ => withEnv_expr_follows hctx e) fun _ =>
        .bind ihb fun _ => .pure _
  | ret v span => exact ret_follows hctx v span
  | empty span => exact .pure _

end Statements

/-! ### Functions -/

theorem parameters_follow (ps : List Ast.Parameter) (types : List CType) :
    Check.Follows (parameters ps types) (parameters ps types) := by
  induction ps generalizing types with
  | nil => exact .pure _
  | cons p ps ih =>
    cases types with
    | nil => exact .pure _
    | cons type types =>
      refine .bind (.reserve p.name type p.span) fun symbol => ?_
      exact .bind (.declare symbol p.span) fun _ => .bind (ih types) fun _ => .pure _

/-- The second knows all global objects and functions of the first; outside all blocks. -/
structure Known.Extends (k k' : Known) : Prop where
  top : k.scopes.blocks = []
  top' : k'.scopes.blocks = []
  globals : ∀ name o, Scope.find? k.globals name = some o → Scope.find? k'.globals name = some o
  functions : k.Keeps k'

/-- A function that is accepted is accepted alike when more is known. -/
theorem function_follows {k k' : Known} (h : k.Extends k') (f : Ast.Function) (body : Ast.Stmt) :
    Follows (function k f body).1 (function k' f body).1 := by
  intro t ht
  obtain ⟨signature, hsignature, ps, l1, ts, l2, hps, hts, rfl⟩ := of_function ht
  obtain ⟨new, hnew, hresult, hparameters⟩ := h.functions f.name signature hsignature
  have hstart : Locals.Extends { scopes := k.scopes.push } { scopes := k'.scopes.push } :=
    ⟨⟨by simp [Scopes.push, h.top, h.top'], List.cons_ne_nil _ _, h.globals⟩, rfl⟩
  have hctx : Context.Extends ⟨k.functions, signature.result⟩ ⟨k'.functions, signature.result⟩ :=
    ⟨h.functions, rfl⟩
  obtain ⟨l1', hps', hl1⟩ := parameters_follow f.parameters _ _ _ hstart ps l1 hps
  obtain ⟨l2', hts', hl2⟩ := stmts_follow (fun s _ => stmt_follows hctx s) _ _ hl1 ts l2 hts
  rw [function_eq_ok hnew (by rw [hparameters]; exact hps') (by rw [hresult]; exact hts'), hresult,
    hparameters, hl2.frame]

end MiniC.Typing
