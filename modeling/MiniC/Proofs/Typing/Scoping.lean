import MiniC.Proofs.Ast.Spelled
import MiniC.Typing.Program

/-!
# Scopes around statements

Checking a statement adds objects to the innermost scope and leaves the scopes around it alone
(`stmt_gains`); a block and a `for` leave all scopes as they were (`block_restores`,
`forLoop_restores`). Both hold whether the statement is accepted or refused, however deep inside it the
refusal is. So a function leaves what is known as it was, and only the first pass over a file adds to it
(`function_known`, `program_known`).
-/

set_option autoImplicit false

namespace MiniC.Typing

/-! ### Adding to the innermost scope -/

namespace Scopes

/-- The scopes with objects added to the innermost one. -/
def add (s : Scopes) (new : Scope) : Scopes :=
  match s.blocks with
  | [] => { s with globals := new ++ s.globals }
  | block :: outer => { s with blocks := (new ++ block) :: outer }

/-- The innermost scope has gained objects, of different names that were not in it, and all other
scopes are the same. -/
structure Gained (s : Scopes) (new : Scope) (s' : Scopes) : Prop where
  scopes : s' = s.add new
  nodup : (new.map (·.name)).Nodup
  fresh : ∀ o ∈ new, s.declares o.name = false

/-- Nothing but the innermost scope has changed, and that only by gaining objects. -/
def Gains (s s' : Scopes) : Prop := ∃ new, s.Gained new s'

variable {s s' s'' : Scopes}

@[simp] theorem add_nil (s : Scopes) : s.add [] = s := by
  obtain ⟨globals, _ | ⟨block, outer⟩⟩ := s <;> rfl

theorem add_add (s : Scopes) (new new' : Scope) : (s.add new).add new' = s.add (new' ++ new) := by
  obtain ⟨globals, _ | ⟨block, outer⟩⟩ := s <;> simp [add]

theorem insert_eq_add (s : Scopes) (o : Symbol) : s.insert o = s.add [o] := by
  obtain ⟨globals, _ | ⟨block, outer⟩⟩ := s <;> rfl

theorem current_add (s : Scopes) (new : Scope) : (s.add new).current = new ++ s.current := by
  obtain ⟨globals, _ | ⟨block, outer⟩⟩ := s <;> rfl

theorem declares_add (s : Scopes) (new : Scope) (name : String) :
    (s.add new).declares name = ((new.map (·.name)).contains name || s.declares name) := by
  unfold declares Scope.find?
  rw [current_add, List.find?_append, Option.isSome_or]
  congr 1
  rw [Bool.eq_iff_iff]
  simp [List.find?_isSome]

theorem lookup?_top (h : s.blocks = []) (name : String) :
    s.lookup? name = Scope.find? s.globals name := by
  unfold lookup?
  rw [h]
  rfl

theorem declares_top (h : s.blocks = []) (name : String) :
    s.declares name = (Scope.find? s.globals name).isSome := by
  unfold declares current
  rw [h]
  rfl

theorem insert_top (h : s.blocks = []) (o : Symbol) :
    (s.insert o).blocks = [] ∧ (s.insert o).globals = o :: s.globals := by
  obtain ⟨globals, blocks⟩ := s
  cases h
  exact ⟨rfl, rfl⟩

theorem mem_globals_insert {o o' : Symbol} (h : o' ∈ (s.insert o).globals) :
    o' ∈ s.globals ∨ o' = o := by
  obtain ⟨globals, _ | ⟨block, outer⟩⟩ := s
  · exact (List.mem_cons.mp h).symm
  · exact .inl h

@[simp] theorem pop_add_push (s : Scopes) (new : Scope) : (s.push.add new).pop = s := rfl

theorem Gains.refl (s : Scopes) : s.Gains s :=
  ⟨[], (add_nil s).symm, List.nodup_nil, fun _ ho => absurd ho List.not_mem_nil⟩

theorem Gains.trans (h : s.Gains s') (h' : s'.Gains s'') : s.Gains s'' := by
  obtain ⟨new, rfl, hnodup, hfresh⟩ := h
  obtain ⟨new', rfl, hnodup', hfresh'⟩ := h'
  simp only [declares_add, Bool.or_eq_false_iff] at hfresh'
  refine ⟨new' ++ new, add_add s new new', ?_, fun o ho => ?_⟩
  · rw [List.map_append]
    refine List.nodup_append.mpr ⟨hnodup', hnodup, ?_⟩
    rintro name hname _ hold rfl
    obtain ⟨o, ho, rfl⟩ := List.mem_map.mp hname
    simpa using (hfresh' o ho).1 |>.symm.trans (List.contains_iff_mem.mpr hold)
  · rcases List.mem_append.mp ho with ho | ho
    · exact (hfresh' o ho).2
    · exact hfresh o ho

theorem gains_declare {o : Symbol} {span : Span} (h : s.declare o span = .ok s') : s.Gains s' := by
  unfold declare at h
  split at h
  · cases h
  · rename_i hfree
    cases h
    refine ⟨[o], insert_eq_add s o, List.nodup_singleton _, fun o' ho' => ?_⟩
    rw [List.mem_singleton.mp ho']
    exact Bool.of_not_eq_true hfree

end Scopes

/-! ### Statements -/

namespace Check

variable {α β : Type}

theorem exec_bind (m : Check α) (f : α → Check β) (l : Locals) :
    exec (m >>= f) l =
      match exec m l with
      | (.ok a, l') => exec (f a) l'
      | (.error e, l') => (.error e, l') := by
  show ExceptT.bindCont f (m l).1 (m l).2 = _
  unfold exec
  cases m l with
  | mk found l' => cases found <;> rfl

theorem exec_inBlock (m : Check α) (l : Locals) :
    exec (inBlock m) l =
      ((exec m { l with scopes := l.scopes.push }).1,
        { (exec m { l with scopes := l.scopes.push }).2 with
          scopes := (exec m { l with scopes := l.scopes.push }).2.scopes.pop }) := rfl

/-- Whether it is refused or not, a check only adds to the innermost scope. -/
def Gains (m : Check α) : Prop := ∀ l : Locals, l.scopes.Gains (exec m l).2.scopes

/-- Whether it is refused or not, a check leaves the scopes as they were. -/
def Restores (m : Check α) : Prop := ∀ l : Locals, (exec m l).2.scopes = l.scopes

section Gains

variable {m : Check α}

theorem Restores.gains (h : Restores m) : Gains m := by
  intro l
  rw [h l]
  exact .refl _

theorem gains_pure (a : α) : Gains (pure a) := fun l => .refl l.scopes

theorem gains_throw (e : Error) : Gains (throw e : Check α) := fun l => .refl l.scopes

theorem gains_lift (x : Except Error α) : Gains (liftM x : Check α) := fun l => .refl l.scopes

theorem gains_withEnv (ctx : Context) (f : Env → Except Error α) : Gains (withEnv ctx f) :=
  fun l => .refl l.scopes

theorem Gains.bind {f : α → Check β} (hm : Gains m) (hf : ∀ a, Gains (f a)) : Gains (m >>= f) := by
  intro l
  have hfirst := hm l
  rw [exec_bind]
  generalize exec m l = r at hfirst ⊢
  obtain ⟨_ | a, l'⟩ := r
  · exact hfirst
  · exact hfirst.trans (hf a l')

theorem Gains.map {f : α → β} (hm : Gains m) : Gains (f <$> m) := by
  rw [map_eq_pure_bind]
  exact hm.bind fun a => gains_pure (f a)

theorem Gains.ite {c : Prop} [Decidable c] {k : Check α} (hm : Gains m) (hk : Gains k) :
    Gains (if c then m else k) := by
  split
  · exact hm
  · exact hk

/-- What a block adds goes away with it. -/
theorem Gains.inBlock (hm : Gains m) : Restores (inBlock m) := by
  intro l
  obtain ⟨new, hscopes, -, -⟩ := hm { l with scopes := l.scopes.push }
  rw [exec_inBlock, hscopes]
  exact Scopes.pop_add_push l.scopes new

theorem gains_reserve (name : String) (type : CType) (span : Span) :
    Gains (reserve name type span) := by
  intro l
  unfold exec reserve
  split <;> exact .refl _

theorem gains_declare (o : Symbol) (span : Span) : Gains (declare o span) := by
  intro l
  unfold exec declare
  split
  · rename_i scopes hscopes
    exact Scopes.gains_declare hscopes
  · exact .refl _

theorem gains_option {f : β → Check α} (x : Option β) (h : ∀ b ∈ x, Gains (f b)) :
    Gains (x.mapM f) := by
  cases x with
  | none => exact gains_pure none
  | some b => exact (h b rfl).map

theorem gains_list {f : β → Check α} (xs : List β) (h : ∀ b ∈ xs, Gains (f b)) :
    Gains (xs.mapM f) := by
  induction xs with
  | nil => exact gains_pure []
  | cons x xs ih =>
    rw [List.mapM_cons]
    refine (h x List.mem_cons_self).bind fun _ => ?_
    exact (ih fun y hy => h y (.tail x hy)).bind fun _ => gains_pure _

end Gains

end Check

section Statements

open Check

variable (ctx : Context)

theorem declaration_gains (d : Ast.Declaration) : Gains (declaration ctx d) := by
  unfold declaration
  have hget : Gains (get : Check Locals) := fun l => .refl l.scopes
  refine (gains_lift _).bind fun type => .ite ((gains_throw _).bind fun _ => ?_) ?_
  all_goals
    refine (gains_option d.init fun init _ => gains_withEnv ctx _).bind fun init => ?_
    refine hget.bind fun l => .ite ((gains_throw _).bind fun _ => ?_) ?_
    all_goals
      refine (gains_reserve d.name type d.span).bind fun o => ?_
      exact (gains_declare o d.span).bind fun _ => gains_pure _

theorem declarations_gains (ds : List Ast.Declaration) : Gains (declarations ctx ds) := by
  refine (gains_list ds fun d _ => declaration_gains ctx d).bind fun typed => ?_
  obtain _ | ⟨s, _ | ⟨s', ss⟩⟩ := typed
  all_goals exact gains_pure _

theorem ret_gains (e : Option Ast.Expr) (span : Span) : Gains (ret ctx e span) := by
  cases e with
  | some e => exact (gains_withEnv ctx _).bind fun _ => gains_pure _
  | none => exact .ite (gains_pure _) (gains_throw _)

variable {ctx}

theorem stmts_gains_of {body : List Ast.Stmt} (h : ∀ s ∈ body, Gains (stmt ctx s)) :
    Gains (stmts ctx body) := by
  induction body with
  | nil => exact gains_pure []
  | cons s body ih =>
    refine (h s List.mem_cons_self).bind fun _ => ?_
    exact (ih fun s' hs' => h s' (.tail s hs')).bind fun _ => gains_pure _

theorem optionalStmt_gains_of {s : Option Ast.Stmt} (h : ∀ s' ∈ s, Gains (stmt ctx s')) :
    Gains (optionalStmt ctx s) := by
  cases s with
  | none => exact gains_pure none
  | some s => exact (h s rfl).bind fun _ => gains_pure _

theorem block_restores {body : List Ast.Stmt} (h : ∀ s ∈ body, Gains (stmt ctx s)) (span : Span) :
    Restores (stmt ctx (.block body span)) := by
  intro l
  have hbody := (stmts_gains_of h).inBlock l
  rw [stmt, exec_bind]
  generalize exec (inBlock (stmts ctx body)) l = r at hbody ⊢
  obtain ⟨_ | typed, l'⟩ := r
  · exact hbody
  · exact hbody

/-- The clauses and the body of a `for`, in the scope of the loop. -/
theorem forClauses_gains {init : Option Ast.Stmt} {body : Ast.Stmt}
    (hinit : ∀ s ∈ init, Gains (stmt ctx s)) (hbody : Gains (stmt ctx body))
    (condition update : Option Ast.Expr) (span : Span) :
    Gains (do
      let init ← optionalStmt ctx init
      let condition ← condition.mapM (checkValue ctx)
      let update ← update.mapM fun e => Check.withEnv ctx fun env => expr env e
      let body ← stmt ctx body
      return Typed.Stmt.forLoop init condition update body span.start) := by
  refine (optionalStmt_gains_of hinit).bind fun _ => ?_
  refine (gains_option condition fun e _ => gains_withEnv ctx _).bind fun _ => ?_
  refine (gains_option update fun e _ => gains_withEnv ctx _).bind fun _ => ?_
  exact hbody.bind fun _ => gains_pure _

theorem forLoop_restores {init : Option Ast.Stmt} {body : Ast.Stmt}
    (hinit : ∀ s ∈ init, Gains (stmt ctx s)) (hbody : Gains (stmt ctx body))
    (condition update : Option Ast.Expr) (span : Span) :
    Restores (stmt ctx (.forLoop init condition update body span)) := by
  rw [stmt]
  exact (forClauses_gains hinit hbody condition update span).inBlock

/-- A statement adds to the innermost scope and changes nothing else. -/
theorem stmt_gains (s : Ast.Stmt) : Gains (stmt ctx s) := by
  induction s using Ast.Stmt.induct with
  | expr e span => exact (gains_withEnv ctx _).bind fun _ => gains_pure _
  | block body span ih => exact (block_restores ih span).gains
  | declare ds span => exact declarations_gains ctx ds
  | print e span => exact (gains_withEnv ctx _).bind fun _ => gains_pure _
  | cond c t e span iht ihe =>
    refine (gains_withEnv ctx _).bind fun _ => iht.bind fun _ => ?_
    exact (optionalStmt_gains_of ihe).bind fun _ => gains_pure _
  | whileLoop c b span ihb =>
    exact (gains_withEnv ctx _).bind fun _ => ihb.bind fun _ => gains_pure _
  | forLoop i c u b span ihi ihb => exact (forLoop_restores ihi ihb c u span).gains
  | ret v span => exact ret_gains ctx v span
  | empty span => exact gains_pure _

end Statements

/-! ### Functions and files -/

@[simp] theorem Known.globals_empty : ({} : Known).globals = [] := rfl

theorem parameters_gains (ps : List Ast.Parameter) (types : List CType) :
    Check.Gains (parameters ps types) := by
  induction ps generalizing types with
  | nil => exact Check.gains_pure _
  | cons p ps ih =>
    cases types with
    | nil => exact Check.gains_pure _
    | cons type types =>
      refine (Check.gains_reserve p.name type p.span).bind fun o => ?_
      exact (Check.gains_declare o p.span).bind fun _ => (ih types).bind fun _ => Check.gains_pure _

theorem functionBody_gains (ctx : Context) (f : Ast.Function) (types : List CType)
    (body : Ast.Stmt) : Check.Gains (functionBody ctx f types body) :=
  (parameters_gains f.parameters types).bind fun _ =>
    (stmts_gains_of fun s _ => stmt_gains s).bind fun _ => Check.gains_pure _

@[simp] theorem function_known (k : Known) (f : Ast.Function) (body : Ast.Stmt) :
    (function k f body).2 = k := by
  unfold function
  cases k.functions.find? f.name with
  | none => rfl
  | some signature =>
    have hscopes := (functionBody_gains ⟨k.functions, signature.result⟩ f signature.parameters
      body).inBlock { scopes := k.scopes }
    obtain ⟨scopes, signatures⟩ := k
    exact congrArg (Known.mk · signatures) hscopes

@[simp] theorem functions_known (k : Known) (items : List Ast.Item) :
    (functions k items).2 = k := by
  fun_induction functions k items with
  | case1 => rfl
  | case2 k name result ps body span items e k' hf =>
    exact (congrArg Prod.snd hf).symm.trans (function_known ..)
  | case3 k name result ps body span items f k' hf others k'' hothers ih =>
    obtain rfl : k' = k := (congrArg Prod.snd hf).symm.trans (function_known ..)
    rw [hothers] at ih
    exact ih
  | case4 k item items hother ih => exact ih

theorem of_map_eq_ok {α β : Type} {x : Except Error α} {f : α → β} {b : β}
    (h : x.map f = .ok b) : ∃ a, x = .ok a ∧ f a = b := by
  cases x with
  | error e => cases h
  | ok a => exact ⟨a, rfl, Except.ok.inj h⟩

/-- A definition and the functions after it, all against the same knowledge. -/
theorem functions_definition (k : Known) (name : String) (result : Ast.TypeName)
    (ps : List Ast.Parameter) (body : Ast.Stmt) (span : Span) (items : List Ast.Item) :
    (functions k (.function ⟨name, result, ps, some body, span⟩ :: items)).1 = (do
      let f ← (function k ⟨name, result, ps, some body, span⟩ body).1
      let others ← (functions k items).1
      return f :: others) := by
  rw [functions]
  have hk := function_known k ⟨name, result, ps, some body, span⟩ body
  generalize function k ⟨name, result, ps, some body, span⟩ body = r at hk ⊢
  obtain ⟨_ | f, k'⟩ := r
  · rfl
  · obtain rfl : k' = k := hk
    show (functions k' items).1.map (f :: ·) = _
    cases (functions k' items).1 <;> rfl

theorem functions_definition_eq_ok {k : Known} {name : String} {result : Ast.TypeName}
    {ps : List Ast.Parameter} {body : Ast.Stmt} {span : Span} {items : List Ast.Item}
    {ts : List Typed.Function}
    (h : (functions k (.function ⟨name, result, ps, some body, span⟩ :: items)).1 = .ok ts) :
    ∃ t others, (function k ⟨name, result, ps, some body, span⟩ body).1 = .ok t ∧
      (functions k items).1 = .ok others ∧ ts = t :: others := by
  rw [functions_definition] at h
  cases ht : (function k ⟨name, result, ps, some body, span⟩ body).1 with
  | error e =>
    rw [ht] at h
    cases h
  | ok t =>
    cases hothers : (functions k items).1 with
    | error e =>
      rw [ht, hothers] at h
      cases h
    | ok others =>
      rw [ht, hothers] at h
      cases h
      exact ⟨t, others, rfl, rfl, rfl⟩

/-- A file adds to what is known only in the first pass. -/
theorem program_known (k : Known) (p : Ast.Program) :
    (program k p).2 = (k.addItems p.items).2 := by
  unfold program
  obtain ⟨_ | globals, k'⟩ := k.addItems p.items
  · rfl
  · exact functions_known k' p.items

end MiniC.Typing
