import MiniC.Proofs.Typing.Expr
import MiniC.Proofs.Typing.Frame
import MiniC.Proofs.Typing.Scoping

/-!
# Checked statements are well typed

Checking a statement lays out the objects it declares one after the other and gives a statement
that obeys the typing rules over these objects and those in scope before (`stmt_checked`). What a
statement declares is known only when it has been checked, so the rules are shown for every
vocabulary that has it.
-/

set_option autoImplicit false

namespace MiniC

namespace Typed

mutual

/-- The objects that a statement declares, in the order of their declarations. -/
def Stmt.declared : Stmt → List Symbol
  | .block body => declaredAll body
  | .declare s _ _ => [s]
  | .cond _ thenBranch elseBranch _ => thenBranch.declared ++ declaredOption elseBranch
  | .whileLoop _ body _ => body.declared
  | .forLoop init _ _ body _ => declaredOption init ++ body.declared
  | .print _ _ => []
  | .expr _ _ => []
  | .ret _ _ => []
  | .empty => []

/-- The objects that statements declare. -/
def declaredAll : List Stmt → List Symbol
  | [] => []
  | s :: rest => s.declared ++ declaredAll rest

/-- The objects that a statement declares, if there is one. -/
def declaredOption : Option Stmt → List Symbol
  | none => []
  | some s => s.declared

end

/-- The objects of a function: its parameters and what its body declares. -/
def Function.objects (f : Function) : List Symbol := f.parameters ++ declaredAll f.body

end Typed

namespace Typing

open Typed (Vocabulary)

/-! ### Scopes -/

/-- All objects that are in some scope. -/
def Scopes.All (P : Symbol → Prop) (s : Scopes) : Prop :=
  (∀ o ∈ s.globals, P o) ∧ ∀ block ∈ s.blocks, ∀ o ∈ block, P o

namespace Scopes

variable {P : Symbol → Prop} {s s' : Scopes}

theorem All.lookup (h : s.All P) {name : String} {o : Symbol} (ho : s.lookup? name = some o) :
    P o := by
  unfold lookup? at ho
  split at ho
  · rename_i o' hfound
    cases ho
    obtain ⟨block, hblock, hfind⟩ := List.exists_of_findSome?_eq_some hfound
    exact h.2 block hblock o (List.mem_of_find?_eq_some hfind)
  · exact h.1 o (List.mem_of_find?_eq_some ho)

theorem All.push (h : s.All P) : s.push.All P := by
  refine ⟨h.1, fun block hblock => ?_⟩
  rcases List.mem_cons.mp hblock with rfl | hblock
  · simp
  · exact h.2 block hblock

theorem All.pop (h : s.All P) : s.pop.All P :=
  ⟨h.1, fun block hblock => h.2 block (List.mem_of_mem_tail hblock)⟩

theorem All.insert (h : s.All P) {o : Symbol} (ho : P o) : (s.insert o).All P := by
  unfold Scopes.insert
  split
  · rename_i hblocks
    refine ⟨List.forall_mem_cons.mpr ⟨ho, h.1⟩, ?_⟩
    simp [hblocks]
  · rename_i block outer hblocks
    rw [Scopes.All, hblocks] at h
    obtain ⟨hglobals, hall⟩ := h
    refine ⟨hglobals, List.forall_mem_cons.mpr ⟨?_, fun b hb => hall b (by simp [hb])⟩⟩
    exact List.forall_mem_cons.mpr ⟨ho, hall block (by simp)⟩

theorem eq_insert_of_declare {o : Symbol} {span : Span} (h : s.declare o span = .ok s') :
    s' = s.insert o := by
  unfold declare at h
  split at h
  · cases h
  · cases h
    rfl

end Scopes

/-- The objects in scope are of the vocabulary. -/
def Locals.Within (V : Vocabulary) (l : Locals) : Prop :=
  l.scopes.All fun o => V.objects o ∧ o.type.isVoid = false

/-- A vocabulary over the functions in scope and the constants of a lexicon. -/
structure Context.Fits (ctx : Context) (L : Ast.Lexicon) (V : Vocabulary) : Prop where
  functions : ctx.functions = V.functions
  constants : ∀ v, L.constants v → V.Constant v
  parameters : ∀ name signature, V.functions.find? name = some signature →
    ∀ t ∈ signature.parameters, t.isVoid = false

namespace Check

variable {α β : Type} {l l' : Locals}

theorem bind_eq_ok {m : Check α} {f : α → Check β} {b : β} (h : exec (m >>= f) l = (.ok b, l')) :
    ∃ a l1, exec m l = (.ok a, l1) ∧ exec (f a) l1 = (.ok b, l') := by
  rw [exec_bind] at h
  split at h
  · rename_i a l1 hm
    exact ⟨a, l1, hm, h⟩
  · cases h

theorem pure_eq_ok {a b : α} (h : exec (pure a : Check α) l = (.ok b, l')) : a = b ∧ l = l' := by
  cases h
  exact ⟨rfl, rfl⟩

theorem lift_eq_ok {x : Except Error α} {a : α} (h : exec (liftM x : Check α) l = (.ok a, l')) :
    x = .ok a ∧ l' = l := by
  cases h
  exact ⟨rfl, rfl⟩

theorem withEnv_eq_ok {ctx : Context} {f : Env → Except Error α} {a : α}
    (h : exec (withEnv ctx f) l = (.ok a, l')) : f ⟨l.scopes, ctx.functions⟩ = .ok a ∧ l' = l := by
  obtain ⟨hf, rfl⟩ := Prod.mk.inj h
  exact ⟨hf, rfl⟩

theorem inBlock_eq_ok {m : Check α} {a : α} (h : exec (inBlock m) l = (.ok a, l')) :
    ∃ l1, exec m { l with scopes := l.scopes.push } = (.ok a, l1) ∧
      l' = { l1 with scopes := l1.scopes.pop } := by
  obtain ⟨ha, rfl⟩ := Prod.mk.inj h
  exact ⟨_, Prod.ext ha rfl, rfl⟩

end Check

section Parts

variable {ctx : Context} {L : Ast.Lexicon} {V : Vocabulary} {l l' : Locals}

theorem Context.Fits.within (h : ctx.Fits L V) (hl : l.Within V) :
    (⟨l.scopes, ctx.functions⟩ : Env).Within V :=
  ⟨h.functions, fun _ _ ho => hl.lookup ho, h.parameters⟩

theorem value_gives (h : ctx.Fits L V) (hl : l.Within V) {e : Ast.Expr} (he : e.Spelled L) :
    Gives (value ⟨l.scopes, ctx.functions⟩ e) fun t => t.WellTyped V ∧ t.type.isVoid = false :=
  (sound (h.within hl) h.constants he).nonVoid _

theorem mapM_gives {α β : Type} {f : α → Except Error β} {P : β → Prop} {xs : List α}
    (h : ∀ x ∈ xs, Gives (f x) P) : Gives (xs.mapM f) fun ys => ∀ y ∈ ys, P y := by
  induction xs with
  | nil => exact gives_ok (by simp)
  | cons x xs ih =>
    rw [List.mapM_cons]
    refine (h x (by simp)).bind fun y hy => ?_
    exact (ih fun x' hx' => h x' (by simp [hx'])).bind fun ys hys =>
      gives_pure (List.forall_mem_cons.mpr ⟨hy, hys⟩)

theorem withinLength_gives {α : Type} {P : α → Prop} {values : List α} (h : ∀ v ∈ values, P v)
    (name : String) (length : Nat) (span : Span) :
    Gives (withinLength name length span values) fun vs =>
      vs.length ≤ length ∧ ∀ v ∈ vs, P v := by
  unfold withinLength
  split
  · exact gives_refuse _ _
  · exact gives_ok ⟨by omega, h⟩

/-- The characters of a string are constants of type `char`. -/
theorem type_of_mem_arrayChars {text : String} {length : Nat} {v : Value}
    (h : v ∈ arrayChars text length) : ∃ c, v = .char c := by
  have hbytes : v ∈ Value.ofStringBytes text := by
    unfold arrayChars at h
    dsimp only at h
    split at h
    · exact List.dropLast_subset _ h
    · exact h
  simp only [Value.ofStringBytes, List.mem_append, List.mem_map, List.mem_singleton] at hbytes
  rcases hbytes with ⟨c, -, rfl⟩ | rfl
  · exact ⟨c, rfl⟩
  · exact ⟨0, rfl⟩

mutual

theorem leaves_spelled : (i : Ast.Initializer) → i.Spelled L → ∀ e ∈ i.leaves, e.Spelled L
  | .expr e, h => by
    cases h with
    | expr he => simpa [Ast.Initializer.leaves] using he
  | .list items span, h => by
    cases h with
    | list hi =>
      rw [Ast.Initializer.leaves]
      exact leavesOfAll_spelled items hi

theorem leavesOfAll_spelled : (items : List Ast.Initializer) → (∀ i ∈ items, i.Spelled L) →
    ∀ e ∈ Ast.leavesOfAll items, e.Spelled L
  | [], _ => by simp [Ast.leavesOfAll]
  | i :: items, h => by
    intro e he
    rw [Ast.leavesOfAll] at he
    rcases List.mem_append.mp he with he | he
    · exact leaves_spelled i (h i (by simp)) e he
    · exact leavesOfAll_spelled items (fun i' hi' => h i' (by simp [hi'])) e he

end

theorem localInit_gives (h : ctx.Fits L V) (hl : l.Within V) (name : String) {type : CType}
    (ht : type.isVoid = false) {init : Ast.Initializer} (hi : init.Spelled L) :
    Gives (localInit ⟨l.scopes, ctx.functions⟩ name type init) (Typed.LocalInit.WellTyped V type) := by
  unfold localInit
  split
  · rename_i element length
    have helements : Gives (arrayElements ⟨l.scopes, ctx.functions⟩ name element length init)
        fun es => es.length ≤ length ∧
          ∀ e ∈ es, e.WellTyped V ∧ e.valueType = .scalar element := by
      unfold arrayElements
      split
      · refine withinLength_gives (fun e he => ?_) _ _ _
        obtain ⟨v, hv, rfl⟩ := List.mem_map.mp he
        obtain ⟨c, rfl⟩ := type_of_mem_arrayChars hv
        exact ⟨.literal trivial, rfl⟩
      · cases hi with
        | expr he => exact (value_gives h hl he).bind fun _ _ => gives_refuse _ _
      · rename_i items span
        refine Gives.bind (P := fun es => ∀ e ∈ es, e.WellTyped V ∧ e.valueType = .scalar element)
          (mapM_gives fun e he => ?_) fun es hes => withinLength_gives hes _ _ _
        refine (value_gives h hl (leaves_spelled _ hi e he)).bind fun v hv => ?_
        refine (coerce_gives hv.1 rfl _).mono fun w hw => ⟨hw.1, ?_⟩
        rcases hw.2 with ⟨ht, -⟩ | ⟨hpointer, -⟩
        · exact ht
        · cases hpointer
    exact helements.bind fun es hes =>
      gives_pure (.elements rfl hes.1 (fun e he => (hes.2 e he).1) fun e he => (hes.2 e he).2)
  · rename_i e harray
    have ha : type.isArray = false := by
      cases type with
      | array element length => exact absurd rfl (harray element length)
      | _ => rfl
    cases hi with
    | expr he =>
      exact (value_gives h hl he).bind fun v hv => (coerce_gives hv.1 ht _).bind fun w hw =>
        gives_pure (.scalar ha hw.1 hw.2)
  · exact gives_refuse _ _

end Parts

/-! ### Statements -/

/-- What a part of a function declares when it is checked, and what is true of it in every
vocabulary that has these objects and those in scope before. -/
structure Checked (ctx : Context) (L : Ast.Lexicon) (declared : List Symbol)
    (good : Vocabulary → Prop) (l l' : Locals) : Prop where
  laid : Laid l.frame declared l'.frame
  typed : ∀ V, ctx.Fits L V → l.Within V → (∀ o ∈ declared, V.objects o) → good V ∧ l'.Within V

section Statements

variable {ctx : Context} {L : Ast.Lexicon} {l l' l'' : Locals} {os os' : List Symbol}
  {good good' : Vocabulary → Prop}

/-- What declares nothing is checked in the scope as it is. -/
theorem checked_of_typed (h : ∀ V, ctx.Fits L V → l.Within V → good V) :
    Checked ctx L [] good l l :=
  ⟨.nil _, fun V hV hl _ => ⟨h V hV hl, hl⟩⟩

theorem Checked.trans (h : Checked ctx L os good l l') (h' : Checked ctx L os' good' l' l'') :
    Checked ctx L (os ++ os') (fun V => good V ∧ good' V) l l'' where
  laid := h.laid.append h'.laid
  typed := by
    intro V hV hl hos
    obtain ⟨hgood, hl'⟩ := h.typed V hV hl fun o ho => hos o (List.mem_append_left _ ho)
    obtain ⟨hgood', hl''⟩ := h'.typed V hV hl' fun o ho => hos o (List.mem_append_right _ ho)
    exact ⟨⟨hgood, hgood'⟩, hl''⟩

theorem Checked.mono (h : Checked ctx L os good l l') (himp : ∀ V, good V → good' V) :
    Checked ctx L os good' l l' :=
  ⟨h.laid, fun V hV hl hos => (h.typed V hV hl hos).imp_left (himp V)⟩

/-- A block of its own leaves the scopes around it as they were. -/
theorem Checked.inBlock (h : Checked ctx L os good { l with scopes := l.scopes.push } l') :
    Checked ctx L os good l { l' with scopes := l'.scopes.pop } :=
  ⟨h.laid, fun V hV hl hos =>
    (h.typed V hV (Scopes.All.push hl) hos).imp_right Scopes.All.pop⟩

/-- An expression that is used for its value declares nothing. -/
theorem checkValue_checked {e : Ast.Expr} (he : e.Spelled L) {t : Typed.Expr}
    (h : Check.exec (checkValue ctx e) l = (.ok t, l')) :
    Checked ctx L [] (fun V => t.WellTyped V ∧ t.type.isVoid = false) l l' := by
  obtain ⟨ht, rfl⟩ := Check.withEnv_eq_ok h
  exact checked_of_typed fun V hV hl => value_gives hV hl he t ht

theorem withEnv_expr_checked {e : Ast.Expr} (he : e.Spelled L) {t : Typed.Expr}
    (h : Check.exec (Check.withEnv ctx fun env => expr env e) l = (.ok t, l')) :
    Checked ctx L [] (fun V => t.WellTyped V) l l' := by
  obtain ⟨ht, rfl⟩ := Check.withEnv_eq_ok h
  exact checked_of_typed fun V hV hl => (sound (hV.within hl) hV.constants he).value t ht

theorem mapM_checked {α β : Type} {x : Option α} {f : α → Check β} {y : Option β}
    {P : Vocabulary → β → Prop} (hf : ∀ a ∈ x, ∀ b l', Check.exec (f a) l = (.ok b, l') →
      Checked ctx L [] (fun V => P V b) l l')
    (h : Check.exec (x.mapM f) l = (.ok y, l')) : Checked ctx L [] (fun V => ∀ b ∈ y, P V b) l l' := by
  cases x with
  | none =>
    obtain ⟨rfl, rfl⟩ := Check.pure_eq_ok h
    exact checked_of_typed fun V _ _ => by simp
  | some a =>
    change Check.exec (f a >>= fun b => pure (some b)) l = _ at h
    obtain ⟨b, l1, hb, hpure⟩ := Check.bind_eq_ok h
    obtain ⟨rfl, rfl⟩ := Check.pure_eq_ok hpure
    exact (hf a rfl b l1 hb).mono fun V hP => by simpa using hP

/-- Reserving storage and declaring the object, checked as one. -/
theorem reserve_checked {name : String} {type : CType} {span span' : Span} {s : Symbol}
    {l1 l2 : Locals} (ht : type.isVoid = false)
    (hreserve : Check.exec (Check.reserve name type span) l = (.ok s, l1))
    (hdeclare : Check.exec (Check.declare s span') l1 = (.ok (), l2)) :
    s.type = type ∧ s.type.size < 2 ^ 31 ∧ Checked ctx L [s] (fun V => V.objects s) l l2 := by
  unfold Check.exec Check.reserve at hreserve
  cases halloc : l.frame.allocate name type span with
  | error e => rw [halloc] at hreserve; cases hreserve
  | ok p =>
    obtain ⟨offset, frame⟩ := p
    rw [halloc] at hreserve
    cases hreserve
    obtain ⟨rfl, rfl, hsize⟩ := Frame.of_allocate halloc
    unfold Check.exec Check.declare at hdeclare
    dsimp only at hdeclare
    cases hscopes : l.scopes.declare (.onFrame name type (-↑(l.frame.extend type).used)) span' with
    | error e => rw [hscopes] at hdeclare; cases hdeclare
    | ok scopes =>
      rw [hscopes] at hdeclare
      cases hdeclare
      cases Scopes.eq_insert_of_declare hscopes
      have hlaid : Laid l.frame [.onFrame name type (-↑(l.frame.extend type).used)]
        (l.frame.extend type) := .cons rfl hsize (.nil _)
      obtain ⟨-, -, -, -, hsz⟩ := hlaid.bounds (List.mem_singleton_self _)
      refine ⟨rfl, hsz, hlaid, fun V _ hl hos => ?_⟩
      have hobject := hos _ (List.mem_singleton_self _)
      exact ⟨hobject, Scopes.All.insert hl ⟨hobject, ht⟩⟩

theorem declaration_checked {d : Ast.Declaration} (hd : d.Spelled L) {t : Typed.Stmt}
    (h : Check.exec (declaration ctx d) l = (.ok t, l')) :
    Checked ctx L t.declared (fun V => t.WellTyped V ctx.result) l l' := by
  unfold declaration at h
  obtain ⟨type, l1, hresolve, h1⟩ := Check.bind_eq_ok h
  obtain ⟨-, rfl⟩ := Check.lift_eq_ok hresolve
  by_cases hvoid : type.isVoid = true
  · simp only [if_pos hvoid] at h1
    cases h1
  · simp only [if_neg hvoid] at h1
    have ht : type.isVoid = false := by simpa using hvoid
    obtain ⟨init, l2, hinit, h2⟩ := Check.bind_eq_ok h1
    have hinit' : Checked ctx L [] (fun V => ∀ i ∈ init, i.WellTyped V type) l1 l2 := by
      refine mapM_checked (fun i hi i' l' hi' => ?_) hinit
      obtain ⟨hi', rfl⟩ := Check.withEnv_eq_ok hi'
      exact checked_of_typed fun V hV hl => localInit_gives hV hl d.name ht (hd.init i hi) i' hi'
    obtain ⟨l3, l4, hget, h3⟩ := Check.bind_eq_ok h2
    cases hget
    split at h3
    · cases h3
    · obtain ⟨s, l5, hreserve, h4⟩ := Check.bind_eq_ok h3
      obtain ⟨_, l6, hdeclare, h5⟩ := Check.bind_eq_ok h4
      obtain ⟨rfl, rfl⟩ := Check.pure_eq_ok h5
      obtain ⟨rfl, hsize, hs⟩ := reserve_checked ht hreserve hdeclare
      exact (hinit'.trans hs).mono fun V hV => .declare hV.2 ht hsize hV.1

/-- Statements that are well typed one by one. -/
abbrev AllWellTyped (ctx : Context) (body : List Typed.Stmt) (V : Vocabulary) : Prop :=
  ∀ s ∈ body, s.WellTyped V ctx.result

theorem Checked.cons {s : Typed.Stmt} {rest : List Typed.Stmt}
    (hs : Checked ctx L s.declared (fun V => s.WellTyped V ctx.result) l l')
    (hrest : Checked ctx L (Typed.declaredAll rest) (AllWellTyped ctx rest) l' l'') :
    Checked ctx L (Typed.declaredAll (s :: rest)) (AllWellTyped ctx (s :: rest)) l l'' := by
  rw [Typed.declaredAll]
  exact (hs.trans hrest).mono fun V h => List.forall_mem_cons.mpr h

theorem declarations_checked {ds : List Ast.Declaration} (hds : ∀ d ∈ ds, d.Spelled L)
    {t : Typed.Stmt} (h : Check.exec (declarations ctx ds) l = (.ok t, l')) :
    Checked ctx L t.declared (fun V => t.WellTyped V ctx.result) l l' := by
  have hall : ∀ (ds : List Ast.Declaration), (∀ d ∈ ds, d.Spelled L) → ∀ ts l,
      Check.exec (ds.mapM (declaration ctx)) l = (.ok ts, l') →
      Checked ctx L (Typed.declaredAll ts) (AllWellTyped ctx ts) l l' := by
    intro ds hds
    induction ds with
    | nil =>
      intro ts l h
      obtain ⟨rfl, rfl⟩ := Check.pure_eq_ok h
      exact checked_of_typed fun V _ _ => by simp [AllWellTyped]
    | cons d ds ih =>
      intro ts l h
      rw [List.mapM_cons] at h
      obtain ⟨t, l1, ht, h1⟩ := Check.bind_eq_ok h
      obtain ⟨ts', l2, hts, h2⟩ := Check.bind_eq_ok h1
      obtain ⟨rfl, rfl⟩ := Check.pure_eq_ok h2
      exact (declaration_checked (hds d (by simp)) ht).cons
        (ih (fun d' hd' => hds d' (by simp [hd'])) ts' l1 hts)
  unfold declarations at h
  obtain ⟨ts, l1, hts, h1⟩ := Check.bind_eq_ok h
  split at h1
  all_goals
    obtain ⟨rfl, rfl⟩ := Check.pure_eq_ok h1
    have hchecked := hall ds hds _ _ hts
  · rename_i single
    rw [Typed.declaredAll, Typed.declaredAll, List.append_nil] at hchecked
    exact hchecked.mono fun V h => h single (by simp)
  · rw [Typed.Stmt.declared]
    exact hchecked.mono fun V h => .block h

theorem returned_gives {V : Vocabulary} (h : ctx.Fits L V) (hl : l.Within V) {e : Ast.Expr}
    (he : e.Spelled L) (span : Span) :
    Gives (returned ⟨l.scopes, ctx.functions⟩ ctx.result e span) fun t =>
      t.WellTyped V ∧ t.Fits ctx.result := by
  unfold returned
  refine (value_gives h hl he).bind fun v hv => ?_
  split
  · exact gives_refuse _ _
  · rename_i hvoid
    split
    · rename_i converted hconverted
      exact gives_pure (coerce_gives hv.1 (by simpa using hvoid) e.span converted hconverted)
    · exact gives_refuse _ _
    · exact fun _ h => nomatch h

theorem ret_checked {e : Option Ast.Expr} (he : ∀ v ∈ e, v.Spelled L) {span : Span}
    {t : Typed.Stmt} (h : Check.exec (ret ctx e span) l = (.ok t, l')) :
    Checked ctx L t.declared (fun V => t.WellTyped V ctx.result) l l' := by
  unfold ret at h
  split at h
  · rename_i e
    obtain ⟨v, l1, hv, h1⟩ := Check.bind_eq_ok h
    obtain ⟨hv, rfl⟩ := Check.withEnv_eq_ok hv
    obtain ⟨rfl, rfl⟩ := Check.pure_eq_ok h1
    refine checked_of_typed fun V hV hl => ?_
    obtain ⟨hw, hfits⟩ := returned_gives hV hl (he e rfl) span v hv
    exact .retValue hw hfits
  · split at h
    · rename_i hvoid
      obtain ⟨rfl, rfl⟩ := Check.pure_eq_ok h
      refine checked_of_typed fun V _ _ => .ret ?_
      cases hresult : ctx.result <;> simp_all [CType.isVoid]
    · cases h

/-- What is shown of every statement that is checked. -/
def StmtChecked (ctx : Context) (L : Ast.Lexicon) (s : Ast.Stmt) : Prop :=
  s.Spelled L → ∀ l t l', Check.exec (stmt ctx s) l = (.ok t, l') →
    Checked ctx L t.declared (fun V => t.WellTyped V ctx.result) l l'

theorem stmts_checked_of {body : List Ast.Stmt} (ih : ∀ s ∈ body, StmtChecked ctx L s)
    (hb : ∀ s ∈ body, s.Spelled L) {ts : List Typed.Stmt} (h : Check.exec (stmts ctx body) l = (.ok ts, l')) :
    Checked ctx L (Typed.declaredAll ts) (AllWellTyped ctx ts) l l' := by
  induction body generalizing l ts with
  | nil =>
    rw [stmts] at h
    obtain ⟨rfl, rfl⟩ := Check.pure_eq_ok h
    exact checked_of_typed fun V _ _ => by simp [AllWellTyped]
  | cons s body ih' =>
    rw [stmts] at h
    obtain ⟨t, l1, ht, h1⟩ := Check.bind_eq_ok h
    obtain ⟨ts', l2, hts, h2⟩ := Check.bind_eq_ok h1
    obtain ⟨rfl, rfl⟩ := Check.pure_eq_ok h2
    have hs := ih s (by simp) (hb s (by simp)) l t l1 ht
    exact hs.cons (ih' (fun s' hs' => ih s' (by simp [hs'])) (fun s' hs' => hb s' (by simp [hs']))
      hts)

theorem optionalStmt_checked {branch : Option Ast.Stmt} (ih : ∀ s ∈ branch, StmtChecked ctx L s)
    (hb : ∀ s ∈ branch, s.Spelled L) {t : Option Typed.Stmt}
    (h : Check.exec (optionalStmt ctx branch) l = (.ok t, l')) :
    Checked ctx L (Typed.declaredOption t) (fun V => ∀ s ∈ t, s.WellTyped V ctx.result) l l' := by
  cases branch with
  | none =>
    rw [optionalStmt] at h
    obtain ⟨rfl, rfl⟩ := Check.pure_eq_ok h
    exact checked_of_typed fun V _ _ => by simp
  | some s =>
    rw [optionalStmt] at h
    obtain ⟨t', l1, ht, h1⟩ := Check.bind_eq_ok h
    obtain ⟨rfl, rfl⟩ := Check.pure_eq_ok h1
    rw [Typed.declaredOption]
    exact (ih s rfl (hb s rfl) l t' l1 ht).mono fun V h => by simpa using h

/-- A statement that is accepted obeys the typing rules. -/
theorem stmt_checked (s : Ast.Stmt) : StmtChecked ctx L s := by
  induction s using Ast.Stmt.induct with
  | expr e span =>
    intro hs l t l' h
    cases hs with
    | expr he =>
      rw [stmt] at h
      obtain ⟨e', l1, he', h1⟩ := Check.bind_eq_ok h
      obtain ⟨rfl, rfl⟩ := Check.pure_eq_ok h1
      exact (withEnv_expr_checked he he').mono fun V hw => .expr hw
  | block body span ih =>
    intro hs l t l' h
    cases hs with
    | block hb =>
      rw [stmt] at h
      obtain ⟨ts, l1, hts, h1⟩ := Check.bind_eq_ok h
      obtain ⟨rfl, rfl⟩ := Check.pure_eq_ok h1
      obtain ⟨l2, hbody, rfl⟩ := Check.inBlock_eq_ok hts
      rw [Typed.Stmt.declared]
      exact ((stmts_checked_of ih hb hbody).mono fun V h => .block h).inBlock
  | declare ds span =>
    intro hs l t l' h
    cases hs with
    | declare hd =>
      rw [stmt] at h
      exact declarations_checked hd h
  | print e span =>
    intro hs l t l' h
    cases hs with
    | print he =>
      rw [stmt] at h
      obtain ⟨e', l1, he', h1⟩ := Check.bind_eq_ok h
      obtain ⟨rfl, rfl⟩ := Check.pure_eq_ok h1
      exact (checkValue_checked he he').mono fun V hV => .print hV.1 hV.2
  | cond c thenBranch elseBranch span ihThen ihElse =>
    intro hs l t l' h
    cases hs with
    | cond hc hthen helse =>
      rw [stmt] at h
      obtain ⟨c', l1, hc', h1⟩ := Check.bind_eq_ok h
      obtain ⟨t1, l2, ht1, h2⟩ := Check.bind_eq_ok h1
      obtain ⟨t2, l3, ht2, h3⟩ := Check.bind_eq_ok h2
      obtain ⟨rfl, rfl⟩ := Check.pure_eq_ok h3
      rw [Typed.Stmt.declared]
      exact ((checkValue_checked hc hc').trans ((ihThen hthen _ _ _ ht1).trans
        (optionalStmt_checked ihElse helse ht2))).mono
          fun V hV => .cond hV.1.1 hV.1.2 hV.2.1 hV.2.2
  | whileLoop c body span ih =>
    intro hs l t l' h
    cases hs with
    | whileLoop hc hb =>
      rw [stmt] at h
      obtain ⟨c', l1, hc', h1⟩ := Check.bind_eq_ok h
      obtain ⟨b', l2, hb', h2⟩ := Check.bind_eq_ok h1
      obtain ⟨rfl, rfl⟩ := Check.pure_eq_ok h2
      rw [Typed.Stmt.declared]
      exact ((checkValue_checked hc hc').trans (ih hb _ _ _ hb')).mono
        fun V hV => .whileLoop hV.1.1 hV.1.2 hV.2
  | forLoop init c update body span ihInit ihBody =>
    intro hs l t l' h
    cases hs with
    | forLoop hi hc hu hb =>
      rw [stmt] at h
      -- what the first part declares is in scope up to the end of the body
      obtain ⟨l1, h0, rfl⟩ := Check.inBlock_eq_ok h
      obtain ⟨i', l2, hi', h1⟩ := Check.bind_eq_ok h0
      obtain ⟨c', l3, hc', h2⟩ := Check.bind_eq_ok h1
      obtain ⟨u', l4, hu', h3⟩ := Check.bind_eq_ok h2
      obtain ⟨b', l5, hb', h4⟩ := Check.bind_eq_ok h3
      obtain ⟨rfl, rfl⟩ := Check.pure_eq_ok h4
      rw [Typed.Stmt.declared]
      have hcond := mapM_checked (fun e he e' l' he' => checkValue_checked (hc e he) he') hc'
      have hupdate := mapM_checked (fun e he e' l' he' => withEnv_expr_checked (hu e he) he') hu'
      have hall := (optionalStmt_checked ihInit hi hi').trans
        (hcond.trans (hupdate.trans (ihBody hb _ _ _ hb')))
      exact (hall.mono fun V hV => .forLoop hV.1 hV.2.1 hV.2.2.1 hV.2.2.2).inBlock
  | ret value span =>
    intro hs l t l' h
    cases hs with
    | ret hv =>
      rw [stmt] at h
      exact ret_checked hv h
  | empty span =>
    intro _ l t l' h
    rw [stmt] at h
    obtain ⟨rfl, rfl⟩ := Check.pure_eq_ok h
    exact checked_of_typed fun V _ _ => .empty

theorem stmts_checked {body : List Ast.Stmt} (hb : ∀ s ∈ body, s.Spelled L)
    {ts : List Typed.Stmt} (h : Check.exec (stmts ctx body) l = (.ok ts, l')) :
    Checked ctx L (Typed.declaredAll ts) (AllWellTyped ctx ts) l l' :=
  stmts_checked_of (fun s _ => stmt_checked s) hb h

end Statements

end Typing

end MiniC
