import MiniC.Proofs.Typing.Order
import MiniC.Proofs.Typing.Soundness

/-!
# Files one after another

Checking goes on after a file, with what it has declared still known, even if it was refused. Two files
that are accepted one after the other are accepted as one (`program_append`): the bodies of the first
are checked again with the names of the second known, which changes nothing for what was accepted.

Refusals leave nothing half done (`session_sound`). Whatever files came before and wherever in them the
refusals were, no block is open, and objects and functions are known under names of their own; so over
all files that are accepted no name is defined twice.
-/

set_option autoImplicit false

namespace MiniC.Typing

/-! ### Two files as one -/

namespace Known

variable {k k' : Known}

theorem Separate.extends (hk : k.Separate) {items : List Ast.Item} {gs : List Typed.Global}
    (h : k.addItems items = (.ok gs, k')) : k.Extends k' := by
  have hgains := hk.addItems h
  refine ⟨hk.top, hgains.separate.top, fun name o ho => ?_, (addItems_declares h).1⟩
  obtain ⟨hmem, hname⟩ := (find?_eq_some_iff hk.nodup).mp ho
  refine (find?_eq_some_iff hgains.separate.nodup).mpr ⟨?_, hname⟩
  rw [hgains.globals]
  exact List.mem_append_right _ hmem

theorem addItems_append {k1 k2 : Known} {items1 items2 : List Ast.Item} {gs1 gs2 : List Typed.Global}
    (h1 : k.addItems items1 = (.ok gs1, k1)) (h2 : k1.addItems items2 = (.ok gs2, k2)) :
    k.addItems (items1 ++ items2) = (.ok (gs1 ++ gs2), k2) := by
  obtain ⟨hwf1, rfl, hfold1⟩ := addItems_iff.1 h1
  obtain ⟨hwf2, rfl, hfold2⟩ := addItems_iff.1 h2
  refine addItems_iff.2 ⟨List.forall_mem_append.mpr ⟨hwf1, hwf2⟩, List.flatMap_append.symm, ?_⟩
  rw [List.flatMap_append, List.foldlM_append, hfold1]
  exact hfold2

end Known

/-- What is accepted with less known is accepted with the same result. -/
theorem functions_of_extends {k k' : Known} (h : k.Extends k') {item : Ast.Item}
    (hitem : item.Accepted k) : item.functions k' = item.functions k := by
  cases item with
  | declare ds => rfl
  | function f =>
    show (f.body.bind _).toList = (f.body.bind _).toList
    cases hbody : f.body with
    | none => rfl
    | some body =>
      obtain ⟨t, ht⟩ := hitem body hbody
      rw [Option.bind_some, Option.bind_some, ht, function_follows h f body t ht]

theorem functions_append {k k' : Known} (h : k.Extends k') {items1 items2 : List Ast.Item}
    {ts1 ts2 : List Typed.Function} (h1 : (functions k items1).1 = .ok ts1)
    (h2 : (functions k' items2).1 = .ok ts2) :
    (functions k' (items1 ++ items2)).1 = .ok (ts1 ++ ts2) := by
  obtain ⟨haccepted1, rfl⟩ := functions_iff.1 h1
  obtain ⟨haccepted2, rfl⟩ := functions_iff.1 h2
  refine functions_iff.2 ⟨List.forall_mem_append.mpr ⟨?_, haccepted2⟩, ?_⟩
  · exact fun item hitem => accepted_of_extends h (haccepted1 item hitem)
  · rw [List.flatMap_append]
    congr 1
    exact List.flatMap_congr fun item hitem => (functions_of_extends h (haccepted1 item hitem)).symm

/-- Files that are accepted one after the other are accepted as one, after any others. -/
theorem program_joined {k k1 k2 : Known} (hk : k.Separate) {u1 u2 : Ast.Program}
    {t1 t2 : Typed.Program} (h1 : program k u1 = (.ok t1, k1)) (h2 : program k1 u2 = (.ok t2, k2))
    (span : Span) :
    program k ⟨u1.items ++ u2.items, span⟩ =
      (.ok ⟨t1.globals ++ t2.globals, t1.functions ++ t2.functions⟩, k2) := by
  obtain ⟨hitems1, hfunctions1⟩ := of_program h1
  obtain ⟨hitems2, hfunctions2⟩ := of_program h2
  have hextends : k1.Extends k2 := (hk.addItems hitems1).separate.extends hitems2
  have hfunctions := functions_append hextends hfunctions1 hfunctions2
  refine Prod.ext ?_ ?_
  · unfold program
    rw [Known.addItems_append hitems1 hitems2]
    show (functions k2 (u1.items ++ u2.items)).1.map _ = _
    rw [hfunctions]
    rfl
  · rw [program_known, Known.addItems_append hitems1 hitems2]

/-- **Checking files one after the other is checking them together.** Two files that are accepted one
after the other, with nothing known before, are accepted as one file: its objects are those of the first
followed by those of the second, and so are its functions. The same is known afterwards. -/
theorem program_append {u1 u2 : Ast.Program} {t1 t2 : Typed.Program} {k1 k2 : Known}
    (h1 : program {} u1 = (.ok t1, k1)) (h2 : program k1 u2 = (.ok t2, k2)) (span : Span) :
    program {} ⟨u1.items ++ u2.items, span⟩ =
      (.ok ⟨t1.globals ++ t2.globals, t1.functions ++ t2.functions⟩, k2) :=
  program_joined Known.separate_empty h1 h2 span

/-- `int a = 1; int g(int n); int f(int n) { int b = n; return g(b) + a; }` -/
def declaring : Ast.Program where
  items :=
    let int : Ast.TypeName := ⟨.int, 0, none⟩
    let n : Ast.Parameter := ⟨"n", int, .unknown⟩
    let copy : Ast.Declaration := ⟨"b", int, some (.expr (.name "n" .unknown)), .unknown⟩
    let sum : Ast.Expr :=
      .binary .add (.call "g" [.name "b" .unknown] .unknown) (.name "a" .unknown) .unknown
    [.declare [⟨"a", int, some (.expr (.literal (.int 1) .unknown)), .unknown⟩],
      .function ⟨"g", int, [n], none, .unknown⟩,
      .function ⟨"f", int, [n],
        some (.block [.declare [copy] .unknown, .ret (some sum) .unknown] .unknown), .unknown⟩]
  span := .unknown

/-- `float b[2]; int g(int n) { return f(a); }` -/
def completing : Ast.Program where
  items :=
    let int : Ast.TypeName := ⟨.int, 0, none⟩
    [.declare [⟨"b", ⟨.float, 0, some 2⟩, none, .unknown⟩],
      .function ⟨"g", int, [⟨"n", int, .unknown⟩],
        some (.block [.ret (some (.call "f" [.name "a" .unknown] .unknown)) .unknown] .unknown),
        .unknown⟩]
  span := .unknown

/-- The second file defines what the first one declares, uses its names, and has an object of the name of
one of its local objects. -/
theorem program_declaring_completing :
    ∃ t1 k1 t2 k2, program {} declaring = (.ok t1, k1) ∧ program k1 completing = (.ok t2, k2) ∧
      program {} ⟨declaring.items ++ completing.items, .unknown⟩ =
        (.ok ⟨t1.globals ++ t2.globals, t1.functions ++ t2.functions⟩, k2) := by
  have hfirst : ∃ t, (program {} declaring).1 = .ok t := ⟨_, by cbv⟩
  have hsecond : ∃ t, (program (program {} declaring).2 completing).1 = .ok t := ⟨_, by cbv⟩
  obtain ⟨t1, h1⟩ := hfirst
  obtain ⟨t2, h2⟩ := hsecond
  exact ⟨t1, _, t2, _, Prod.ext h1 rfl, Prod.ext h2 rfl,
    program_append (Prod.ext h1 rfl) (Prod.ext h2 rfl) .unknown⟩

/-! ### Files of which some are refused -/

namespace Known

variable {k k' : Known}

/-- Nothing that is known is forgotten, and names stay apart. -/
structure Grows (k k' : Known) : Prop where
  separate : k'.Separate
  globals : k.globals <:+ k'.globals
  defines : ∀ name, k.Defines name → k'.Defines name

theorem Grows.refl (hk : k.Separate) : k.Grows k := ⟨hk, List.suffix_refl _, fun _ h => h⟩

theorem Grows.trans {k'' : Known} (h : k.Grows k') (h' : k'.Grows k'') : k.Grows k'' :=
  ⟨h'.separate, h.globals.trans h'.globals, fun name hname => h'.defines name (h.defines name hname)⟩

theorem grows_of_gains {names : List String} {definition : Option String} {gs gs' : List Typed.Global}
    (h : k.Gains names gs k') (h' : k.Adds definition gs' k') : k.Grows k' :=
  ⟨h.separate, ⟨_, h.globals.symm⟩, h'.keeps⟩

theorem Separate.grows_addGlobals (hk : k.Separate) (ds : List Ast.Declaration) :
    k.Grows (k.addGlobals ds).2 := by
  induction ds generalizing k with
  | nil => exact .refl hk
  | cons d ds ih =>
    rw [Known.addGlobals]
    split
    · exact .refl hk
    · rename_i g k1 hg
      have hfirst := grows_of_gains (hk.addGlobal d _ hg) (addGlobal_adds d _ hg)
      exact hfirst.trans (ih hfirst.separate)

theorem Separate.grows_addItem (hk : k.Separate) (item : Ast.Item) :
    k.Grows (k.addItem item).2 := by
  cases item with
  | declare ds => exact hk.grows_addGlobals ds
  | function f =>
    rw [Known.addItem]
    split
    · exact .refl hk
    · rename_i k1 hf
      exact grows_of_gains (hk.addFunction f _ hf) (addFunction_adds f _ hf)

/-- What is known grows with every item until one is refused. -/
theorem Separate.grows_addItems (hk : k.Separate) (items : List Ast.Item) :
    k.Grows (k.addItems items).2 := by
  induction items generalizing k with
  | nil => exact .refl hk
  | cons item items ih =>
    have hfirst := hk.grows_addItem item
    rw [Known.addItems]
    split
    · rename_i e k1 hitem
      rwa [hitem] at hfirst
    · rename_i gs k1 hitem
      rw [hitem] at hfirst
      exact hfirst.trans (ih hfirst.separate)

theorem Separate.grows (hk : k.Separate) (p : Ast.Program) : k.Grows (program k p).2 := by
  rw [program_known]
  exact hk.grows_addItems p.items

theorem separate_after (files : List Ast.Program) : (after files).Separate := by
  unfold after
  exact List.foldlRecOn files _ separate_empty fun k hk p _ => (hk.grows p).separate

theorem Separate.defines_of_addItems (hk : k.Separate) {items : List Ast.Item}
    {gs : List Typed.Global} (h : k.addItems items = (.ok gs, k')) :
    ∀ name ∈ items.filterMap Ast.Item.definition?, k'.Defines name := by
  induction items generalizing k gs with
  | nil => simp
  | cons item items ih =>
    obtain ⟨gs1, k1, gs2, hitem, hitems, -⟩ := addItems_cons_iff.1 h
    have hk1 := (hk.addItem hitem).separate
    have hgrows := hk1.grows_addItems items
    rw [hitems] at hgrows
    have hrest := ih hk1 hitems
    intro name hname
    rw [List.filterMap_cons] at hname
    cases hdefinition : item.definition? with
    | none =>
      rw [hdefinition] at hname
      exact hrest name hname
    | some name' =>
      rw [hdefinition] at hname
      rcases List.mem_cons.mp hname with rfl | hname
      · exact hgrows.defines _ ((addItem_adds hitem).defines _ hdefinition)
      · exact hrest name hname

end Known

/-- The files that are accepted when they are checked one after another, as they are typed. -/
def accepted (k : Known) : List Ast.Program → List Typed.Program
  | [] => []
  | p :: files => (program k p).1.toOption.toList ++ accepted (program k p).2 files

/-- Names that a file takes only if they are free, and that stay taken, are taken once. -/
theorem nodup_accepted (names : Typed.Program → List String) (Taken : Known → String → Prop)
    (hkeeps : ∀ {k k' name}, k.Grows k' → Taken k name → Taken k' name)
    (htakes : ∀ {k k' p t}, k.Separate → program k p = (.ok t, k') → (names t).Nodup ∧
      ∀ name ∈ names t, ¬ Taken k name ∧ Taken k' name)
    {k : Known} (hk : k.Separate) (files : List Ast.Program) :
    ((accepted k files).flatMap names).Nodup ∧
      ∀ name ∈ (accepted k files).flatMap names, ¬ Taken k name := by
  induction files generalizing k with
  | nil => exact ⟨List.nodup_nil, fun _ h => absurd h List.not_mem_nil⟩
  | cons p files ih =>
    have hgrows := hk.grows p
    obtain ⟨hnodup, hfree⟩ := ih hgrows.separate
    have hfree' : ∀ name ∈ (accepted (program k p).2 files).flatMap names, ¬ Taken k name :=
      fun name hname htaken => hfree name hname (hkeeps hgrows htaken)
    cases hp : (program k p).1 with
    | error e =>
      have haccepted : accepted k (p :: files) = accepted (program k p).2 files := by
        rw [accepted, hp]
        rfl
      rw [haccepted]
      exact ⟨hnodup, hfree'⟩
    | ok t =>
      have haccepted : accepted k (p :: files) = t :: accepted (program k p).2 files := by
        rw [accepted, hp]
        rfl
      obtain ⟨hnodup', htaken⟩ := htakes hk (Prod.ext hp rfl)
      rw [haccepted, List.flatMap_cons]
      refine ⟨List.nodup_append.mpr ⟨hnodup', hnodup, ?_⟩, List.forall_mem_append.mpr ⟨?_, hfree'⟩⟩
      · rintro name hname _ hlater rfl
        exact hfree name hlater (htaken name hname).2
      · exact fun name hname => (htaken name hname).1

theorem nodup_accepted_functions (files : List Ast.Program) :
    ((accepted {} files).flatMap fun t => t.functions.map (·.routine.name)).Nodup := by
  refine (nodup_accepted _ Known.Defines (fun h => h.defines _) ?_ Known.separate_empty files).1
  intro k k' p t hk h
  obtain ⟨hitems, hfunctions⟩ := of_program h
  obtain ⟨hnodup, hfresh, -⟩ := Known.addItems_adds hitems
  rw [names_of_functions hfunctions]
  exact ⟨hnodup, fun name hname => ⟨hfresh name hname, hk.defines_of_addItems hitems name hname⟩⟩

theorem nodup_accepted_globals (files : List Ast.Program) :
    ((accepted {} files).flatMap fun t => t.globals.map (·.symbol.name)).Nodup := by
  refine (nodup_accepted _ (fun k name => name ∈ k.globals.map (·.name)) ?_ ?_
    Known.separate_empty files).1
  · intro k k' name h hname
    exact (h.globals.sublist.map _).subset hname
  · intro k k' p t hk h
    have hgains := hk.addItems (of_program h).1
    have hnodup := hgains.separate.nodup
    rw [hgains.globals, List.map_append, List.nodup_append] at hnodup
    obtain ⟨hnew, -, hapart⟩ := hnodup
    have hnames : ((t.globals.map (·.symbol)).reverse.map (·.name)).Perm
        (t.globals.map (·.symbol.name)) := by
      rw [List.map_reverse, List.map_map]
      exact List.reverse_perm _
    refine ⟨hnames.nodup_iff.mp hnew, fun name hname => ⟨fun hold => ?_, ?_⟩⟩
    · exact hapart name (hnames.mem_iff.mpr hname) name hold rfl
    · rw [hgains.globals, List.map_append]
      exact List.mem_append_left _ (hnames.mem_iff.mpr hname)

/-- **What is known stays sound across refusals.** After any files, each accepted or refused at any
point: no block is open, the global objects are labelled with their names, no two have one name, and
none has a function's; and over all files that are accepted, no function and no object is defined twice.
Inside a file, at any statement from any state, accepted or refused: a block and a `for` leave the scopes
exactly as they were, and any other statement only adds to the innermost scope, under names that were not
in it. -/
theorem session_sound (files : List Ast.Program) :
    (Known.after files).Separate ∧
      ((accepted {} files).flatMap fun t => t.functions.map (·.routine.name)).Nodup ∧
      ((accepted {} files).flatMap fun t => t.globals.map (·.symbol.name)).Nodup ∧
      ∀ (ctx : Context) (l : Locals),
        (∀ body span, (Check.exec (stmt ctx (.block body span)) l).2.scopes = l.scopes) ∧
        (∀ init condition update body span,
          (Check.exec (stmt ctx (.forLoop init condition update body span)) l).2.scopes = l.scopes) ∧
        ∀ s, l.scopes.Gains (Check.exec (stmt ctx s) l).2.scopes :=
  ⟨Known.separate_after files, nodup_accepted_functions files, nodup_accepted_globals files,
    fun _ l =>
      ⟨fun _ span => block_restores (fun s _ => stmt_gains s) span l,
        fun _ condition update body span =>
          forLoop_restores (fun s _ => stmt_gains s) (stmt_gains body) condition update span l,
        fun s => stmt_gains s l⟩⟩

end MiniC.Typing
