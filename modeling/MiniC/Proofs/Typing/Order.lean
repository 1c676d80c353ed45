import MiniC.Proofs.Typing.Globals
import MiniC.Proofs.Typing.Lookup

/-!
# The order of a file's items does not matter

What an item declares can be read off the item alone (`Ast.Item.entries`). The first pass accepts a
file just when its items are fine by themselves and no two of their entries clash (`addItems_iff`,
`exists_foldlM_enter_iff`), and what is known afterwards is determined by the entries, whatever their
order (`Known.Holds.alike`). The second pass only looks names up, so a file is accepted in one order
just when it is in every other, and its typed objects and functions move with their items
(`check_permuted`).
-/

set_option autoImplicit false

namespace MiniC

namespace Typing

@[simp] theorem refuse_ne_ok {α : Type} (fault : Fault) (span : Span) (a : α) :
    refuse fault span ≠ .ok a := fun h => by cases h

/-! ### What an item declares by itself -/

/-- A global object, from its declaration alone. -/
def objectOf (d : Ast.Declaration) : Except Error Typed.Global := do
  let type ← d.type.resolve d.span
  if type.isVoid then refuse (.unsupported (.voidVariable d.name)) d.span
  else
    let init ← d.init.mapM (globalInit d.name type)
    return ⟨Symbol.inData d.name type, init, d.span.start⟩

/-- A name that a file declares, with what it declares it as. -/
inductive Entry where
  | function (name : String) (signature : Signature)
  | object (symbol : Symbol)

/-- Two entries may stand in one file. -/
def Entry.Compatible : Entry → Entry → Prop
  | .function name s, .function name' s' => name = name' → Known.agrees s s' = true
  | .function name _, .object o => o.name ≠ name
  | .object o, .function name _ => o.name ≠ name
  | .object o, .object o' => o.name ≠ o'.name

theorem agrees_iff {s s' : Signature} :
    Known.agrees s s' = true ↔ s.result = s'.result ∧ s.parameters = s'.parameters ∧
      (s.isDefined = true → s'.isDefined = false) := by
  unfold Known.agrees
  cases s.isDefined <;> cases s'.isDefined <;> simp

theorem agrees_symm {s s' : Signature} (h : Known.agrees s s' = true) :
    Known.agrees s' s = true := by
  obtain ⟨hresult, hparameters, honce⟩ := agrees_iff.1 h
  refine agrees_iff.2 ⟨hresult.symm, hparameters.symm, fun hs' => ?_⟩
  by_contra hs
  rw [honce (Bool.of_not_eq_false hs)] at hs'
  cases hs'

theorem Entry.Compatible.symm {e e' : Entry} (h : e.Compatible e') : e'.Compatible e := by
  cases e <;> cases e'
  case function.function => exact fun heq => agrees_symm (h heq.symm)
  case function.object => exact h
  case object.function => exact h
  case object.object => exact Ne.symm h

theorem name_of_objectOf {d : Ast.Declaration} {g : Typed.Global} (h : objectOf d = .ok g) :
    g.symbol.name = d.name := by
  have hgives : Gives (objectOf d) fun g => g.symbol.name = d.name := by
    unfold objectOf
    refine Gives.bind (P := fun _ => True) (fun _ _ => trivial) fun type _ => ?_
    split
    · exact gives_refuse _ _
    · exact Gives.bind (P := fun _ => True) (fun _ _ => trivial) fun init _ => gives_pure rfl
  exact hgives g h

end Typing

namespace Ast.Item

open Typing

/-- The global objects of an item, in order. -/
def globals : Item → List Typed.Global
  | .function _ => []
  | .declare ds => ds.filterMap fun d => (objectOf d).toOption

/-- What an item declares, in order. -/
def entries : Item → List Entry
  | .function f => ((Known.signature f).toOption.map (.function f.name)).toList
  | .declare ds => (globals (.declare ds)).map fun g => .object g.symbol

/-- Nothing in an item is refused for its own sake. -/
def WellFormed : Item → Prop
  | .function f => ∃ s, Known.signature f = .ok s
  | .declare ds => ∀ d ∈ ds, ∃ g, objectOf d = .ok g

/-- The typed function of an item, if it is a definition and its body is accepted. -/
def functions (k : Known) : Item → List Typed.Function
  | .function f => (f.body.bind fun body => (Typing.function k f body).1.toOption).toList
  | .declare _ => []

/-- The body of an item, if it has one, is accepted. -/
def Accepted (k : Known) : Item → Prop
  | .function f => ∀ body ∈ f.body, ∃ t, (Typing.function k f body).1 = .ok t
  | .declare _ => True

end Ast.Item

namespace Typing

/-! ### The first pass, entry by entry -/

namespace Known

variable {k k' : Known}

/-- Make an entry known, unless it clashes with what is. -/
def enter (k : Known) : Entry → Option Known
  | .function name new =>
    if (k.scopes.lookup? name).isSome then none
    else
      match k.functions.find? name with
      | none => some { k with functions := k.functions.put name new }
      | some old =>
        if agrees old new then
          let merged := { old with isDefined := old.isDefined || new.isDefined }
          some { k with functions := k.functions.put name merged }
        else none
  | .object o =>
    if (k.functions.find? o.name).isSome then none
    else if k.scopes.declares o.name then none
    else some { k with scopes := k.scopes.insert o }

theorem enter_object_iff (o : Symbol) :
    k.enter (.object o) = some k' ↔
      k.functions.find? o.name = none ∧ k.scopes.declares o.name = false ∧
        k' = { k with scopes := k.scopes.insert o } := by
  rw [enter]
  cases k.functions.find? o.name <;> cases k.scopes.declares o.name <;> simp [eq_comm]

theorem enter_function_iff (name : String) (new : Signature) :
    k.enter (.function name new) = some k' ↔
      k.scopes.lookup? name = none ∧
        (∀ old, k.functions.find? name = some old → agrees old new = true) ∧
        k' = { k with functions := k.functions.put name (merged (k.functions.find? name) new) } := by
  rw [enter]
  cases k.scopes.lookup? name with
  | some o => simp
  | none =>
    cases k.functions.find? name with
    | none => simp [merged, @eq_comm _ k']
    | some old => by_cases h : agrees old new <;> simp [h, merged, @eq_comm _ k']

theorem addFunction_iff (f : Ast.Function) :
    k.addFunction f = .ok k' ↔
      ∃ s, signature f = .ok s ∧ k.enter (.function f.name s) = some k' := by
  rw [addFunction_ok_iff]
  exact exists_congr fun s => and_congr_right fun _ => (enter_function_iff f.name s).symm

theorem addGlobal_iff (d : Ast.Declaration) (g : Typed.Global) :
    k.addGlobal d = .ok (g, k') ↔ objectOf d = .ok g ∧ k.enter (.object g.symbol) = some k' := by
  rw [addGlobal_ok_iff, enter_object_iff, objectOf, bind_eq_ok_iff]
  constructor
  · rintro ⟨type, init, htype, hvoid, hfree, hinit, hnew, rfl, rfl⟩
    refine ⟨⟨type, htype, ?_⟩, hfree, hnew, rfl⟩
    rw [hvoid, hinit]
    rfl
  · rintro ⟨⟨type, htype, h⟩, hfree, hnew, rfl⟩
    split at h
    · simp at h
    rename_i hvoid
    obtain ⟨init, hinit, h⟩ := bind_eq_ok_iff.1 h
    cases h
    exact ⟨type, init, htype, Bool.of_not_eq_true hvoid, hfree, hinit, hnew, rfl, rfl⟩

theorem addGlobals_iff {ds : List Ast.Declaration} {gs : List Typed.Global} :
    k.addGlobals ds = (.ok gs, k') ↔
      (Ast.Item.declare ds).WellFormed ∧ gs = (Ast.Item.declare ds).globals ∧
        (Ast.Item.declare ds).entries.foldlM enter k = some k' := by
  induction ds generalizing k gs with
  | nil =>
    constructor
    · intro h
      cases h
      exact ⟨fun _ hd => absurd hd List.not_mem_nil, rfl, rfl⟩
    · rintro ⟨-, rfl, hfold⟩
      cases hfold
      rfl
  | cons d ds ih =>
    have hglobals : ∀ {g}, objectOf d = .ok g →
        (Ast.Item.declare (d :: ds)).globals = g :: (Ast.Item.declare ds).globals := fun hg => by
      simp [Ast.Item.globals, hg, Except.toOption]
    have hentries : ∀ {g}, objectOf d = .ok g → (Ast.Item.declare (d :: ds)).entries =
        .object g.symbol :: (Ast.Item.declare ds).entries := fun hg => by
      simp [Ast.Item.entries, hglobals hg]
    rw [addGlobals_cons_iff]
    constructor
    · rintro ⟨g, k1, others, hg, hrest, rfl⟩
      obtain ⟨hobject, henter⟩ := (addGlobal_iff d g).mp hg
      obtain ⟨hall, rfl, hfold⟩ := ih.mp hrest
      refine ⟨List.forall_mem_cons.mpr ⟨⟨g, hobject⟩, hall⟩, (hglobals hobject).symm, ?_⟩
      rw [hentries hobject, List.foldlM_cons, henter]
      exact hfold
    · rintro ⟨hall, rfl, hfold⟩
      obtain ⟨g, hobject⟩ := hall d List.mem_cons_self
      rw [hentries hobject, List.foldlM_cons] at hfold
      obtain ⟨k1, henter, hfold⟩ := Option.bind_eq_some_iff.mp hfold
      have hrest := ih.mpr ⟨fun d' hd' => hall d' (.tail d hd'), rfl, hfold⟩
      exact ⟨g, k1, _, (addGlobal_iff d g).mpr ⟨hobject, henter⟩, hrest, hglobals hobject⟩

theorem addItem_iff {item : Ast.Item} {gs : List Typed.Global} :
    k.addItem item = (.ok gs, k') ↔
      item.WellFormed ∧ gs = item.globals ∧ item.entries.foldlM enter k = some k' := by
  cases item with
  | declare ds => exact addGlobals_iff
  | function f =>
    have hentries : ∀ {s}, signature f = .ok s →
        (Ast.Item.function f).entries = [.function f.name s] := fun hs => by
      simp [Ast.Item.entries, hs, Except.toOption]
    rw [addItem_function_iff]
    constructor
    · rintro ⟨rfl, hf⟩
      obtain ⟨s, hs, henter⟩ := (addFunction_iff f).mp hf
      refine ⟨⟨s, hs⟩, rfl, ?_⟩
      rw [hentries hs, List.foldlM_cons, henter]
      rfl
    · rintro ⟨⟨s, hs⟩, rfl, hfold⟩
      rw [hentries hs, List.foldlM_cons] at hfold
      obtain ⟨k1, henter, hfold⟩ := Option.bind_eq_some_iff.mp hfold
      cases hfold
      exact ⟨rfl, (addFunction_iff f).mpr ⟨s, hs, henter⟩⟩

theorem addItems_iff {items : List Ast.Item} {gs : List Typed.Global} :
    k.addItems items = (.ok gs, k') ↔
      (∀ item ∈ items, item.WellFormed) ∧ gs = items.flatMap Ast.Item.globals ∧
        (items.flatMap Ast.Item.entries).foldlM enter k = some k' := by
  induction items generalizing k gs with
  | nil =>
    constructor
    · intro h
      cases h
      exact ⟨fun _ hitem => absurd hitem List.not_mem_nil, rfl, rfl⟩
    · rintro ⟨-, rfl, hfold⟩
      cases hfold
      rfl
  | cons item items ih =>
    rw [addItems_cons_iff]
    constructor
    · rintro ⟨gs1, k1, gs2, hitem, hrest, rfl⟩
      obtain ⟨hwf, rfl, hfold1⟩ := addItem_iff.1 hitem
      obtain ⟨hall, rfl, hfold2⟩ := ih.mp hrest
      refine ⟨List.forall_mem_cons.mpr ⟨hwf, hall⟩, rfl, ?_⟩
      rw [List.flatMap_cons, List.foldlM_append, hfold1]
      exact hfold2
    · rintro ⟨hall, rfl, hfold⟩
      obtain ⟨hwf, hall⟩ := List.forall_mem_cons.mp hall
      rw [List.flatMap_cons, List.foldlM_append] at hfold
      obtain ⟨k1, hfold1, hfold2⟩ := Option.bind_eq_some_iff.mp hfold
      exact ⟨_, k1, _, addItem_iff.2 ⟨hwf, rfl, hfold1⟩, ih.mpr ⟨hall, rfl, hfold2⟩, rfl⟩

/-! ### What is known of a list of entries -/

/-- A signature sums up what some entries declare under a name. -/
@[mk_iff] structure Sums (es : List Entry) (name : String) (t : Signature) : Prop where
  declared : ∃ s, .function name s ∈ es
  types : ∀ s, .function name s ∈ es → s.result = t.result ∧ s.parameters = t.parameters
  defined : t.isDefined = true ↔ ∃ s, .function name s ∈ es ∧ s.isDefined = true

/-- What is known is what some entries declare, in whatever order. -/
structure Holds (k : Known) (es : List Entry) : Prop where
  top : k.scopes.blocks = []
  objects : ∀ o, o ∈ k.globals ↔ .object o ∈ es
  nodup : (k.globals.map (·.name)).Nodup
  absent : ∀ name, k.functions.find? name = none → ∀ s, .function name s ∉ es
  sums : ∀ name t, k.functions.find? name = some t → Sums es name t

theorem holds_empty : Holds {} [] where
  top := rfl
  objects := by simp
  nodup := List.nodup_nil
  absent := by simp
  sums := fun _ _ h => by cases h

variable {es : List Entry} {e : Entry}

theorem Holds.find?_eq_none (h : k.Holds es) {name : String} (hnew : k.scopes.declares name = false) :
    Scope.find? k.globals name = none := by
  rw [Scopes.declares_top h.top] at hnew
  exact Option.isNone_iff_eq_none.mp (Option.isSome_eq_false_iff.mp hnew)

theorem Holds.compatible (h : k.Holds es) (henter : k.enter e = some k') :
    ∀ c ∈ es, c.Compatible e := by
  intro c hc
  cases e with
  | object o =>
    obtain ⟨hfree, hnew, -⟩ := (enter_object_iff o).mp henter
    cases c with
    | function name s =>
      rintro rfl
      exact h.absent _ hfree s hc
    | object o' => exact ne_of_find?_eq_none (h.find?_eq_none hnew) ((h.objects o').mpr hc)
  | function name new =>
    obtain ⟨hfree, hagrees, -⟩ := (enter_function_iff name new).mp henter
    rw [Scopes.lookup?_top h.top] at hfree
    cases c with
    | object o => exact ne_of_find?_eq_none hfree ((h.objects o).mpr hc)
    | function name' s =>
      rintro rfl
      cases hfind : k.functions.find? name' with
      | none => exact absurd hc (h.absent _ hfind s)
      | some old =>
        obtain ⟨hresult, hparameters, honce⟩ := agrees_iff.1 (hagrees old hfind)
        obtain ⟨hresult', hparameters'⟩ := (h.sums _ _ hfind).types s hc
        refine agrees_iff.2 ⟨hresult'.trans hresult, hparameters'.trans hparameters, fun hs => ?_⟩
        exact honce ((h.sums _ _ hfind).defined.mpr ⟨s, hc, hs⟩)

theorem Holds.exists_enter (h : k.Holds es) (hes : ∀ c ∈ es, c.Compatible e) :
    ∃ k', k.enter e = some k' := by
  have hobject : ∀ {name o}, Scope.find? k.globals name = some o →
      .object o ∈ es ∧ o.name = name := fun {name o} hfind =>
    ⟨(h.objects o).mp (List.mem_of_find?_eq_some hfind), by simpa using List.find?_some hfind⟩
  cases e with
  | object o =>
    refine ⟨_, (enter_object_iff o).mpr ⟨?_, ?_, rfl⟩⟩
    · rw [Option.eq_none_iff_forall_ne_some]
      intro t ht
      obtain ⟨s, hs⟩ := (h.sums _ _ ht).declared
      exact hes _ hs rfl
    · rw [Scopes.declares_top h.top, Option.isSome_eq_false_iff, Option.isNone_iff_eq_none,
        Option.eq_none_iff_forall_ne_some]
      intro o' ho'
      obtain ⟨hmem, hname⟩ := hobject ho'
      exact hes _ hmem hname
  | function name new =>
    refine ⟨_, (enter_function_iff name new).mpr ⟨?_, fun old hfind => ?_, rfl⟩⟩
    · rw [Scopes.lookup?_top h.top, Option.eq_none_iff_forall_ne_some]
      intro o ho
      obtain ⟨hmem, hname⟩ := hobject ho
      exact hes _ hmem hname
    · obtain ⟨s, hs⟩ := (h.sums _ _ hfind).declared
      obtain ⟨hresult, hparameters⟩ := (h.sums _ _ hfind).types s hs
      obtain ⟨hresult', hparameters', -⟩ := agrees_iff.1 (hes _ hs rfl)
      refine agrees_iff.2 ⟨hresult.symm.trans hresult', hparameters.symm.trans hparameters', ?_⟩
      intro hdefined
      obtain ⟨s', hs', hdefined'⟩ := (h.sums _ _ hfind).defined.mp hdefined
      exact (agrees_iff.1 (hes _ hs' rfl)).2.2 hdefined'

theorem Sums.cons {name : String} {t : Signature} (h : Sums es name t)
    (he : ∀ s, e ≠ .function name s) : Sums (e :: es) name t := by
  have hmem : ∀ s, .function name s ∈ e :: es ↔ .function name s ∈ es := fun s => by
    simp [(he s).symm]
  simp only [hmem, sums_iff] at h ⊢
  exact h

theorem Sums.merge {name : String} {old new : Signature} (h : Sums es name old)
    (hagrees : agrees old new = true) :
    Sums (.function name new :: es) name (merged (some old) new) := by
  obtain ⟨hresult, hparameters, -⟩ := agrees_iff.1 hagrees
  refine ⟨⟨new, List.mem_cons_self⟩, fun s hs => ?_, ?_⟩
  · rcases List.mem_cons.mp hs with hs | hs
    · cases hs
      exact ⟨hresult.symm, hparameters.symm⟩
    · exact h.types s hs
  · show (old.isDefined || new.isDefined) = true ↔ _
    rw [Bool.or_eq_true, h.defined]
    simp [or_and_right, exists_or, or_comm]

theorem Holds.enter (h : k.Holds es) (henter : k.enter e = some k') : k'.Holds (e :: es) := by
  cases e with
  | object o =>
    obtain ⟨-, hnew, rfl⟩ := (enter_object_iff o).mp henter
    obtain ⟨htop, hglobals⟩ := Scopes.insert_top h.top o
    replace hglobals : Known.globals { k with scopes := k.scopes.insert o } = o :: k.globals := hglobals
    refine ⟨htop, fun o' => by simp [hglobals, h.objects o'], ?_, ?_, ?_⟩
    · rw [hglobals]
      refine List.nodup_cons.mpr ⟨fun hmem => ?_, h.nodup⟩
      obtain ⟨o', ho', hname⟩ := List.mem_map.mp hmem
      exact ne_of_find?_eq_none (h.find?_eq_none hnew) ho' hname
    · intro name hfind s
      simpa using h.absent name hfind s
    · intro name t hfind
      exact (h.sums name t hfind).cons fun s hs => by cases hs
  | function name new =>
    obtain ⟨-, hagrees, rfl⟩ := (enter_function_iff name new).mp henter
    refine ⟨h.top, fun o => ?_, h.nodup, fun name' hfind s => ?_, fun name' t hfind => ?_⟩
    · show o ∈ k.globals ↔ _
      simpa using h.objects o
    · rw [find?_put] at hfind
      split at hfind
      · cases hfind
      · rename_i hne
        simpa [hne] using h.absent name' hfind s
    · rw [find?_put] at hfind
      split at hfind
      · rename_i heq
        subst heq
        cases hfind
        cases hold : k.functions.find? name' with
        | none =>
          have hnone := h.absent name' hold
          exact ⟨⟨new, List.mem_cons_self⟩, by simp [hnone, merged], by simp [hnone, merged]⟩
        | some old => exact (h.sums name' old hold).merge (hagrees old hold)
      · rename_i hne
        exact (h.sums name' t hfind).cons fun s hs => by cases hs; exact hne rfl

/-- The entries of a file become known just when no two of them clash. -/
theorem exists_foldlM_enter_iff (h : k.Holds es) (new : List Entry) :
    (∃ k', new.foldlM enter k = some k') ↔
      new.Pairwise Entry.Compatible ∧ ∀ c ∈ es, ∀ e ∈ new, c.Compatible e := by
  induction new generalizing k es with
  | nil => simp [pure]
  | cons e new ih =>
    rw [List.pairwise_cons]
    constructor
    · rintro ⟨k', hk'⟩
      obtain ⟨k1, hk1, hfold⟩ := Option.bind_eq_some_iff.mp hk'
      obtain ⟨hpair, hes⟩ := (ih (h.enter hk1)).mp ⟨k', hfold⟩
      refine ⟨⟨hes e List.mem_cons_self, hpair⟩, fun c hc => List.forall_mem_cons.mpr ⟨?_, ?_⟩⟩
      · exact h.compatible hk1 c hc
      · exact hes c (.tail e hc)
    · rintro ⟨⟨hhead, hpair⟩, hes⟩
      obtain ⟨k1, hk1⟩ := h.exists_enter fun c hc => hes c hc e List.mem_cons_self
      have hrest : ∀ c ∈ e :: es, ∀ e' ∈ new, c.Compatible e' :=
        List.forall_mem_cons.mpr ⟨hhead, fun c hc e' he' => hes c hc e' (.tail e he')⟩
      obtain ⟨k', hk'⟩ := (ih (h.enter hk1)).mpr ⟨hpair, hrest⟩
      exact ⟨k', Option.bind_eq_some_iff.mpr ⟨k1, hk1, hk'⟩⟩

theorem Holds.foldlM (h : k.Holds es) {new : List Entry} (hfold : new.foldlM Known.enter k = some k') :
    k'.Holds (new.reverse ++ es) := by
  induction new generalizing k es with
  | nil =>
    cases hfold
    exact h
  | cons e new ih =>
    obtain ⟨k1, hk1, hfold⟩ := Option.bind_eq_some_iff.mp hfold
    rw [List.reverse_cons, List.append_assoc]
    exact ih (h.enter hk1) hfold

theorem find?_eq_some_iff {scope : Scope} (h : (scope.map (·.name)).Nodup) {name : String}
    {o : Symbol} : scope.find? name = some o ↔ o ∈ scope ∧ o.name = name := by
  constructor
  · intro hfind
    exact ⟨List.mem_of_find?_eq_some hfind, by simpa using List.find?_some hfind⟩
  · rintro ⟨ho, rfl⟩
    cases hfind : scope.find? o.name with
    | none => exact absurd rfl (ne_of_find?_eq_none hfind ho)
    | some o' =>
      have hname : o'.name = o.name := by simpa using List.find?_some hfind
      rw [List.inj_on_of_nodup_map h (List.mem_of_find?_eq_some hfind) ho hname]

theorem Sums.unique {name : String} {t t' : Signature} {es' : List Entry} (h : Sums es name t)
    (h' : Sums es' name t') (hes : ∀ e, e ∈ es ↔ e ∈ es') : t = t' := by
  obtain ⟨s, hs⟩ := h.declared
  obtain ⟨hresult, hparameters⟩ := h.types s hs
  obtain ⟨hresult', hparameters'⟩ := h'.types s ((hes _).mp hs)
  have hdefined : t.isDefined = t'.isDefined := by
    rw [Bool.eq_iff_iff, h.defined, h'.defined]
    simp only [hes]
  obtain ⟨result, parameters, isDefined⟩ := t
  obtain ⟨result', parameters', isDefined'⟩ := t'
  simp_all

/-- Every name means the same, outside all blocks. -/
structure Alike (k k' : Known) : Prop where
  top : k.scopes.blocks = []
  top' : k'.scopes.blocks = []
  globals : ∀ name, Scope.find? k.globals name = Scope.find? k'.globals name
  functions : ∀ name, k.functions.find? name = k'.functions.find? name

theorem Alike.symm (h : k.Alike k') : k'.Alike k :=
  ⟨h.top', h.top, fun name => (h.globals name).symm, fun name => (h.functions name).symm⟩

theorem Alike.extends (h : k.Alike k') : k.Extends k' :=
  ⟨h.top, h.top', fun name _ ho => h.globals name ▸ ho,
    fun name old hold => ⟨old, h.functions name ▸ hold, rfl, rfl⟩⟩

/-- The same entries make every name mean the same. -/
theorem Holds.alike {es' : List Entry} (h : k.Holds es) (h' : k'.Holds es')
    (hes : ∀ e, e ∈ es ↔ e ∈ es') : k.Alike k' where
  top := h.top
  top' := h'.top
  globals name := by
    ext o
    rw [find?_eq_some_iff h.nodup, find?_eq_some_iff h'.nodup,
      h.objects, h'.objects, hes]
  functions name := by
    cases hfind : k.functions.find? name with
    | none =>
      cases hfind' : k'.functions.find? name with
      | none => rfl
      | some t' =>
        obtain ⟨s, hs⟩ := (h'.sums name t' hfind').declared
        exact absurd ((hes _).mpr hs) (h.absent name hfind s)
    | some t =>
      cases hfind' : k'.functions.find? name with
      | none =>
        obtain ⟨s, hs⟩ := (h.sums name t hfind).declared
        exact absurd ((hes _).mp hs) (h'.absent name hfind' s)
      | some t' => rw [(h.sums name t hfind).unique (h'.sums name t' hfind') hes]

end Known

/-! ### The second pass, and both together -/

theorem functions_iff {k : Known} {items : List Ast.Item} {ts : List Typed.Function} :
    (functions k items).1 = .ok ts ↔
      (∀ item ∈ items, item.Accepted k) ∧ ts = items.flatMap (Ast.Item.functions k) := by
  induction items generalizing ts with
  | nil =>
    show Except.ok [] = Except.ok ts ↔ _
    rw [Except.ok.injEq, eq_comm]
    exact ⟨fun h => ⟨fun _ hitem => absurd hitem List.not_mem_nil, h⟩, fun h => h.2⟩
  | cons item items ih =>
    rw [List.forall_mem_cons, List.flatMap_cons]
    -- Only definitions are looked at.
    obtain ⟨name, result, ps, _ | body, span⟩ | ds := item
    · simpa [functions, Ast.Item.Accepted, Ast.Item.functions] using ih
    · rw [functions_definition, bind_eq_ok_iff]
      constructor
      · rintro ⟨f, hf, h⟩
        obtain ⟨others, hothers, h⟩ := bind_eq_ok_iff.1 h
        cases h
        obtain ⟨hall, rfl⟩ := ih.mp hothers
        refine ⟨⟨fun body' hbody' => ?_, hall⟩, ?_⟩
        · cases hbody'
          exact ⟨f, hf⟩
        · simp [Ast.Item.functions, hf, Except.toOption]
      · rintro ⟨⟨haccepted, hall⟩, rfl⟩
        obtain ⟨f, hf⟩ := haccepted body rfl
        refine ⟨f, hf, bind_eq_ok_iff.2 ⟨_, ih.mpr ⟨hall, rfl⟩, ?_⟩⟩
        simp [Ast.Item.functions, hf, Except.toOption, pure, Except.pure]
    · simpa [functions, Ast.Item.Accepted, Ast.Item.functions] using ih

/-- A file is accepted just when its items are fine by themselves, become known one after another,
and their bodies are accepted with all of them known. -/
theorem check_iff {u : Ast.Program} {t : Typed.Program} :
    check u = .ok t ↔
      (∀ item ∈ u.items, item.WellFormed) ∧
        ∃ k, (u.items.flatMap Ast.Item.entries).foldlM Known.enter {} = some k ∧
          (∀ item ∈ u.items, item.Accepted k) ∧
          t = ⟨u.items.flatMap Ast.Item.globals, u.items.flatMap (Ast.Item.functions k)⟩ := by
  unfold check program
  constructor
  · intro h
    split at h
    · cases h
    rename_i gs k hitems
    obtain ⟨hwf, rfl, hfold⟩ := Known.addItems_iff.1 hitems
    obtain ⟨ts, hts, rfl⟩ := of_map_eq_ok h
    obtain ⟨haccepted, rfl⟩ := functions_iff.1 hts
    exact ⟨hwf, k, hfold, haccepted, rfl⟩
  · rintro ⟨hwf, k, hfold, haccepted, rfl⟩
    rw [Known.addItems_iff.2 ⟨hwf, rfl, hfold⟩]
    dsimp only
    rw [functions_iff.2 ⟨haccepted, rfl⟩]
    rfl

section Alike

variable {k k' : Known}

theorem functions_alike (h : k.Alike k') : Ast.Item.functions k = Ast.Item.functions k' := by
  funext item
  cases item with
  | function f =>
    simp only [Ast.Item.functions, (function_follows h.extends f _).toOption_eq
      (function_follows h.symm.extends f _)]
  | declare ds => rfl

theorem accepted_of_extends (h : k.Extends k') {item : Ast.Item} (hitem : item.Accepted k) :
    item.Accepted k' := by
  cases item with
  | function f =>
    intro body hbody
    obtain ⟨t, ht⟩ := hitem body hbody
    exact ⟨t, function_follows h f body t ht⟩
  | declare ds => trivial

end Alike

/-- Another order of an accepted file is accepted, with what is known alike. -/
theorem exists_known_of_perm {items items' : List Ast.Item} (h : items.Perm items') {k : Known}
    (hk : (items.flatMap Ast.Item.entries).foldlM Known.enter {} = some k) :
    ∃ k', (items'.flatMap Ast.Item.entries).foldlM Known.enter {} = some k' ∧ k.Alike k' := by
  have hentries : (items.flatMap Ast.Item.entries).Perm (items'.flatMap Ast.Item.entries) :=
    h.flatMap_right _
  have hpair := ((Known.exists_foldlM_enter_iff Known.holds_empty _).mp ⟨k, hk⟩).1
  have hpair' : (items'.flatMap Ast.Item.entries).Pairwise Entry.Compatible :=
    hentries.pairwise hpair Entry.Compatible.symm
  obtain ⟨k', hk'⟩ := (Known.exists_foldlM_enter_iff Known.holds_empty _).mpr
    ⟨hpair', fun _ hc => absurd hc List.not_mem_nil⟩
  refine ⟨k', hk', (Known.holds_empty.foldlM hk).alike (Known.holds_empty.foldlM hk') fun e => ?_⟩
  simp only [List.append_nil, List.mem_reverse, hentries.mem_iff]

theorem check_of_perm {u u' : Ast.Program} (h : u.items.Perm u'.items) {t : Typed.Program}
    (ht : check u = .ok t) :
    ∃ k, t = ⟨u.items.flatMap Ast.Item.globals, u.items.flatMap (Ast.Item.functions k)⟩ ∧
      (∀ item ∈ u.items, item.WellFormed ∧ item.Accepted k) ∧
      check u' =
        .ok ⟨u'.items.flatMap Ast.Item.globals, u'.items.flatMap (Ast.Item.functions k)⟩ := by
  obtain ⟨hwf, k, hk, haccepted, rfl⟩ := check_iff.1 ht
  obtain ⟨k', hk', halike⟩ := exists_known_of_perm h hk
  refine ⟨k, rfl, fun item hitem => ⟨hwf item hitem, haccepted item hitem⟩, check_iff.2 ?_⟩
  refine ⟨fun item hitem => hwf item (h.mem_iff.mpr hitem), k', hk', fun item hitem => ?_, ?_⟩
  · exact accepted_of_extends halike.extends (haccepted item (h.mem_iff.mpr hitem))
  · rw [functions_alike halike]

theorem names_of_globals {item : Ast.Item} (h : item.WellFormed) :
    item.globals.map (·.symbol.name) = item.objectNames := by
  cases item with
  | function f => rfl
  | declare ds =>
    induction ds with
    | nil => rfl
    | cons d ds ih =>
      obtain ⟨⟨g, hg⟩, hrest⟩ := List.forall_mem_cons.mp h
      have hglobals : (Ast.Item.declare (d :: ds)).globals = g :: (Ast.Item.declare ds).globals := by
        simp [Ast.Item.globals, hg, Except.toOption]
      rw [hglobals, List.map_cons, name_of_objectOf hg, ih hrest]
      rfl

theorem names_of_accepted {k : Known} {item : Ast.Item} (h : item.Accepted k) :
    (item.functions k).map (·.routine.name) = item.definition?.toList := by
  have hchecked : (functions k [item]).1 = .ok (item.functions k) :=
    functions_iff.2 ⟨by simpa using h, by simp⟩
  rw [names_of_functions hchecked]
  cases hname : item.definition? <;> simp [hname]

/-- **The order of items does not matter.** A file is accepted just when it is in any other order.
Then each item has its own typed objects, one for each declarator, and its own typed function, if it
gives a body, and both orders give those of their items one after another: with the same bodies,
places on the frame and sizes of frames. -/
theorem check_permuted {u u' : Ast.Program} (h : u.items.Perm u'.items) :
    ((∃ t, check u = .ok t) ↔ ∃ t', check u' = .ok t') ∧
      ∀ t t', check u = .ok t → check u' = .ok t' →
        ∃ (globals : Ast.Item → List Typed.Global) (functions : Ast.Item → List Typed.Function),
          (∀ item ∈ u.items, (globals item).map (·.symbol.name) = item.objectNames ∧
            (functions item).map (·.routine.name) = item.definition?.toList) ∧
          t = ⟨u.items.flatMap globals, u.items.flatMap functions⟩ ∧
          t' = ⟨u'.items.flatMap globals, u'.items.flatMap functions⟩ := by
  refine ⟨⟨fun ⟨t, ht⟩ => ?_, fun ⟨t', ht'⟩ => ?_⟩, fun t t' ht ht' => ?_⟩
  · obtain ⟨k, -, -, hcheck⟩ := check_of_perm h ht
    exact ⟨_, hcheck⟩
  · obtain ⟨k, -, -, hcheck⟩ := check_of_perm h.symm ht'
    exact ⟨_, hcheck⟩
  · obtain ⟨k, rfl, hitems, hcheck⟩ := check_of_perm h ht
    refine ⟨Ast.Item.globals, Ast.Item.functions k, fun item hitem => ?_, rfl, ?_⟩
    · exact ⟨names_of_globals (hitems item hitem).1, names_of_accepted (hitems item hitem).2⟩
    · exact Except.ok.inj (ht'.symm.trans hcheck)

/-- `int main() { return f(t); } int t = 1, u[2]; int f(int n); int f(int n) { int m = n; return m; }` -/
def callFirst : List Ast.Item :=
  let int : Ast.TypeName := ⟨.int, 0, none⟩
  let n : Ast.Parameter := ⟨"n", int, .unknown⟩
  let one : Ast.Initializer := .expr (.literal (.int 1) .unknown)
  let copy : Ast.Declaration := ⟨"m", int, some (.expr (.name "n" .unknown)), .unknown⟩
  let call : Ast.Expr := .call "f" [.name "t" .unknown] .unknown
  [.function ⟨"main", int, [], some (.block [.ret (some call) .unknown] .unknown), .unknown⟩,
    .declare [⟨"t", int, some one, .unknown⟩, ⟨"u", ⟨.int, 0, some 2⟩, none, .unknown⟩],
    .function ⟨"f", int, [n], none, .unknown⟩,
    .function ⟨"f", int, [n],
      some (.block [.declare [copy] .unknown, .ret (some (.name "m" .unknown)) .unknown] .unknown),
      .unknown⟩]

theorem check_callFirst_reversed :
    callFirst.Perm callFirst.reverse ∧ (∃ t, check ⟨callFirst, .unknown⟩ = .ok t) ∧
      ∃ t', check ⟨callFirst.reverse, .unknown⟩ = .ok t' := by
  have hperm : callFirst.Perm callFirst.reverse := (List.reverse_perm _).symm
  have hcheck : ∃ t, check ⟨callFirst, .unknown⟩ = .ok t := ⟨_, by cbv⟩
  exact ⟨hperm, hcheck,
    (@check_permuted ⟨callFirst, .unknown⟩ ⟨callFirst.reverse, .unknown⟩ hperm).1.mp hcheck⟩

end Typing

end MiniC
