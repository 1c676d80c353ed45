import MiniC.Proofs.Typing.Program

/-!
# What a file declares

The functions that an accepted file defines have different names, since a second body under one name is
refused (`nodup_names`); each is named in the file (`names_spelled`), and has the types that are known
under its name (`signs_of_program`). After the file, the global objects that are known are those of
before and its own (`globals_known`).
-/

set_option autoImplicit false

namespace MiniC

/-- The name under which an item gives a body. -/
def Ast.Item.definition? : Ast.Item → Option String
  | .function f => if f.body.isSome then some f.name else none
  | .declare _ => none

namespace Typing

theorem find?_put (s : Signatures) (name name' : String) (new : Signature) :
    (s.put name new).find? name' = if name' = name then some new else s.find? name' := by
  induction s with
  | nil =>
    by_cases h : name' = name
    · simp [Signatures.put, Signatures.find?, h]
    · simp [Signatures.put, Signatures.find?, List.lookup, h, beq_eq_false_iff_ne.mpr h]
  | cons entry rest ih =>
    obtain ⟨n, old⟩ := entry
    simp only [Signatures.find?] at ih
    simp only [Signatures.put, Signatures.find?]
    by_cases hn : n = name
    · subst hn
      by_cases h : name' = n
      · simp [h]
      · simp [List.lookup, h, beq_eq_false_iff_ne.mpr h]
    · rw [if_neg hn, List.lookup_cons, List.lookup_cons, ih]
      by_cases h : name' = n
      · have hne : name' ≠ name := h ▸ hn
        simp [h, hn]
      · simp [beq_eq_false_iff_ne.mpr h]

theorem find?_put_self (s : Signatures) (name : String) (new : Signature) :
    (s.put name new).find? name = some new := by
  rw [find?_put, if_pos rfl]

namespace Known

variable {k k' : Known}

theorem addGlobals_cons_iff {d : Ast.Declaration} {ds : List Ast.Declaration} {gs : List Typed.Global} :
    k.addGlobals (d :: ds) = (.ok gs, k') ↔
      ∃ g k1 others, k.addGlobal d = .ok (g, k1) ∧ k1.addGlobals ds = (.ok others, k') ∧ gs = g :: others := by
  rw [addGlobals]
  constructor
  · intro h
    split at h
    · cases h
    rename_i g k1 hg
    obtain ⟨hmap, rfl⟩ := Prod.mk.inj h
    obtain ⟨others, hothers, rfl⟩ := of_map_eq_ok hmap
    exact ⟨g, k1, others, hg, Prod.ext hothers rfl, rfl⟩
  · rintro ⟨g, k1, others, hg, hothers, rfl⟩
    rw [hg]
    dsimp only
    rw [hothers]
    rfl

theorem addItem_function_iff {f : Ast.Function} {gs : List Typed.Global} :
    k.addItem (.function f) = (.ok gs, k') ↔ gs = [] ∧ k.addFunction f = .ok k' := by
  rw [addItem]
  constructor
  · intro h
    split at h
    · cases h
    · rename_i k1 hadd
      cases h
      exact ⟨rfl, hadd⟩
  · rintro ⟨rfl, hadd⟩
    rw [hadd]

theorem addItems_cons_iff {item : Ast.Item} {items : List Ast.Item} {gs : List Typed.Global} :
    k.addItems (item :: items) = (.ok gs, k') ↔
      ∃ gs1 k1 gs2, k.addItem item = (.ok gs1, k1) ∧ k1.addItems items = (.ok gs2, k') ∧ gs = gs1 ++ gs2 := by
  rw [addItems]
  constructor
  · intro h
    split at h
    · cases h
    rename_i gs1 k1 hitem
    obtain ⟨hmap, rfl⟩ := Prod.mk.inj h
    obtain ⟨gs2, hrest, rfl⟩ := of_map_eq_ok hmap
    exact ⟨gs1, k1, gs2, hitem, Prod.ext hrest rfl, rfl⟩
  · rintro ⟨gs1, k1, gs2, hitem, hrest, rfl⟩
    rw [hitem]
    dsimp only
    rw [hrest]
    rfl

/-- A body has been seen under a name. -/
def Defines (k : Known) (name : String) : Prop :=
  ∃ signature, k.functions.find? name = some signature ∧ signature.isDefined = true

/-- What an item adds to what is known: its own definition, if it is one, and its global objects. -/
structure Adds (k : Known) (definition : Option String) (gs : List Typed.Global) (k' : Known) :
    Prop where
  fresh : ∀ name ∈ definition, ¬ k.Defines name
  defines : ∀ name ∈ definition, k'.Defines name
  keeps : ∀ name, k.Defines name → k'.Defines name
  globals : ∀ o ∈ k'.globals, o ∈ k.globals ∨ o ∈ gs.map (·.symbol)

theorem addFunction_adds (f : Ast.Function) :
    Gives (k.addFunction f) (k.Adds (Ast.Item.function f).definition? []) := by
  have hdefinition : ∀ name ∈ (Ast.Item.function f).definition?, f.body.isSome = true ∧ name = f.name := by
    intro name hname
    rw [Ast.Item.definition?] at hname
    split at hname
    · rename_i hbody
      exact ⟨hbody, (Option.mem_some_iff.mp hname).symm⟩
    · cases hname
  have hsignature : Gives (signature f) fun new => new.isDefined = f.body.isSome := by
    unfold signature
    refine Gives.bind (P := fun _ => True) (fun _ _ => trivial) fun result _ => ?_
    split
    · exact gives_refuse _ _
    · exact Gives.bind (P := fun _ => True) (fun _ _ => trivial) fun types _ => gives_pure rfl
  intro k' h
  obtain ⟨new, hnew, -, hagrees, rfl⟩ := addFunction_ok_iff.1 h
  have hdefined : new.isDefined = f.body.isSome := hsignature new hnew
  refine ⟨fun name hname => ?_, fun name hname => ?_, fun name hname => ?_, fun o ho => .inl ho⟩
  · -- of two declarations of one name at most one has a body
    obtain ⟨hbody, rfl⟩ := hdefinition name hname
    rintro ⟨old, hfind, hold⟩
    have hagrees := hagrees old hfind
    simp [agrees, hold, hdefined, hbody] at hagrees
  · obtain ⟨hbody, rfl⟩ := hdefinition name hname
    refine ⟨_, find?_put_self .., ?_⟩
    cases k.functions.find? f.name <;> simp [merged, hdefined, hbody]
  · obtain ⟨old, hfind, hold⟩ := hname
    by_cases heq : name = f.name
    · subst heq
      exact ⟨_, find?_put_self .., by simp [hfind, merged, hold]⟩
    · exact ⟨old, by simp [find?_put, heq, hfind], hold⟩

theorem addGlobal_adds (d : Ast.Declaration) :
    Gives (k.addGlobal d) fun r => k.Adds none [r.1] r.2 := by
  rintro ⟨_, _⟩ h
  obtain ⟨type, init, -, -, -, -, -, rfl, rfl⟩ := addGlobal_ok_iff.1 h
  refine ⟨by simp, by simp, fun _ h => h, fun o ho => ?_⟩
  exact (Scopes.mem_globals_insert ho).imp_right fun heq => by simp [heq]

theorem Adds.refl (k : Known) : k.Adds none [] k :=
  ⟨by simp, by simp, fun _ h => h, fun _ h => .inl h⟩

theorem addGlobals_adds {ds : List Ast.Declaration} {gs : List Typed.Global}
    (h : k.addGlobals ds = (.ok gs, k')) : k.Adds none gs k' := by
  induction ds generalizing k gs with
  | nil =>
    cases h
    exact .refl _
  | cons d ds ih =>
    obtain ⟨g, k1, others, hg, hrest, rfl⟩ := addGlobals_cons_iff.1 h
    have hfirst := addGlobal_adds d (g, k1) hg
    have hsecond := ih hrest
    refine ⟨by simp, by simp, fun n hn => hsecond.keeps n (hfirst.keeps n hn), fun o ho => ?_⟩
    rcases hsecond.globals o ho with ho | ho
    · exact (hfirst.globals o ho).imp_right fun ho => by simp_all
    · exact .inr (by simp_all)

theorem addItem_adds {item : Ast.Item} {gs : List Typed.Global}
    (h : k.addItem item = (.ok gs, k')) : k.Adds item.definition? gs k' := by
  cases item with
  | function f =>
    obtain ⟨rfl, hadd⟩ := addItem_function_iff.1 h
    exact addFunction_adds f _ hadd
  | declare ds => exact addGlobals_adds h

/-- The definitions of a file are of different names, none of them defined before. -/
theorem addItems_adds {items : List Ast.Item} {gs : List Typed.Global}
    (h : k.addItems items = (.ok gs, k')) :
    (items.filterMap Ast.Item.definition?).Nodup ∧
      (∀ name ∈ items.filterMap Ast.Item.definition?, ¬ k.Defines name) ∧
      ∀ o ∈ k'.globals, o ∈ k.globals ∨ o ∈ gs.map (·.symbol) := by
  induction items generalizing k gs with
  | nil =>
    cases h
    exact ⟨by simp, by simp, fun _ ho => .inl ho⟩
  | cons item items ih =>
    obtain ⟨gs1, k1, gs2, hitem, hrest, rfl⟩ := addItems_cons_iff.1 h
    have hfirst := addItem_adds hitem
    obtain ⟨hnodup, hfresh, hglobals⟩ := ih hrest
    have hall : ∀ o ∈ k'.globals, o ∈ k.globals ∨ o ∈ (gs1 ++ gs2).map (·.symbol) := by
      intro o ho
      rw [List.map_append, List.mem_append]
      rcases hglobals o ho with ho | ho
      · exact (hfirst.globals o ho).imp_right .inl
      · exact .inr (.inr ho)
    have hold : ∀ name ∈ items.filterMap Ast.Item.definition?, ¬ k.Defines name :=
      fun name hname hdefines => hfresh name hname (hfirst.keeps name hdefines)
    cases hdefinition : item.definition? with
    | none =>
      rw [List.filterMap_cons_none hdefinition]
      exact ⟨hnodup, hold, hall⟩
    | some name =>
      rw [List.filterMap_cons_some hdefinition]
      refine ⟨List.nodup_cons.mpr ⟨fun hmem => ?_, hnodup⟩, ?_, hall⟩
      · exact hfresh name hmem (hfirst.defines name hdefinition)
      · exact List.forall_mem_cons.mpr ⟨hfirst.fresh name hdefinition, hold⟩

/-! ### Signatures -/

/-- A name keeps the types that it was declared with. -/
def Keeps (k k' : Known) : Prop :=
  ∀ name old, k.functions.find? name = some old → ∃ new, k'.functions.find? name = some new ∧
    new.result = old.result ∧ new.parameters = old.parameters

/-- Under the name of a function, each of its parameters has a type. -/
def Declares (k : Known) (f : Ast.Function) : Prop :=
  ∃ signature, k.functions.find? f.name = some signature ∧
    signature.parameters.length = f.parameters.length

theorem Keeps.refl (k : Known) : k.Keeps k := fun _ old h => ⟨old, h, rfl, rfl⟩

theorem Keeps.trans {k'' : Known} (h : k.Keeps k') (h' : k'.Keeps k'') : k.Keeps k'' := by
  intro name old hold
  obtain ⟨new, hnew, hresult, hparameters⟩ := h name old hold
  obtain ⟨last, hlast, hresult', hparameters'⟩ := h' name new hnew
  exact ⟨last, hlast, hresult'.trans hresult, hparameters'.trans hparameters⟩

theorem Keeps.declares (h : k.Keeps k') {f : Ast.Function} (hf : k.Declares f) : k'.Declares f := by
  obtain ⟨old, hold, hlength⟩ := hf
  obtain ⟨new, hnew, -, hparameters⟩ := h f.name old hold
  exact ⟨new, hnew, hparameters ▸ hlength⟩

theorem length_of_mapM {α β : Type} {f : α → Except Error β} {xs : List α} :
    Gives (xs.mapM f) fun ys => ys.length = xs.length := by
  induction xs with
  | nil => exact gives_pure rfl
  | cons x xs ih =>
    rw [List.mapM_cons]
    refine Gives.bind (P := fun _ => True) (fun _ _ => trivial) fun y _ => ?_
    exact ih.bind fun ys hys => gives_pure (by simp [hys])

theorem length_of_signature (f : Ast.Function) :
    Gives (signature f) fun s => s.parameters.length = f.parameters.length := by
  unfold signature
  refine Gives.bind (P := fun _ => True) (fun _ _ => trivial) fun result _ => ?_
  split
  · exact gives_refuse _ _
  · exact length_of_mapM.bind fun types htypes => gives_pure htypes

theorem addFunction_declares (f : Ast.Function) :
    Gives (k.addFunction f) fun k' => k.Keeps k' ∧ k'.Declares f := by
  intro k' h
  obtain ⟨new, hnew, -, hagrees, rfl⟩ := addFunction_ok_iff.1 h
  have hlength : new.parameters.length = f.parameters.length := length_of_signature f new hnew
  -- what is put under the name has the types of what was there, if anything was
  refine ⟨fun name old hfind => ?_, _, find?_put_self .., ?_⟩
  · by_cases heq : name = f.name
    · subst heq
      exact ⟨_, find?_put_self .., by simp [hfind, merged]⟩
    · exact ⟨old, by simp [find?_put, heq, hfind], rfl, rfl⟩
  · cases hfind : k.functions.find? f.name with
    | none => exact hlength
    | some old =>
      have hagrees := hagrees old hfind
      rw [agrees, Bool.and_eq_true, Bool.and_eq_true, beq_iff_eq, beq_iff_eq] at hagrees
      exact hagrees.1.2 ▸ hlength

theorem functions_addGlobals (ds : List Ast.Declaration) :
    (k.addGlobals ds).2.functions = k.functions := by
  induction ds generalizing k with
  | nil => rfl
  | cons d ds ih =>
    rw [addGlobals]
    split
    · rfl
    · rename_i g k1 hg
      obtain ⟨type, init, -, -, -, -, -, -, rfl⟩ := addGlobal_ok_iff.1 hg
      exact ih

/-- A file declares its functions, and changes no types that are known. -/
theorem addItems_declares {items : List Ast.Item} {gs : List Typed.Global}
    (h : k.addItems items = (.ok gs, k')) :
    k.Keeps k' ∧ ∀ f, .function f ∈ items → k'.Declares f := by
  induction items generalizing k gs with
  | nil =>
    cases h
    exact ⟨.refl _, by simp⟩
  | cons item items ih =>
    obtain ⟨gs1, k1, gs2, hitem, hrest, -⟩ := addItems_cons_iff.1 h
    have hfirst : k.Keeps k1 ∧ ∀ f, item = .function f → k1.Declares f := by
      cases item with
      | function f =>
        obtain ⟨-, hadd⟩ := addItem_function_iff.1 hitem
        obtain ⟨hkeeps, hdeclares⟩ := addFunction_declares f _ hadd
        exact ⟨hkeeps, fun f' hf' => by cases hf'; exact hdeclares⟩
      | declare ds =>
        have hsame := functions_addGlobals (k := k) ds
        rw [show k.addGlobals ds = (.ok gs1, k1) from hitem] at hsame
        exact ⟨fun name old hold => ⟨old, hsame ▸ hold, rfl, rfl⟩, fun f hf => by cases hf⟩
    obtain ⟨hkeeps, hdeclares⟩ := ih hrest
    refine ⟨hfirst.1.trans hkeeps, fun f hf => ?_⟩
    rcases List.mem_cons.mp hf with hf | hf
    · exact hkeeps.declares (hfirst.2 f hf.symm)
    · exact hdeclares f hf

end Known

/-! ### The functions of a file -/

section Functions

variable {k k' : Known} {L : Ast.Lexicon}

/-- Checked functions have the names of their definitions, in their order. -/
theorem names_of_functions {items : List Ast.Item} {ts : List Typed.Function}
    (h : (functions k items).1 = .ok ts) :
    ts.map (·.routine.name) = items.filterMap Ast.Item.definition? := by
  induction items generalizing ts with
  | nil =>
    cases h
    rfl
  | cons item items ih =>
    obtain ⟨name, result, ps, _ | body, span⟩ | ds := item
    · exact ih h
    · obtain ⟨t, others, ht, hothers, rfl⟩ := functions_definition_eq_ok h
      have hname : t.routine.name = name := by
        obtain ⟨signature, -, ps', l1, ts', l2, -, -, rfl⟩ := of_function ht
        rfl
      have hdefinition : (Ast.Item.function ⟨name, result, ps, some body, span⟩).definition? =
          some name := rfl
      rw [List.filterMap_cons_some hdefinition, List.map_cons, hname, ih hothers]
    · exact ih h

variable {p : Ast.Program} {t : Typed.Program}

theorem nodup_names (h : program k p = (.ok t, k')) : (t.functions.map (·.routine.name)).Nodup := by
  obtain ⟨hitems, hfunctions⟩ := of_program h
  rw [names_of_functions hfunctions]
  exact (Known.addItems_adds hitems).1

theorem names_spelled (hp : p.Spelled L) (h : program k p = (.ok t, k')) :
    ∀ f ∈ t.functions, L.names f.routine.name := by
  intro f hf
  have hmem : f.routine.name ∈ t.functions.map (·.routine.name) := List.mem_map_of_mem hf
  rw [names_of_functions (of_program h).2] at hmem
  obtain ⟨item, hitem, hname⟩ := List.mem_filterMap.mp hmem
  cases item with
  | declare ds => cases hname
  | function g =>
    have hg : g.Spelled L := hp _ hitem
    rw [Ast.Item.definition?] at hname
    split at hname
    · rw [← Option.some.inj hname]
      exact hg.name
    · cases hname

/-- Parameters are of the types that they are declared with. -/
theorem types_of_parameters {ps : List Ast.Parameter} {types : List CType} {l l' : Locals}
    {os : List Symbol} (h : Check.exec (parameters ps types) l = (.ok os, l')) (hlength : types.length = ps.length) :
    os.map (·.type) = types := by
  induction ps generalizing types l os with
  | nil =>
    obtain rfl := List.length_eq_zero_iff.mp hlength
    rw [parameters] at h
    · obtain ⟨rfl, -⟩ := Check.pure_eq_ok h
      rfl
    · simp
  | cons p ps ih =>
    cases types with
    | nil => cases hlength
    | cons t types =>
      rw [parameters] at h
      obtain ⟨o, l1, hreserve, h1⟩ := Check.bind_eq_ok h
      obtain ⟨_, l2, hdeclare, h2⟩ := Check.bind_eq_ok h1
      obtain ⟨os', l3, hos, h3⟩ := Check.bind_eq_ok h2
      obtain ⟨rfl, rfl⟩ := Check.pure_eq_ok h3
      have htype : o.type = t := by
        unfold Check.exec Check.reserve at hreserve
        cases halloc : l.frame.allocate p.name t p.span with
        | error e => rw [halloc] at hreserve; cases hreserve
        | ok place => rw [halloc] at hreserve; cases hreserve; rfl
      rw [List.map_cons, htype, ih hos (Nat.succ.inj hlength)]

/-- A function has the types that are known under its name. -/
structure Known.Signs (k : Known) (t : Typed.Function) (signature : Signature) : Prop where
  known : k.functions.find? t.routine.name = some signature
  result : t.routine.result = signature.result
  types : t.routine.parameters = signature.parameters
  parameters : t.parameters.map (·.type) = signature.parameters

theorem signs_of_function {f : Ast.Function} {body : Ast.Stmt} {t : Typed.Function}
    (hf : k.Declares f) (h : (function k f body).1 = .ok t) : ∃ signature, k.Signs t signature := by
  obtain ⟨signature, hknown, hlength⟩ := hf
  obtain ⟨signature', hknown', ps, l1, ts, l2, hps, -, rfl⟩ := of_function h
  cases hknown.symm.trans hknown'
  exact ⟨signature, hknown, rfl, rfl, types_of_parameters hps hlength⟩

theorem signs_of_functions {items : List Ast.Item} {ts : List Typed.Function}
    (hitems : ∀ f, .function f ∈ items → k.Declares f) (h : (functions k items).1 = .ok ts) :
    ∀ f ∈ ts, ∃ signature, k.Signs f signature := by
  induction items generalizing ts with
  | nil => cases h; simp
  | cons item items ih =>
    have hrest : ∀ {ts}, (functions k items).1 = .ok ts → ∀ f ∈ ts, ∃ s, k.Signs f s :=
      ih fun f hf => hitems f (by simp [hf])
    obtain ⟨name, result, ps, _ | body, span⟩ | ds := item
    · exact hrest h
    · obtain ⟨t, others, ht, hothers, rfl⟩ := functions_definition_eq_ok h
      have hfirst := signs_of_function (hitems _ (by simp)) ht
      exact List.forall_mem_cons.mpr ⟨hfirst, hrest hothers⟩
    · exact hrest h

/-- The functions of a file have the types that are known under their names. -/
theorem signs_of_program (h : program k p = (.ok t, k')) :
    ∀ f ∈ t.functions, ∃ signature, k'.Signs f signature := by
  obtain ⟨hitems, hfunctions⟩ := of_program h
  exact signs_of_functions (Known.addItems_declares hitems).2 hfunctions

theorem globals_known (h : program k p = (.ok t, k')) :
    ∀ o ∈ k'.globals, o ∈ k.globals ∨ o ∈ t.globals.map (·.symbol) :=
  (Known.addItems_adds (of_program h).1).2.2

end Functions

end Typing

end MiniC
