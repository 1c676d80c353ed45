import MiniC.Proofs.Typing.Names

/-!
# Names of global objects

A global object is labelled with its name. A name that is taken, by another object or by a function, is
refused, in whatever order the two are declared. So in what is known after a file, global objects have
different names and none of them is a function's (`Known.Separate`, `names_nodup`).
-/

set_option autoImplicit false

namespace MiniC

/-- The names under which an item declares objects. -/
def Ast.Item.objectNames : Ast.Item → List String
  | .function _ => []
  | .declare ds => ds.map (·.name)

namespace Typing

theorem ne_of_find?_eq_none {scope : Scope} {name : String} (h : scope.find? name = none) {o : Symbol}
    (ho : o ∈ scope) : o.name ≠ name := by
  intro heq
  have hnot := List.find?_eq_none.1 h o ho
  simp [heq] at hnot

namespace Known

variable {k k' : Known}

/-- No block is open, global objects are labelled with their names, no two have one name, and none has a
function's. -/
structure Separate (k : Known) : Prop where
  top : k.scopes.blocks = []
  nodup : (k.globals.map (·.name)).Nodup
  apart : ∀ o ∈ k.globals, k.functions.find? o.name = none
  labelled : ∀ o ∈ k.globals, o.address = .label o.name

/-- Some global objects have been declared, under some names. -/
structure Gains (k : Known) (names : List String) (gs : List Typed.Global) (k' : Known) : Prop where
  separate : k'.Separate
  globals : k'.globals = (gs.map (·.symbol)).reverse ++ k.globals
  names : gs.map (·.symbol.name) = names

theorem separate_empty : Separate {} :=
  ⟨rfl, List.nodup_nil, fun _ ho => absurd ho List.not_mem_nil, fun _ ho => absurd ho List.not_mem_nil⟩

theorem Gains.refl (hk : k.Separate) : k.Gains [] [] k := ⟨hk, rfl, rfl⟩

theorem Gains.trans {k'' : Known} {names names' : List String} {gs gs' : List Typed.Global}
    (h : k.Gains names gs k') (h' : k'.Gains names' gs' k'') : k.Gains (names ++ names') (gs ++ gs') k'' where
  separate := h'.separate
  globals := by simp [h'.globals, h.globals]
  names := by rw [List.map_append, h.names, h'.names]

theorem Separate.addFunction (hk : k.Separate) (f : Ast.Function) :
    Gives (k.addFunction f) (k.Gains [] []) := by
  intro k' h
  obtain ⟨new, -, hfree, -, rfl⟩ := addFunction_ok_iff.1 h
  have hnone : Scope.find? k.globals f.name = none := by
    simpa [Scopes.lookup?_top hk.top, globals] using hfree
  refine ⟨⟨hk.top, hk.nodup, fun o ho => ?_, hk.labelled⟩, rfl, rfl⟩
  show (k.functions.put f.name _).find? o.name = none
  rw [find?_put, if_neg (ne_of_find?_eq_none hnone ho)]
  exact hk.apart o ho

/-- An object takes the name of no function and of no other object. -/
theorem Separate.addGlobal (hk : k.Separate) (d : Ast.Declaration) :
    Gives (k.addGlobal d) fun r => k.Gains [d.name] [r.1] r.2 := by
  rintro ⟨_, _⟩ h
  obtain ⟨type, init, -, -, hfunction, -, hnew, rfl, rfl⟩ := addGlobal_ok_iff.1 h
  obtain ⟨hblocks, hglobals⟩ := Scopes.insert_top hk.top (.inData d.name type)
  have hfree : Scope.find? k.globals d.name = none := by
    simpa [Scopes.declares_top hk.top, globals] using hnew
  refine ⟨⟨hblocks, ?_, ?_, ?_⟩, hglobals, rfl⟩
  · show ((k.scopes.insert _).globals.map (·.name)).Nodup
    rw [hglobals, List.map_cons]
    refine List.nodup_cons.mpr ⟨fun hmem => ?_, hk.nodup⟩
    obtain ⟨o, ho, heq⟩ := List.mem_map.mp hmem
    exact ne_of_find?_eq_none hfree ho heq
  · show ∀ o ∈ (k.scopes.insert _).globals, k.functions.find? o.name = none
    rw [hglobals]
    exact List.forall_mem_cons.mpr ⟨hfunction, hk.apart⟩
  · show ∀ o ∈ (k.scopes.insert _).globals, o.address = .label o.name
    rw [hglobals]
    exact List.forall_mem_cons.mpr ⟨rfl, hk.labelled⟩

theorem Separate.addGlobals (hk : k.Separate) {ds : List Ast.Declaration} {gs : List Typed.Global}
    (h : k.addGlobals ds = (.ok gs, k')) : k.Gains (ds.map (·.name)) gs k' := by
  induction ds generalizing k gs with
  | nil =>
    cases h
    exact .refl hk
  | cons d ds ih =>
    obtain ⟨g, k1, others, hg, hrest, rfl⟩ := addGlobals_cons_iff.1 h
    have hfirst := hk.addGlobal d (g, k1) hg
    exact hfirst.trans (ih hfirst.separate hrest)

theorem Separate.addItem (hk : k.Separate) {item : Ast.Item} {gs : List Typed.Global}
    (h : k.addItem item = (.ok gs, k')) : k.Gains item.objectNames gs k' := by
  cases item with
  | function f =>
    obtain ⟨rfl, hadd⟩ := addItem_function_iff.1 h
    exact hk.addFunction f _ hadd
  | declare ds => exact hk.addGlobals h

/-- A file declares the objects of its items, in their order. -/
theorem Separate.addItems (hk : k.Separate) {items : List Ast.Item} {gs : List Typed.Global}
    (h : k.addItems items = (.ok gs, k')) : k.Gains (items.flatMap Ast.Item.objectNames) gs k' := by
  induction items generalizing k gs with
  | nil =>
    cases h
    exact .refl hk
  | cons item items ih =>
    obtain ⟨gs1, k1, gs2, hitem, hrest, rfl⟩ := addItems_cons_iff.1 h
    have hfirst := hk.addItem hitem
    exact hfirst.trans (ih hfirst.separate hrest)

end Known

/-! ### A file by itself -/

section Program

variable {p : Ast.Program} {t : Typed.Program} {k : Known} {L : Ast.Lexicon}

theorem gains_of_program (h : program {} p = (.ok t, k)) :
    Known.Gains {} (p.items.flatMap Ast.Item.objectNames) t.globals k :=
  Known.separate_empty.addItems (of_program h).1

/-- The global objects that are known after a file are its own. -/
theorem mem_globals_iff (h : program {} p = (.ok t, k)) (o : Symbol) :
    o ∈ k.globals ↔ o ∈ t.globals.map (·.symbol) := by
  rw [(gains_of_program h).globals]
  simp

theorem globals_spelled (hp : p.Spelled L) (h : program {} p = (.ok t, k)) :
    ∀ g ∈ t.globals, L.names g.symbol.name := by
  intro g hg
  have hmem : g.symbol.name ∈ t.globals.map (·.symbol.name) := List.mem_map_of_mem hg
  rw [(gains_of_program h).names] at hmem
  obtain ⟨item, hitem, hname⟩ := List.mem_flatMap.mp hmem
  cases item with
  | function f => cases hname
  | declare ds =>
    obtain ⟨d, hd, heq⟩ := List.mem_map.mp hname
    have hspelled : ∀ d ∈ ds, d.Spelled L := hp _ hitem
    exact heq ▸ (hspelled d hd).name

/-- No two global objects and functions of a file have one name. -/
theorem names_nodup (h : program {} p = (.ok t, k)) :
    (t.globals.map (·.symbol.name) ++ t.functions.map (·.routine.name)).Nodup := by
  have hgains := gains_of_program h
  have hglobals : (t.globals.map (·.symbol.name)).Nodup := by
    have hnodup := hgains.separate.nodup
    rw [hgains.globals] at hnodup
    simpa [Function.comp_def] using hnodup
  refine List.nodup_append.mpr ⟨hglobals, nodup_names h, ?_⟩
  rintro name hname _ hfunction rfl
  -- the function is known under its name, and the object was accepted under it
  obtain ⟨g, hg, rfl⟩ := List.mem_map.mp hname
  obtain ⟨f, hf, heq⟩ := List.mem_map.mp hfunction
  obtain ⟨signature, hsigns⟩ := signs_of_program h f hf
  have hapart := hgains.separate.apart g.symbol
    ((mem_globals_iff h g.symbol).mpr (List.mem_map_of_mem hg))
  rw [← heq, hsigns.known] at hapart
  cases hapart

end Program

end Typing

end MiniC
