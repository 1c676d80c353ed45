import MiniC.Proofs.Typing.Stmt

/-!
# Checked programs are well typed

The first pass over a program keeps what it knows sound: no global object and no parameter is `void`
(`Known.SoundFor`), and the data of every global object is of its type. Against such knowledge a
function that is accepted obeys the typing rules, and its objects fill the frame that its routine
reserves (`function_checked`).

What else is true of the types of parameters depends on the program: in one that was read from a text
none is an array (`Known.Sound`).
-/

set_option autoImplicit false

namespace MiniC.Typing

open Typed (Vocabulary DataFits)

/-! ### Constant initializers -/

section Constants

variable {L : Ast.Lexicon} {V : Vocabulary}

theorem type_negate?_ne {v v' : Value} (h : v.negate? = some v') (text : String) :
    v' ≠ .str text := by
  cases v <;> cases h <;> simp

/-- Folding makes no strings: one that it gives is written in the program. -/
theorem strings_of_fold? (hL : ∀ v, L.constants v → V.Constant v) (e : Ast.Expr)
    (he : e.Spelled L) {text : String} (h : e.fold? = some (.str text)) : V.strings text := by
  induction e using Ast.Expr.induct with
  | literal v span =>
    cases he with
    | literal hv => cases h; exact hL _ hv
  | unary op e span ih =>
    cases he with
    | unary he =>
      cases op <;> rw [Ast.Expr.fold?] at h
      case minus =>
        obtain ⟨v, -, hv⟩ := Option.bind_eq_some_iff.mp h
        exact absurd rfl (type_negate?_ne hv text)
      case plus => exact ih he h
      all_goals cases h
  | cast type e span ih =>
    rw [Ast.Expr.fold?] at h
    split at h
    · obtain ⟨v, -, hv⟩ := Option.bind_eq_some_iff.mp h
      cases Value.type_convert? hv
    · cases h
  | _ => simp [Ast.Expr.fold?] at h

theorem constantOf_gives (hL : ∀ v, L.constants v → V.Constant v) (name : String) (type : CType)
    {e : Ast.Expr} (he : e.Spelled L) :
    Gives (constantOf name type e) fun v => DataFits V type (.value v) := by
  unfold constantOf
  split
  · exact gives_refuse _ _
  · rename_i v hfold
    dsimp only
    split
    · exact gives_ok (.string (strings_of_fold? hL e he hfold))
    · split
      · exact gives_ok .null
      · exact gives_refuse _ _
    · split
      · rename_i converted hconvert
        exact gives_ok (.scalar (Value.type_convert? hconvert))
      · exact gives_refuse _ _
    · exact gives_refuse _ _

theorem globalInit_gives (hL : ∀ v, L.constants v → V.Constant v) (name : String) (type : CType)
    {init : Ast.Initializer} (hi : init.Spelled L) :
    Gives (globalInit name type init) (DataFits V type) := by
  unfold globalInit
  split
  · rename_i element length
    have hconstants : Gives (arrayConstants name element length init) fun vs =>
        vs.length ≤ length ∧ ∀ v ∈ vs, v.type = .scalar element := by
      unfold arrayConstants
      split
      · refine withinLength_gives (fun v hv => ?_) _ _ _
        obtain ⟨c, rfl⟩ := type_of_mem_arrayChars hv
        rfl
      · exact gives_refuse _ _
      · refine Gives.bind (P := fun vs => ∀ v ∈ vs, v.type = .scalar element)
          (mapM_gives fun e he => ?_) fun vs hvs => withinLength_gives hvs _ _ _
        refine (constantOf_gives hL name _ (leaves_spelled _ hi e he)).mono fun v hv => ?_
        cases hv with
        | scalar hv => exact hv
    exact hconstants.bind fun vs hvs => gives_pure (.elements hvs.1 hvs.2)
  · cases hi with
    | expr he => exact (constantOf_gives hL name _ he).bind fun v hv => gives_pure hv
  · exact gives_refuse _ _

end Constants

/-! ### What is known -/

/-- What is known is sound: no block is open, there is no object without a value, and the types of
parameters are of some kind. -/
structure Known.SoundFor (P : CType → Prop) (k : Known) : Prop where
  top : k.scopes.blocks = []
  globals : ∀ o ∈ k.globals, o.isGlobal = true ∧ o.type.isVoid = false
  parameters : ∀ name signature, (name, signature) ∈ k.functions →
    ∀ t ∈ signature.parameters, P t

/-- What is known from programs that were read: no parameter is without a value, and none is an
array. -/
abbrev Known.Sound (k : Known) : Prop := k.SoundFor fun t => t.isVoid = false ∧ t.isArray = false

theorem isArray_of_resolve {type : Ast.TypeName} (h : type.arrayLength = none) {span : Span} :
    Gives (type.resolve span) fun t => t.isArray = false := by
  intro t ht
  unfold Ast.TypeName.resolve at ht
  split at ht
  · rename_i t' hresolve
    cases ht
    simp only [Ast.TypeName.resolve?, h] at hresolve
    split at hresolve
    · split at hresolve <;> cases hresolve
      rfl
    all_goals split at hresolve <;> grind [CType.isArray]
  · cases ht

theorem mem_put {s : Signatures} {name name' : String} {new old : Signature}
    (h : (name', old) ∈ s.put name new) : (name', old) ∈ s ∨ old = new := by
  induction s with
  | nil => simp_all [Signatures.put]
  | cons entry rest ih =>
    rw [Signatures.put] at h
    split at h
    · rcases List.mem_cons.mp h with h | h
      · exact .inr (Prod.ext_iff.mp h).2
      · exact .inl (List.mem_cons_of_mem _ h)
    · rcases List.mem_cons.mp h with h | h
      · exact .inl (h ▸ List.mem_cons_self)
      · exact (ih h).imp_left (List.mem_cons_of_mem _)

theorem mem_of_find? {s : Signatures} {name : String} {signature : Signature}
    (h : s.find? name = some signature) : (name, signature) ∈ s := by
  obtain ⟨before, after, rfl, -⟩ := List.lookup_eq_some_iff.mp h
  simp

theorem bind_eq_ok_iff {α β : Type} {x : Except Error α} {f : α → Except Error β} {b : β} :
    (x >>= f) = .ok b ↔ ∃ a, x = .ok a ∧ f a = .ok b := by
  cases x <;> simp [bind, Except.bind]

namespace Known

variable {L : Ast.Lexicon} {V : Vocabulary} {P : CType → Prop} {k k' : Known}

/-- The types of the parameters that a function is declared with. -/
theorem signature_gives {f : Ast.Function}
    (hf : ∀ p ∈ f.parameters, Gives (p.type.resolve p.span) fun t => t.isVoid = false → P t) :
    Gives (signature f) fun s => ∀ t ∈ s.parameters, P t := by
  unfold signature
  refine Gives.bind (P := fun _ => True) (fun _ _ => trivial) fun result _ => ?_
  split
  · exact gives_refuse _ _
  · refine (mapM_gives fun p hp => ?_).bind fun types htypes => gives_pure htypes
    refine (hf p hp).bind fun t ht => ?_
    split
    · exact gives_refuse _ _
    · rename_i hvoid
      exact gives_pure (ht (by simpa using hvoid))

theorem signature_gives_of_spelled {f : Ast.Function} (hf : f.Spelled L) :
    Gives (signature f) fun s => ∀ t ∈ s.parameters, t.isVoid = false ∧ t.isArray = false :=
  signature_gives fun p hp =>
    (isArray_of_resolve (hf.parameters p hp).single).mono fun _ ha hv => ⟨hv, ha⟩

/-- What an item has to be like: functions have parameters of a kind, and initializers are spelled
from a lexicon. -/
def Takes (P : CType → Prop) (L : Ast.Lexicon) : Ast.Item → Prop
  | .function f => Gives (signature f) fun s => ∀ t ∈ s.parameters, P t
  | .declare ds => ∀ d ∈ ds, d.Spelled L

theorem takes_of_spelled {item : Ast.Item} (h : item.Spelled L) :
    Takes (fun t => t.isVoid = false ∧ t.isArray = false) L item := by
  cases item with
  | function f => exact signature_gives_of_spelled h
  | declare ds => exact h

/-- The signature under a name once it is declared with a new one. -/
def merged (old : Option Signature) (new : Signature) : Signature :=
  match old with
  | none => new
  | some old => { old with isDefined := old.isDefined || new.isDefined }

/-- A function is declared if it takes the name of no object and agrees with what is declared under its name. -/
theorem addFunction_ok_iff {f : Ast.Function} :
    k.addFunction f = .ok k' ↔ ∃ new, signature f = .ok new ∧ k.scopes.lookup? f.name = none ∧
      (∀ old, k.functions.find? f.name = some old → agrees old new = true) ∧
      k' = { k with functions := k.functions.put f.name (merged (k.functions.find? f.name) new) } := by
  unfold addFunction
  rw [bind_eq_ok_iff]
  refine exists_congr fun new => and_congr_right fun _ => ?_
  cases k.scopes.lookup? f.name with
  | some o => simp [refuse]
  | none =>
    cases k.functions.find? f.name with
    | none => simp [merged, pure, Except.pure, @eq_comm _ k']
    | some old => by_cases h : agrees old new <;> simp [h, merged, pure, Except.pure, refuse, @eq_comm _ k']

theorem SoundFor.addFunction (hk : k.SoundFor P) {f : Ast.Function}
    (hf : Gives (signature f) fun s => ∀ t ∈ s.parameters, P t) :
    Gives (k.addFunction f) (SoundFor P) := by
  intro k' h
  obtain ⟨new, hnew, -, -, rfl⟩ := addFunction_ok_iff.1 h
  refine ⟨hk.top, hk.globals, fun name s hs t ht => ?_⟩
  rcases mem_put hs with hs | rfl
  · exact hk.parameters name s hs t ht
  · cases hfind : k.functions.find? f.name with
    | none =>
      rw [hfind] at ht
      exact hf new hnew t ht
    | some old =>
      rw [hfind] at ht
      exact hk.parameters f.name old (mem_of_find? hfind) t ht

/-- An object is declared if it has a type and a value of it, and takes the name of no function and of no
other object. -/
theorem addGlobal_ok_iff {d : Ast.Declaration} {g : Typed.Global} :
    k.addGlobal d = .ok (g, k') ↔ ∃ type init, d.type.resolve d.span = .ok type ∧ type.isVoid = false ∧
      k.functions.find? d.name = none ∧ d.init.mapM (globalInit d.name type) = .ok init ∧
      k.scopes.declares d.name = false ∧ g = ⟨.inData d.name type, init, d.span.start⟩ ∧
      k' = { k with scopes := k.scopes.insert (.inData d.name type) } := by
  unfold addGlobal
  rw [bind_eq_ok_iff]
  constructor
  · rintro ⟨type, htype, h⟩
    split at h
    · cases h
    split at h
    · cases h
    rename_i hvoid hfree
    obtain ⟨init, hinit, h⟩ := bind_eq_ok_iff.1 h
    obtain ⟨scopes, hscopes, h⟩ := bind_eq_ok_iff.1 h
    cases h
    rw [Scopes.declare] at hscopes
    split at hscopes
    · cases hscopes
    rename_i hnew
    cases hscopes
    exact ⟨type, init, htype, Bool.of_not_eq_true hvoid, Option.not_isSome_iff_eq_none.mp hfree, hinit,
      Bool.of_not_eq_true hnew, rfl, rfl⟩
  · rintro ⟨type, init, htype, hvoid, hfree, hinit, hnew, rfl, rfl⟩
    have hdeclare : k.scopes.declare (.inData d.name type) d.span =
        .ok (k.scopes.insert (.inData d.name type)) := if_neg (Bool.not_eq_true _ ▸ hnew)
    refine ⟨type, htype, ?_⟩
    rw [hvoid, hfree, hinit]
    exact bind_eq_ok_iff.2 ⟨init, rfl, bind_eq_ok_iff.2 ⟨_, hdeclare, rfl⟩⟩

/-- A global object that is accepted is well typed, and so is what is known then. -/
theorem SoundFor.addGlobal (hk : k.SoundFor P) (hL : ∀ v, L.constants v → V.Constant v)
    {d : Ast.Declaration} (hd : d.Spelled L) :
    Gives (k.addGlobal d) fun r => r.1.WellTyped V ∧ r.2.SoundFor P := by
  rintro ⟨_, _⟩ h
  obtain ⟨type, init, -, ht, -, hmap, -, rfl, rfl⟩ := addGlobal_ok_iff.1 h
  have hinit : Gives (d.init.mapM (globalInit d.name type)) fun c => ∀ v ∈ c, DataFits V type v := by
    cases hinit : d.init with
    | none => exact gives_pure (by simp)
    | some i =>
      change Gives (globalInit d.name type i >>= fun c => pure (some c)) _
      refine (globalInit_gives hL d.name type (hd.init i hinit)).bind fun c hc => ?_
      exact gives_pure (by simpa using hc)
  obtain ⟨hblocks, hglobals⟩ := Scopes.insert_top hk.top (.inData d.name type)
  refine ⟨⟨rfl, ht, hinit _ hmap⟩, hblocks, ?_, hk.parameters⟩
  show ∀ o ∈ (k.scopes.insert _).globals, _
  rw [hglobals]
  exact List.forall_mem_cons.mpr ⟨⟨rfl, ht⟩, hk.globals⟩

/-- What is known stays sound even if an object is refused. -/
theorem SoundFor.addGlobals (hk : k.SoundFor P) (hL : ∀ v, L.constants v → V.Constant v)
    {ds : List Ast.Declaration} (hds : ∀ d ∈ ds, d.Spelled L) :
    (k.addGlobals ds).2.SoundFor P ∧ Gives (k.addGlobals ds).1 fun gs => ∀ g ∈ gs, g.WellTyped V := by
  induction ds generalizing k with
  | nil => exact ⟨hk, gives_ok (by simp)⟩
  | cons d ds ih =>
    rw [Known.addGlobals]
    split
    · exact ⟨hk, nofun⟩
    · rename_i g k1 hg
      obtain ⟨hwt, hk1⟩ := hk.addGlobal hL (hds d (by simp)) (g, k1) hg
      obtain ⟨hk2, hwts⟩ := ih hk1 fun d' hd' => hds d' (by simp [hd'])
      exact ⟨hk2, hwts.map fun gs hgs => List.forall_mem_cons.mpr ⟨hwt, hgs⟩⟩

theorem SoundFor.addItem (hk : k.SoundFor P) (hL : ∀ v, L.constants v → V.Constant v)
    {item : Ast.Item} (hi : Takes P L item) :
    (k.addItem item).2.SoundFor P ∧ Gives (k.addItem item).1 fun gs => ∀ g ∈ gs, g.WellTyped V := by
  cases item with
  | function f =>
    rw [Known.addItem]
    split
    · exact ⟨hk, nofun⟩
    · rename_i k1 hadd
      exact ⟨hk.addFunction hi _ hadd, gives_ok (by simp)⟩
  | declare ds => exact hk.addGlobals hL hi

theorem SoundFor.addItems (hk : k.SoundFor P) (hL : ∀ v, L.constants v → V.Constant v)
    {items : List Ast.Item} (hi : ∀ item ∈ items, Takes P L item) :
    (k.addItems items).2.SoundFor P ∧
      Gives (k.addItems items).1 fun gs => ∀ g ∈ gs, g.WellTyped V := by
  induction items generalizing k with
  | nil => exact ⟨hk, gives_ok (by simp)⟩
  | cons item items ih =>
    obtain ⟨hk1, hwt⟩ := hk.addItem hL (hi item (by simp))
    rw [Known.addItems]
    split
    · rename_i e k1 hitem
      rw [hitem] at hk1
      exact ⟨hk1, nofun⟩
    · rename_i gs1 k1 hitem
      rw [hitem] at hk1 hwt
      obtain ⟨hk2, hwts⟩ := ih hk1 fun i hi' => hi i (by simp [hi'])
      exact ⟨hk2, hwts.map fun gs hgs => List.forall_mem_append.mpr ⟨hwt gs1 rfl, hgs⟩⟩

end Known

/-! ### Functions -/

section Functions

variable {L : Ast.Lexicon} {P : CType → Prop} {k : Known} {l l' : Locals}

/-- Parameters are laid out and declared like other objects. -/
theorem parameters_checked (hP : ∀ t, P t → t.isVoid = false) (ctx : Context)
    {ps : List Ast.Parameter} {types : List CType} (ht : ∀ t ∈ types, P t) {os : List Symbol}
    (h : Check.exec (parameters ps types) l = (.ok os, l')) :
    Checked ctx L os (fun V => ∀ o ∈ os, V.objects o ∧ P o.type) l l' := by
  induction ps generalizing types l os with
  | nil =>
    rw [parameters] at h
    · obtain ⟨rfl, rfl⟩ := Check.pure_eq_ok h
      exact checked_of_typed fun V _ _ => by simp
    · simp
  | cons p ps ih =>
    cases types with
    | nil =>
      rw [parameters] at h
      · obtain ⟨rfl, rfl⟩ := Check.pure_eq_ok h
        exact checked_of_typed fun V _ _ => by simp
      · simp
    | cons t types =>
      rw [parameters] at h
      obtain ⟨o, l1, hreserve, h1⟩ := Check.bind_eq_ok h
      obtain ⟨_, l2, hdeclare, h2⟩ := Check.bind_eq_ok h1
      obtain ⟨os', l3, hos, h3⟩ := Check.bind_eq_ok h2
      obtain ⟨rfl, rfl⟩ := Check.pure_eq_ok h3
      have hfirst := ht t (by simp)
      obtain ⟨htype, -, ho⟩ := reserve_checked (hP t hfirst) hreserve hdeclare
      refine (ho.trans (ih (fun t' ht' => ht t' (by simp [ht'])) hos)).mono fun V ⟨hV, hVs⟩ => ?_
      exact List.forall_mem_cons.mpr ⟨⟨hV, htype ▸ hfirst⟩, hVs⟩

/-- A vocabulary that has what is known: its functions, its global objects, and the constants of a
lexicon. -/
structure Known.Names (k : Known) (L : Ast.Lexicon) (V : Vocabulary) : Prop where
  functions : k.functions = V.functions
  constants : ∀ v, L.constants v → V.Constant v
  globals : ∀ o ∈ k.globals, V.objects o

/-- A function over a vocabulary: its parameters are of types of some kind, its frame is not too large,
and its statements obey the typing rules. -/
structure FunctionOver (P : CType → Prop) (V : Vocabulary) (t : Typed.Function) : Prop where
  parameters : ∀ p ∈ t.parameters, V.objects p ∧ P p.type
  frame : t.routine.frameSize < 2 ^ 31
  body : ∀ s ∈ t.body, s.WellTyped V t.routine.result

/-- A function against what is known: its objects fill the frame that its routine reserves, and it
obeys the typing rules over these and what is known. -/
structure Known.AcceptsFor (P : CType → Prop) (k : Known) (L : Ast.Lexicon) (t : Typed.Function) :
    Prop where
  laid : ∃ frame : Frame, Laid {} t.objects frame ∧ t.routine.frameSize = frame.size
  typed : ∀ V, k.Names L V → (∀ o ∈ t.objects, V.objects o) → FunctionOver P V t

/-- A function of a program that was read, against what is known. -/
structure Known.Accepts (k : Known) (L : Ast.Lexicon) (t : Typed.Function) : Prop where
  laid : ∃ frame : Frame, Laid {} t.objects frame ∧ t.routine.frameSize = frame.size
  typed : ∀ V, k.Names L V → (∀ o ∈ t.objects, V.objects o) → t.WellTyped V

theorem Known.AcceptsFor.accepts {t : Typed.Function}
    (h : k.AcceptsFor (fun t => t.isVoid = false ∧ t.isArray = false) L t) : k.Accepts L t where
  laid := h.laid
  typed V hV ho :=
    have hover := h.typed V hV ho
    ⟨hover.parameters, hover.frame, hover.body⟩

/-- A function that is accepted: its parameters and its statements are, in a block of their own. -/
theorem of_function {f : Ast.Function} {body : Ast.Stmt} {t : Typed.Function}
    (h : (function k f body).1 = .ok t) :
    ∃ signature, k.functions.find? f.name = some signature ∧ ∃ ps l1 ts l2,
      Check.exec (parameters f.parameters signature.parameters) { scopes := k.scopes.push } =
        (.ok ps, l1) ∧
      Check.exec (stmts ⟨k.functions, signature.result⟩ (bodyStmts body)) l1 = (.ok ts, l2) ∧
      t = ⟨⟨f.name, signature.result, signature.parameters, l2.frame.size⟩, ps, ts, f.span.start⟩ := by
  unfold function at h
  cases hsignature : k.functions.find? f.name with
  | none =>
    rw [hsignature] at h
    cases h
  | some signature =>
    rw [hsignature] at h
    obtain ⟨⟨ps, ts⟩, hbody, rfl⟩ := of_map_eq_ok h
    obtain ⟨l, hbody', hl⟩ := Check.inBlock_eq_ok (Prod.ext hbody rfl)
    obtain ⟨ps', l1, hps, h1⟩ := Check.bind_eq_ok hbody'
    obtain ⟨ts', l2, hts, h2⟩ := Check.bind_eq_ok h1
    obtain ⟨hpair, rfl⟩ := Check.pure_eq_ok h2
    cases hpair
    have hsize := congrArg (fun l : Locals => l.frame.size) hl
    refine ⟨signature, rfl, ps, l1, ts, l2, hps, hts, ?_⟩
    exact congrArg (fun size => Typed.Function.mk ⟨_, _, _, size⟩ ps ts f.span.start) hsize

/-- Parameters and statements that are accepted make a function. -/
theorem function_eq_ok {f : Ast.Function} {body : Ast.Stmt} {signature : Signature}
    {ps : List Symbol} {l1 l2 : Locals} {ts : List Typed.Stmt}
    (hsignature : k.functions.find? f.name = some signature)
    (hps : Check.exec (parameters f.parameters signature.parameters) { scopes := k.scopes.push } =
      (.ok ps, l1))
    (hts : Check.exec (stmts ⟨k.functions, signature.result⟩ (bodyStmts body)) l1 = (.ok ts, l2)) :
    (function k f body).1 =
      .ok ⟨⟨f.name, signature.result, signature.parameters, l2.frame.size⟩, ps, ts, f.span.start⟩ := by
  have hbody : Check.exec (functionBody ⟨k.functions, signature.result⟩ f signature.parameters body)
      { scopes := k.scopes.push } = (.ok (ps, ts), l2) := by
    unfold functionBody
    rw [Check.exec_bind, hps]
    dsimp only
    rw [Check.exec_bind, hts]
    rfl
  unfold function
  rw [hsignature]
  dsimp only
  rw [Check.exec_inBlock, hbody]
  rfl

theorem function_checked (hP : ∀ t, P t → t.isVoid = false) (hk : k.SoundFor P) {f : Ast.Function}
    {body : Ast.Stmt} (hb : body.Spelled L) {t : Typed.Function} (h : (function k f body).1 = .ok t) :
    k.AcceptsFor P L t := by
  obtain ⟨signature, hsignature, ps, l1, ts, l2, hps, hts, rfl⟩ := of_function h
  have hparameters := hk.parameters f.name signature (mem_of_find? hsignature)
  have hstmts : ∀ s ∈ bodyStmts body, s.Spelled L := by
    intro s hs
    unfold bodyStmts at hs
    split at hs
    · cases hb with
      | block hb => exact hb s hs
    · rwa [List.mem_singleton.mp hs]
  have hall := (parameters_checked hP _ hparameters hps).trans (stmts_checked hstmts hts)
  refine ⟨⟨l2.frame, hall.laid, rfl⟩, fun V hV hobjects => ?_⟩
  have hfits : Context.Fits ⟨k.functions, signature.result⟩ L V :=
    ⟨hV.functions, hV.constants, fun name s hs t ht =>
      hP t (hk.parameters name s (mem_of_find? (hV.functions ▸ hs)) t ht)⟩
  have hglobals : Locals.Within V { scopes := k.scopes.push } :=
    Scopes.All.push ⟨fun o ho => ⟨hV.globals o ho, (hk.globals o ho).2⟩, by simp [hk.top]⟩
  obtain ⟨⟨hps', hts'⟩, -⟩ := hall.typed V hfits hglobals hobjects
  have hempty : ({} : Frame).size < 2 ^ 31 := by decide
  exact ⟨hps', hall.laid.size_lt hempty, hts'⟩

theorem functions_checked (hP : ∀ t, P t → t.isVoid = false) (hk : k.SoundFor P)
    {items : List Ast.Item} (hi : ∀ f, .function f ∈ items → ∀ body ∈ f.body, body.Spelled L)
    {ts : List Typed.Function} (h : (functions k items).1 = .ok ts) : ∀ t ∈ ts, k.AcceptsFor P L t := by
  induction items generalizing ts with
  | nil => cases h; simp
  | cons item items ih =>
    have hrest : ∀ {ts}, (functions k items).1 = .ok ts → ∀ t ∈ ts, k.AcceptsFor P L t :=
      ih fun f hf => hi f (by simp [hf])
    -- Only definitions are looked at.
    obtain ⟨name, result, ps, _ | body, span⟩ | ds := item
    · exact hrest h
    · obtain ⟨t, others, ht, hothers, rfl⟩ := functions_definition_eq_ok h
      have hbody : body.Spelled L := hi ⟨name, result, ps, some body, span⟩ (by simp) body rfl
      exact List.forall_mem_cons.mpr ⟨function_checked hP hk hbody ht, hrest hothers⟩
    · exact hrest h

theorem of_program {k' : Known} {p : Ast.Program} {t : Typed.Program}
    (h : program k p = (.ok t, k')) :
    k.addItems p.items = (.ok t.globals, k') ∧ (functions k' p.items).1 = .ok t.functions := by
  unfold program at h
  split at h
  · cases h
  · rename_i gs k1 hitems
    obtain ⟨hfound, hk'⟩ := Prod.mk.inj h
    obtain rfl : k1 = k' := (functions_known k1 p.items).symm.trans hk'
    obtain ⟨fs, hfs, rfl⟩ := of_map_eq_ok hfound
    exact ⟨hitems, hfs⟩

/-- A program that is read and accepted: its global objects are well typed, and its functions fill
their frames and are well typed, against what is known once all of it has been read. -/
theorem program_checked (hk : k.Sound) {p : Ast.Program} (hp : p.Spelled L) {t : Typed.Program}
    {k' : Known} (h : program k p = (.ok t, k')) :
    k'.Sound ∧ (∀ V : Vocabulary, (∀ v, L.constants v → V.Constant v) →
      ∀ g ∈ t.globals, g.WellTyped V) ∧ ∀ f ∈ t.functions, k'.Accepts L f := by
  obtain ⟨hitems, hfunctions⟩ := of_program h
  have hadd : ∀ V : Vocabulary, (∀ v, L.constants v → V.Constant v) →
      k'.Sound ∧ ∀ g ∈ t.globals, g.WellTyped V := by
    intro V hV
    have hadd := hk.addItems hV fun item hitem => Known.takes_of_spelled (hp item hitem)
    rw [hitems] at hadd
    exact ⟨hadd.1, hadd.2 _ rfl⟩
  have hk' : k'.Sound := (hadd ⟨[], fun _ => True, fun _ => True, fun _ => True⟩
    fun v _ => by cases v <;> trivial).1
  have hbodies : ∀ f, .function f ∈ p.items → ∀ body ∈ f.body, body.Spelled L := by
    intro f hf
    have hspelled : f.Spelled L := hp _ hf
    exact hspelled.body
  exact ⟨hk', fun V hV => (hadd V hV).2,
    fun f hf => (functions_checked (fun _ ht => ht.1) hk' hbodies hfunctions f hf).accepts⟩

end Functions

end MiniC.Typing
