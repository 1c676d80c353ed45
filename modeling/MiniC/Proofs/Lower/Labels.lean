import MiniC.Proofs.Lower.FrameSafety
import MiniC.Proofs.Typing.Globals

/-!
# Every label of a file is defined once, and every label that is named is defined

The labels of a file are those of the constants in the pool, of global objects, of functions, of constructs,
and the ones where `return`s meet. They are told apart by how they are spelled. A name of the language does
not begin with a dot. The label of a constant ends in a digit, and that of a construct or of `return`s in a
letter.

Within each kind, constants are numbered by their place in the pool. Objects and functions have different
names, since a name that is taken is refused. Constructs take their numbers from a counter that is never set
back between functions.

`labels_resolve` puts this together for a source text that is read, accepted and generated by itself: no label
but the local one is defined twice, jumps stay in their function, and each label of data that is named by an
instruction or stored in an object is defined in the data section.
-/

set_option autoImplicit false

namespace MiniC

/-! ### Labels of constants -/

namespace Pool

/-- The labels of the constants, those of floats first. -/
def labels (pool : Pool) : List String := pool.floats.labels ++ pool.strings.labels

/-- The label of some constant. -/
def IsLabel (name : String) : Prop := ∃ mark ∈ [".LF", ".LS"], ∃ i : Nat, name = mark ++ toString i

theorem labels_nodup (pool : Pool) : pool.labels.Nodup := by
  refine List.nodup_append.mpr ⟨pool.floats.labels_nodup, pool.strings.labels_nodup, ?_⟩
  intro name hname name' hname' heq
  obtain ⟨i, rfl⟩ := ConstantTable.eq_of_mem_labels hname
  obtain ⟨j, rfl⟩ := ConstantTable.eq_of_mem_labels hname'
  exact floatMark_ne_stringMark i j heq

theorem isLabel_of_mem {pool : Pool} {name : String} (h : name ∈ pool.labels) : IsLabel name := by
  rcases List.mem_append.mp h with h | h
  · obtain ⟨i, rfl⟩ := ConstantTable.eq_of_mem_labels h
    exact ⟨_, by simp, i, rfl⟩
  · obtain ⟨i, rfl⟩ := ConstantTable.eq_of_mem_labels h
    exact ⟨_, by simp, i, rfl⟩

namespace IsLabel

variable {name : String}

/-- A label is a dot, two letters and the digits of a number. -/
theorem toList (h : IsLabel name) :
    ∃ c i, name.toList = ['.', 'L', c] ++ Nat.toDigits 10 i := by
  obtain ⟨mark, hmark, i, rfl⟩ := h
  simp only [List.mem_cons, List.not_mem_nil, or_false] at hmark
  rcases hmark with rfl | rfl
  · exact ⟨'F', i, by simp⟩
  · exact ⟨'S', i, by simp⟩

theorem head (h : IsLabel name) : ∃ cs, name.toList = '.' :: cs := by
  obtain ⟨c, i, hlist⟩ := h.toList
  exact ⟨_, hlist⟩

theorem last (h : IsLabel name) : ∃ c, name.toList.getLast? = some c ∧ c.isDigit = true := by
  obtain ⟨_, i, hlist⟩ := h.toList
  have hne : Nat.toDigits 10 i ≠ [] := Nat.toDigits_ne_nil
  refine ⟨(Nat.toDigits 10 i).getLast hne, ?_, ?_⟩
  · rw [hlist, List.getLast?_append_of_ne_nil _ hne, List.getLast?_eq_some_getLast hne]
  · exact Nat.isDigit_of_mem_toDigits (by decide) (by decide) (List.getLast_mem hne)

theorem ne_of_last (h : IsLabel name) {name' : String} {cs : List Char} {c : Char}
    (hname' : name'.toList = cs ++ [c]) (hc : c.isDigit = false) : name ≠ name' := by
  rintro rfl
  obtain ⟨d, hd, hdigit⟩ := h.last
  rw [hname', List.getLast?_concat] at hd
  cases hd
  rw [hc] at hdigit
  cases hdigit

theorem ne_returnLabel (h : IsLabel name) (f : String) : name ≠ returnLabel f := by
  have hlist : (returnLabel f).toList = ['.', 'L'] ++ (f.toList ++ "_retur".toList) ++ ['n'] := by
    rw [toList_returnLabel]
    simp
  exact h.ne_of_last hlist rfl

theorem not_from (h : IsLabel name) (counter : LabelCounter) : ¬ counter.From name := by
  rintro ⟨kind, -, id, role, hrole, heq, -⟩
  -- every role ends in a letter
  have hletter : ∃ cs c, role.toList = cs ++ [c] ∧ c.isDigit = false := by
    simp only [roles, List.mem_cons, List.not_mem_nil, or_false] at hrole
    rcases hrole with rfl | rfl | rfl | rfl | rfl | rfl
    · exact ⟨"shor".toList, 't', rfl, rfl⟩
    · exact ⟨"en".toList, 'd', rfl, rfl⟩
    · exact ⟨"tru".toList, 'e', rfl, rfl⟩
    · exact ⟨"fals".toList, 'e', rfl, rfl⟩
    · exact ⟨"the".toList, 'n', rfl, rfl⟩
    · exact ⟨"star".toList, 't', rfl, rfl⟩
  obtain ⟨cs, c, hrole, hc⟩ := hletter
  have hlist : (controlLabel kind id role).toList =
      ['.', 'L'] ++ (kind.toList ++ (Nat.toDigits 10 id ++ '_' :: cs)) ++ [c] := by
    rw [toList_controlLabel, hrole]
    simp
  exact h.ne_of_last hlist hc heq

theorem ne_of_isName (h : IsLabel name) {name' : String} (hname' : IsName name') : name ≠ name' := by
  rintro rfl
  obtain ⟨cs, hlist⟩ := h.head
  obtain ⟨c, cs', hlist', hdot, -⟩ := Lower.head_of_isName hname'
  rw [hlist] at hlist'
  exact hdot (List.cons.inj hlist').1.symm

theorem ne_unorderedLabel (h : IsLabel name) : name ≠ Emit.unorderedLabel := by
  rintro rfl
  obtain ⟨cs, hlist⟩ := h.head
  cases hlist

end IsLabel

end Pool

namespace Lower

open Emit
open MiniC.Emitter (added)
open MiniC.X86 (Line Places labelNames)

/-! ### The data section -/

theorem labelNames_flatMap {α : Type} {lines : α → List Line} {name : α → String} {xs : List α}
    (h : ∀ x ∈ xs, labelNames (lines x) = [name x]) : labelNames (xs.flatMap lines) = xs.map name := by
  induction xs with
  | nil => rfl
  | cons x xs ih =>
    rw [List.flatMap_cons, X86.labelNames_append, h x List.mem_cons_self,
      ih fun y hy => h y (List.mem_cons_of_mem _ hy)]
    rfl

theorem labelNames_poolLines (pool : Pool) : labelNames (poolLines pool) = pool.labels := by
  rw [poolLines, X86.labelNames_append, Pool.labels]
  congr 1
  · refine labelNames_flatMap fun x hx => ?_
    have hlabel : Pool.IsLabel x.2 :=
      Pool.isLabel_of_mem (List.mem_append_left _ (List.mem_map_of_mem hx))
    simp [labelNames, hlabel.ne_unorderedLabel]
  · refine labelNames_flatMap fun x hx => ?_
    have hlabel : Pool.IsLabel x.2 :=
      Pool.isLabel_of_mem (List.mem_append_right _ (List.mem_map_of_mem hx))
    simp [labelNames, hlabel.ne_unorderedLabel]

theorem confined_poolLines (R : Places) (pool : Pool) : ∀ l ∈ poolLines pool, l.Confined R := by
  intro l hl
  rw [poolLines, List.mem_append] at hl
  rcases hl with hl | hl
  · obtain ⟨x, -, hl⟩ := List.mem_flatMap.mp hl
    simp only [List.mem_cons, List.not_mem_nil, or_false] at hl
    rcases hl with rfl | rfl | rfl <;> trivial
  · obtain ⟨x, -, hl⟩ := List.mem_flatMap.mp hl
    simp only [List.mem_cons, List.not_mem_nil, or_false] at hl
    rcases hl with rfl | rfl <;> trivial

/-- An object can hold the address of a string, and of nothing else. -/
theorem confined_dataDirective {R : Places} {pool : Pool} (hpool : R.Pooled pool) {slot : CType}
    {value : Value} {d : X86.Directive} (h : dataDirective pool slot value = .ok d) :
    (Line.directive d).Confined R := by
  unfold dataDirective at h
  split at h
  · split at h
    · cases h
      trivial
    · cases h
  · split at h
    · cases h
      trivial
    · cases h
  · split at h
    · split at h
      · rename_i label hlabel
        cases h
        exact hpool.strings _ label hlabel
      · cases h
    · split at h
      · cases h
        trivial
      · cases h
  · cases h
  · cases h

theorem confined_dataDirectives {R : Places} {pool : Pool} (hpool : R.Pooled pool) {slot : CType}
    {values : List Value} {ds : List X86.Directive} (h : dataDirectives pool slot values = .ok ds) :
    ∀ d ∈ ds, (Line.directive d).Confined R := by
  induction values generalizing ds with
  | nil =>
    cases h
    exact fun d hd => absurd hd List.not_mem_nil
  | cons v vs ih =>
    rw [dataDirectives] at h
    cases hd : dataDirective pool slot v with
    | error x =>
      rw [hd] at h
      cases h
    | ok d =>
      cases hds : dataDirectives pool slot vs with
      | error x =>
        rw [hd, hds] at h
        cases h
      | ok rest =>
        rw [hd, hds] at h
        cases h
        exact List.forall_mem_cons.mpr ⟨confined_dataDirective hpool hd, ih hds⟩

theorem labelNames_directives (ds : List X86.Directive) : labelNames (ds.map .directive) = [] := by
  induction ds with
  | nil => rfl
  | cons d ds ih => exact ih

/-- The lines of an object define its name, and what they store are constants of the pool. -/
theorem lines_of_globalLines {pool : Pool} {o : Symbol} {init : Option Constant} {ls : List Line}
    (h : globalLines pool o init = .ok ls) (hname : o.name ≠ unorderedLabel) :
    labelNames ls = [o.name] ∧ ∀ R : Places, R.Pooled pool → ∀ l ∈ ls, l.Confined R := by
  unfold globalLines at h
  split at h
  · split at h
    · cases h
    · rename_i element capacity helements
      dsimp only at h
      split at h
      · cases h
      · generalize (init.map Constant.flatten).getD [] = values at h
        cases hstored : dataDirectives pool element values with
        | error x =>
          rw [hstored] at h
          cases h
        | ok stored =>
          rw [hstored] at h
          cases h
          generalize hzeros : (if 0 < capacity - values.length then
            [X86.Directive.zero ((capacity - values.length) * element.size)] else []) = zeros
          have hstart : labelNames [.directive (.globl o.name), .directive (.balign o.type.align),
              .label o.name] = [o.name] := by
            simp [labelNames, hname]
          rw [X86.labelNames_append, hstart, labelNames_directives, List.append_nil]
          refine ⟨rfl, fun R hpool l hl => ?_⟩
          rcases List.mem_append.mp hl with hl | hl
          · simp only [List.mem_cons, List.not_mem_nil, or_false] at hl
            rcases hl with rfl | rfl | rfl <;> trivial
          · obtain ⟨d, hd, rfl⟩ := List.mem_map.mp hl
            rcases List.mem_append.mp hd with hd | hd
            · exact confined_dataDirectives hpool hstored d hd
            · rw [← hzeros] at hd
              split at hd
              · rw [List.mem_singleton.mp hd]
                trivial
              · exact absurd hd List.not_mem_nil
  · cases h

/-- Global objects append their lines to the data section. -/
theorem data_of_globals {s : Setting} {gs : List Typed.Global} {e e' : Emitter}
    (h : perform (globals gs) s e = (.ok (), e')) (hnames : ∀ g ∈ gs, g.symbol.name ≠ unorderedLabel) :
    ∃ ls, e'.data.toList = e.data.toList ++ ls ∧ labelNames ls = gs.map (·.symbol.name) ∧
      ∀ R : Places, R.Pooled s.pool → ∀ l ∈ ls, l.Confined R := by
  induction gs generalizing e with
  | nil =>
    cases h
    exact ⟨[], (List.append_nil _).symm, rfl, fun _ _ l hl => absurd hl List.not_mem_nil⟩
  | cons g gs ih =>
    rw [globals] at h
    obtain ⟨_, e1, h1, h2⟩ := perform_bind_eq_ok h
    have hdeclare := exec_of_perform h1
    simp only [declareGlobal, exec_bind, exec_read] at hdeclare
    cases hlines : globalLines s.pool g.symbol g.init with
    | error x =>
      rw [hlines] at hdeclare
      cases hdeclare
    | ok first =>
      rw [hlines] at hdeclare
      cases hdeclare
      obtain ⟨hfirst, hconfined⟩ := lines_of_globalLines hlines (hnames g List.mem_cons_self)
      obtain ⟨rest, hdata, hrest, hconfined'⟩ := ih h2 fun g' hg' => hnames g' (List.mem_cons_of_mem _ hg')
      refine ⟨first ++ rest, ?_, ?_, fun R hpool => ?_⟩
      · rw [hdata]
        simp
      · rw [X86.labelNames_append, hfirst, hrest]
        rfl
      · exact List.forall_mem_append.mpr ⟨hconfined R hpool, hconfined' R hpool⟩

/-! ### The code of functions -/

theorem not_from_of_isName {name : String} (h : IsName name) (counter : LabelCounter) :
    ¬ counter.From name := by
  obtain ⟨c, cs, hlist, hdot, -⟩ := head_of_isName h
  exact LabelCounter.not_from_of_head hlist hdot counter

theorem ne_unorderedLabel_of_isName {name : String} (h : IsName name) : name ≠ unorderedLabel := by
  rintro rfl
  obtain ⟨c, cs, hlist, -, hone⟩ := head_of_isName h
  exact hone (List.cons.inj hlist).1.symm

/-- What the labels of a function are, and that its jumps are to them. A jump to the local label goes past the
line below it, a jump itself. -/
structure Closed (f : Routine) (part : List Line) : Prop where
  entry : f.name ∈ labelNames part
  exit : returnLabel f.name ∈ labelNames part
  labels : ∀ name ∈ labelNames part, name = f.name ∨ name = returnLabel f.name ∨
    ∃ kind ∈ constructs, ∃ id, ∃ role ∈ roles, name = controlLabel kind id role
  jumps : ∀ l ∈ part, ∀ target, l.jump? = some target → target ≠ unorderedTarget →
    .label target ∈ part
  unordered : X86.Local part

namespace FunctionCode

variable {s : Setting} {f : Typed.Function} {e0 e1 e2 e3 : Emitter}

/-- The code from the label of the function on, as it is framed. -/
def framedLines (f : Typed.Function) (e0 e1 e2 : Emitter) : List Line :=
  prologueLines f e0 e1 ++ (bodyLines e1 e2 ++ [.label (returnLabel f.routine.name)]) ++
    (closeFrame.map .instr ++ [.directive (.functionSize f.routine.name)])

theorem added_eq (c : FunctionCode s f e0 e1 e2 e3) :
    added e0 e3 = headLines f.routine ++ framedLines f e0 e1 e2 := by
  apply Emitter.added_of_text
  apply Array.ext'
  rw [c.text_eq]
  simp [framedLines, tailLines]

theorem data_eq (c : FunctionCode s f e0 e1 e2 e3) : e3.data = e0.data := by
  calc
    e3.data = e2.data := by rw [c.closing_eq]; rfl
    _ = e1.data := c.holding_body.data
    _ = (entered e0 f.routine).data := c.holding_opening.data
    _ = e0.data := rfl

theorem labelNames_framedLines (c : FunctionCode s f e0 e1 e2 e3) :
    labelNames (framedLines f e0 e1 e2) = labelNames (added e1 e2) ++ [returnLabel f.routine.name] := by
  have hopening : labelNames (prologueLines f e0 e1) = [] :=
    X86.labelNames_of_isStraight fun l hl => c.framed.straight l (List.mem_append_left _ hl)
  have hclosing : labelNames (closeFrame.map .instr ++ [.directive (.functionSize f.routine.name)]) = [] :=
    X86.labelNames_of_isStraight fun l hl => c.framed.straight l (List.mem_append_right _ hl)
  have hresult : labelNames [.instr (.alu .xor .long (.reg (.long .rax)) (.reg (.long .rax)))] = [] := rfl
  rw [framedLines, X86.labelNames_append, X86.labelNames_append, hopening, hclosing, List.append_nil,
    List.nil_append, X86.labelNames_append, X86.labelNames_single (returnLabel_ne_unorderedLabel _), bodyLines,
    X86.labelNames_append, hresult, List.append_nil]

/-- The labels in the code of a function: that of its `return`s, and numbered ones. -/
theorem label_framedLines (c : FunctionCode s f e0 e1 e2 e3) {name : String}
    (h : name ∈ labelNames (framedLines f e0 e1 e2)) :
    name = returnLabel f.routine.name ∨ e1.labels.Between e2.labels name := by
  rw [c.labelNames_framedLines, List.mem_append] at h
  rcases h with h | h
  · obtain ⟨hmem, hne⟩ := X86.mem_labelNames.1 h
    exact .inr ((c.holding_body.grows.labelled name hmem).resolve_left hne)
  · exact .inl (List.mem_singleton.mp h)

theorem jump_framedLines (c : FunctionCode s f e0 e1 e2 e3) {l : Line} (hl : l ∈ framedLines f e0 e1 e2)
    {target : String} (hjump : l.jump? = some target) (hne : target ≠ unorderedTarget) :
    .label target ∈ framedLines f e0 e1 e2 := by
  obtain ⟨i, hi⟩ := List.mem_iff_getElem?.mp hl
  obtain ⟨j, hlands, -⟩ := c.framed.lands hi hjump
  rw [X86.Lands, if_neg hne] at hlands
  exact List.mem_of_getElem? hlands

section Labels

variable (c : FunctionCode s f e0 e1 e2 e3) (hname : IsName f.routine.name)
include c hname

theorem labelNames_added :
    labelNames (added e0 e3) = f.routine.name :: labelNames (framedLines f e0 e1 e2) := by
  have hhead : labelNames (headLines f.routine) = [f.routine.name] := by
    simp [headLines, labelNames, ne_unorderedLabel_of_isName hname]
  rw [c.added_eq, X86.labelNames_append, hhead]
  rfl

theorem nodup_added : (labelNames (added e0 e3)).Nodup := by
  rw [c.labelNames_added hname]
  refine List.nodup_cons.mpr ⟨fun hmem => ?_, c.framed.unique_code⟩
  rcases c.label_framedLines hmem with heq | hbetween
  · exact ne_returnLabel_of_isName hname _ heq
  · exact not_from_of_isName hname _ hbetween.from

theorem closed_added : Closed f.routine (added e0 e3) where
  entry := by
    rw [c.labelNames_added hname]
    exact List.mem_cons_self
  exit := by
    rw [c.labelNames_added hname, c.labelNames_framedLines]
    simp
  labels := by
    intro name hmem
    rw [c.labelNames_added hname] at hmem
    rcases List.mem_cons.mp hmem with heq | hmem
    · exact .inl heq
    · rcases c.label_framedLines hmem with heq | ⟨kind, hkind, id, role, hrole, heq, -⟩
      · exact .inr (.inl heq)
      · exact .inr (.inr ⟨kind, hkind, id, role, hrole, heq⟩)
  jumps := by
    intro l hl target hjump hne
    rw [c.added_eq] at hl ⊢
    rcases List.mem_append.mp hl with hl | hl
    · simp only [headLines, List.mem_cons, List.not_mem_nil, or_false] at hl
      rcases hl with rfl | rfl | rfl <;> cases hjump
    · exact List.mem_append_right _ (c.jump_framedLines hl hjump hne)
  unordered := by
    have hhead : X86.Local (headLines f.routine) := by
      refine X86.local_of_forall fun l hl => ?_
      simp only [headLines, List.mem_cons, List.not_mem_nil, or_false] at hl
      rcases hl with rfl | rfl | rfl <;> simp [Line.jump?]
    rw [c.added_eq]
    exact hhead.append c.framed.local_code

end Labels

end FunctionCode

theorem closed_of_emits {s : Setting} {f : Typed.Function} {part : List Line} (h : Emits s f part)
    (hname : IsName f.routine.name) : Closed f.routine part := by
  obtain ⟨e, e', hidle, hperform, htext⟩ := h
  obtain ⟨_, _, c⟩ := functionCode_of_perform hidle hperform
  -- the part is what the function added
  have hpart : added e e' = part := by
    apply Emitter.added_of_text
    apply Array.ext'
    rw [htext, Array.toList_append]
  exact hpart ▸ c.closed_added hname

/-! ### Functions one after the other -/

/-- The labels of functions: their names, where their `return`s meet, and numbered ones. -/
theorem Filled.label {names : List String} {e e' : Emitter} (h : Filled names e e') {l : String}
    (hl : l ∈ labelNames (added e e')) :
    (∃ name ∈ names, l = name ∨ l = returnLabel name) ∨ e.labels.Between e'.labels l := by
  obtain ⟨hmem, hne⟩ := X86.mem_labelNames.1 hl
  rcases h.named l hmem with hnamed | hlocal | hbetween
  · exact .inl hnamed
  · exact absurd hlocal hne
  · exact .inr hbetween

/-- Functions with other names have other labels, since numbers are not given out again. -/
theorem Filled.apart {names names' : List String} {e e1 e2 : Emitter} (h : Filled names e e1)
    (h' : Filled names' e1 e2) (hnames : ∀ name ∈ names, IsName name)
    (hnames' : ∀ name ∈ names', IsName name) (hapart : ∀ name ∈ names, name ∉ names') {l : String}
    (hl : l ∈ labelNames (added e e1)) : l ∉ labelNames (added e1 e2) := by
  intro hl'
  rcases h.label hl with ⟨name, hname, rfl | rfl⟩ | hbetween
  · rcases h'.label hl' with ⟨name', hname', heq | heq⟩ | hbetween'
    · exact hapart _ hname (heq ▸ hname')
    · exact ne_returnLabel_of_isName (hnames _ hname) _ heq
    · exact not_from_of_isName (hnames _ hname) _ hbetween'.from
  · rcases h'.label hl' with ⟨name', hname', heq | heq⟩ | hbetween'
    · exact ne_returnLabel_of_isName (hnames' _ hname') _ heq.symm
    · exact hapart _ hname (returnLabel_inj heq ▸ hname')
    · exact LabelCounter.not_from_returnLabel _ _ hbetween'.from
  · rcases h'.label hl' with ⟨name', hname', rfl | rfl⟩ | hbetween'
    · exact not_from_of_isName (hnames' _ hname') _ hbetween.from
    · exact LabelCounter.not_from_returnLabel _ _ hbetween.from
    · exact hbetween.not_from hbetween'.from

section Functions

variable {s : Setting} {fs : List Typed.Function} {e e' : Emitter}

/-- No label of a sequence of functions is defined twice. -/
theorem nodup_of_functions (h : e.Idle) (hperform : perform (functions fs) s e = (.ok (), e'))
    (hnames : ∀ f ∈ fs, IsName f.routine.name) (hnodup : (fs.map (·.routine.name)).Nodup) :
    (labelNames (added e e')).Nodup := by
  induction fs generalizing e with
  | nil =>
    cases hperform
    rw [Emitter.added_of_text_eq rfl]
    exact List.nodup_nil
  | cons f fs ih =>
    rw [functions] at hperform
    obtain ⟨_, e1, h1, h2⟩ := perform_bind_eq_ok hperform
    obtain ⟨_, _, c⟩ := functionCode_of_perform h h1
    have hrest := filled_of_functions c.filled.idle h2
    have hadded : added e e' = added e e1 ++ added e1 e' := by
      apply Emitter.added_of_text
      apply Array.ext'
      rw [hrest.text, c.filled.text, Array.toList_append, List.append_assoc]
    obtain ⟨hname, hothers⟩ := List.forall_mem_cons.mp hnames
    obtain ⟨hnew, hnodup⟩ := List.nodup_cons.mp hnodup
    rw [hadded, X86.labelNames_append]
    refine List.nodup_append.mpr ⟨c.nodup_added hname, ih c.filled.idle h2 hothers hnodup, ?_⟩
    intro l hl l' hl' heq
    refine c.filled.apart hrest (by simpa using hname) (by simpa using hothers) ?_ hl (heq ▸ hl')
    simpa using hnew

theorem data_of_functions (h : e.Idle) (hperform : perform (functions fs) s e = (.ok (), e')) :
    e'.data = e.data := by
  induction fs generalizing e with
  | nil =>
    cases hperform
    rfl
  | cons f fs ih =>
    rw [functions] at hperform
    obtain ⟨_, e1, h1, h2⟩ := perform_bind_eq_ok hperform
    obtain ⟨_, _, c⟩ := functionCode_of_perform h h1
    rw [ih c.filled.idle h2, c.data_eq]

end Functions

/-! ### The file -/

/-- The places that the labels of some lines are, and all of every frame. -/
def definedPlaces (data : List Line) : Places := ⟨fun _ _ => True, fun name => name ∈ labelNames data⟩

namespace FileRun

variable {s : Setting} {p : Typed.Program} {e0 e1 e2 e : Emitter}

/-- The data section: the constants, and then the global objects. -/
theorem data_lines (h : FileRun s p e0 e1 e2 e) (hnames : ∀ g ∈ p.globals, IsName g.symbol.name) :
    labelNames e.data.toList = s.pool.labels ++ p.globals.map (·.symbol.name) ∧
      ∀ R : Places, R.Pooled s.pool → ∀ l ∈ e.data.toList, l.Confined R := by
  obtain ⟨ls, hdata, hlabels, hconfined⟩ :=
    data_of_globals h.globals fun g hg => ne_unorderedLabel_of_isName (hnames g hg)
  have hlines : e.data.toList = .directive .data :: (poolLines s.pool ++ ls) := by
    rw [h.data, data_of_functions h.idle h.functions, hdata, h.constants, List.cons_append]
  have hstart : labelNames (.directive .data :: (poolLines s.pool ++ ls)) =
    labelNames (poolLines s.pool ++ ls) := rfl
  rw [hlines]
  constructor
  · rw [hstart, X86.labelNames_append, labelNames_poolLines, hlabels]
  · intro R hpool
    refine List.forall_mem_cons.mpr ⟨trivial, List.forall_mem_append.mpr ⟨?_, hconfined R hpool⟩⟩
    exact confined_poolLines R s.pool

theorem labelNames_text (h : FileRun s p e0 e1 e2 e) :
    labelNames e.text.toList = labelNames (added e1 e2) := by
  have hend : labelNames [.directive .plainStack] = [] := rfl
  rw [h.text, Array.toList_push, X86.labelNames_append, hend, List.append_nil,
    (filled_of_functions h.idle h.functions).text, h.begun]
  rfl

/-- If names are words of the language and no two are alike, no label is defined twice. -/
theorem nodup_lines (h : FileRun s p e0 e1 e2 e) (hglobals : ∀ g ∈ p.globals, IsName g.symbol.name)
    (hfunctions : ∀ f ∈ p.functions, IsName f.routine.name)
    (hnodup : (p.globals.map (·.symbol.name) ++ p.functions.map (·.routine.name)).Nodup) :
    (labelNames e.lines).Nodup := by
  obtain ⟨hobjects, hroutines, hapart⟩ := List.nodup_append.mp hnodup
  have hfilled := filled_of_functions h.idle h.functions
  have hlines : labelNames e.lines = labelNames e.data.toList ++ labelNames (added e1 e2) := by
    rw [Emitter.lines, X86.labelNames_append, ← h.labelNames_text]
    rfl
  rw [hlines, (h.data_lines hglobals).1]
  refine List.nodup_append.mpr ⟨List.nodup_append.mpr ⟨s.pool.labels_nodup, hobjects, ?_⟩,
    nodup_of_functions h.idle h.functions hfunctions hroutines, ?_⟩
  · intro name hname name' hname'
    obtain ⟨g, hg, rfl⟩ := List.mem_map.mp hname'
    exact (Pool.isLabel_of_mem hname).ne_of_isName (hglobals g hg)
  · rintro name hname _ htext rfl
    have hroutine : ∀ n ∈ p.functions.map (·.routine.name), IsName n := by simpa using hfunctions
    rcases List.mem_append.mp hname with hconstant | hobject
    · -- a constant's label is spelled like none of the text
      have hlabel := Pool.isLabel_of_mem hconstant
      rcases hfilled.label htext with ⟨n, hn, heq | heq⟩ | hbetween
      · exact hlabel.ne_of_isName (hroutine n hn) heq
      · exact hlabel.ne_returnLabel n heq
      · exact hlabel.not_from _ hbetween.from
    · have hword : IsName name := by
        obtain ⟨g, hg, rfl⟩ := List.mem_map.mp hobject
        exact hglobals g hg
      rcases hfilled.label htext with ⟨n, hn, heq | heq⟩ | hbetween
      · exact hapart name hobject n hn heq
      · exact ne_returnLabel_of_isName hword n heq
      · exact not_from_of_isName hword _ hbetween.from

/-- The labels of data that are named are defined there, if functions mention only their own objects and
those of the program. -/
theorem confined_lines (h : FileRun s p e0 e1 e2 e) (hglobals : ∀ g ∈ p.globals, IsName g.symbol.name)
    (hmentioned : ∀ f ∈ p.functions, ∀ o ∈ f.symbols,
      (∃ base, o.address = .frame base) ∨ ∃ g ∈ p.globals, o.address = .label g.symbol.name) :
    ∀ l ∈ e.lines, l.Confined (definedPlaces e.data.toList) := by
  obtain ⟨hlabels, hdata⟩ := h.data_lines hglobals
  have hpool : (definedPlaces e.data.toList).Pooled s.pool := by
    constructor
    · intro x name hname
      show name ∈ labelNames e.data.toList
      rw [hlabels]
      exact List.mem_append_left _ (List.mem_append_left _ (ConstantTable.mem_labels hname))
    · intro text name hname
      show name ∈ labelNames e.data.toList
      rw [hlabels]
      exact List.mem_append_left _ (List.mem_append_right _ (ConstantTable.mem_labels hname))
  have hadmits : ∀ f ∈ p.functions, ∀ o ∈ f.symbols, (definedPlaces e.data.toList).Admits o := by
    intro f hf o ho offset bytes _ _
    rcases hmentioned f hf o ho with ⟨base, haddress⟩ | ⟨g, hg, haddress⟩
    · rw [haddress]
      trivial
    · rw [haddress]
      show g.symbol.name ∈ labelNames e.data.toList
      rw [hlabels]
      exact List.mem_append_right _ (List.mem_map_of_mem hg)
  obtain ⟨parts, htext, hparts⟩ := h.text_eq
  have hconfined : ∀ part ∈ parts, ∀ l ∈ part, l.Confined (definedPlaces e.data.toList) := by
    have hboth := (List.forall₂_and_left _ _).mpr ⟨hadmits, hparts⟩
    intro part hpart
    obtain ⟨i, hi, rfl⟩ := List.mem_iff_getElem.mp hpart
    have hf := hboth.get (i := i) (by rw [hboth.length_eq]; exact hi) hi
    exact confined_of_emits hf.2 hpool hf.1
  rw [Emitter.lines, htext]
  refine List.forall_mem_append.mpr ⟨hdata _ hpool, List.forall_mem_cons.mpr ⟨trivial, ?_⟩⟩
  refine List.forall_mem_append.mpr ⟨fun l hl => ?_, List.forall_mem_singleton.mpr trivial⟩
  obtain ⟨part, hpart, hl⟩ := List.mem_flatten.mp hl
  exact hconfined part hpart l hl

end FileRun

/-- Functions of an accepted file mention objects of their frames, and global objects by their names. -/
theorem mentioned_of_program {p : Ast.Program} {t : Typed.Program} {k : Typing.Known}
    (h : Typing.program {} p = (.ok t, k)) : ∀ f ∈ t.functions, ∀ o ∈ f.symbols,
      (∃ base, o.address = .frame base) ∨ ∃ g ∈ t.globals, o.address = .label g.symbol.name := by
  intro f hf o ho
  have hfirst : Typing.program (.after []) p = (.ok t, k) := h
  have haccepted := (accepted_of_program hfirst).2 f hf
  rcases mentioned_of_accepted haccepted o ho with hown | hglobal
  · obtain ⟨frame, hlaid, -⟩ := haccepted.laid
    obtain ⟨distance, haddress, -⟩ := hlaid.bounds hown
    exact .inl ⟨_, haddress⟩
  · obtain ⟨g, hg, rfl⟩ := List.mem_map.mp ((Typing.mem_globals_iff h o).mp hglobal)
    exact .inr ⟨g, hg, (Typing.gains_of_program h).separate.labelled _ hglobal⟩

/-- The labels of a file that was generated from a source text by itself. -/
theorem labels_resolve {source name : String} {pool pool' : Pool} {ast : Ast.Program} {t : Typed.Program}
    (hparse : parse source name pool = (.ok ast, pool')) (hcheck : Typing.check ast = .ok t) {strict : Bool}
    {file : String} (hgenerate : generate ⟨pool', strict⟩ t = .ok file) :
    ∃ e, perform (program t) ⟨pool', strict⟩ {} = (.ok (), e) ∧ file = X86.listing e.lines ∧
      (labelNames e.lines).Nodup ∧
      labelNames e.data.toList = pool'.labels ++ t.globals.map (·.symbol.name) ∧
      (∀ l ∈ e.lines, l.Confined (definedPlaces e.data.toList)) ∧
      ∃ parts : List (List Line), e.text.toList = parts.flatten ++ [.directive .plainStack] ∧
        List.Forall₂ (fun f part => Emits ⟨pool', strict⟩ f part ∧ Closed f.routine part)
          t.functions parts := by
  have hprogram : Typing.program {} ast = (.ok t, (Typing.program {} ast).2) := Prod.ext hcheck rfl
  have hspelled := spelled_of_parse hparse
  have hglobals := Typing.globals_spelled hspelled hprogram
  have hfunctions := Typing.names_spelled hspelled hprogram
  obtain ⟨e, hperform, hfile⟩ := perform_of_generate hgenerate
  obtain ⟨e0, e1, e2, hrun⟩ := fileRun_of_perform hperform
  obtain ⟨parts, htext, hparts⟩ := hrun.text_eq
  refine ⟨e, hperform, hfile, hrun.nodup_lines hglobals hfunctions (Typing.names_nodup hprogram),
    (hrun.data_lines hglobals).1, hrun.confined_lines hglobals (mentioned_of_program hprogram), parts, htext, ?_⟩
  refine ((List.forall₂_and_left _ _).mpr ⟨hfunctions, hparts⟩).imp fun f part hf => ?_
  exact ⟨hf.2, closed_of_emits hf.2 hf.1⟩

/-- A text with a constant that an object points to, an object that a function reads, and a loop. -/
def labelledSource : String := "char *s = \"a\"; float x; void f() { while (x) {} } void g() {}"

/-- The pool that the text leaves. -/
def labelledPool : Pool := (Pool.internString {} "a").2

def labelledTokens : List Token := (tokenize labelledSource "a.c" {}).1.toOption.getD []

def labelled : Typed.Program where
  globals :=
    [⟨⟨"s", .pointer .char, .label "s"⟩, some (.value (.str "a")), ⟨"a.c", 1, 1⟩⟩,
     ⟨⟨"x", .float, .label "x"⟩, none, ⟨"a.c", 1, 16⟩⟩]
  functions :=
    [⟨⟨"f", .void, [], 0⟩, [],
      [.whileLoop (.load (.object ⟨"x", .float, .label "x"⟩)) (.block []) ⟨"a.c", 1, 36⟩], ⟨"a.c", 1, 25⟩⟩,
     ⟨⟨"g", .void, [], 0⟩, [], [], ⟨"a.c", 1, 51⟩⟩]

theorem parse_labelled :
    ∃ ast, parse labelledSource "a.c" {} = (.ok ast, labelledPool) ∧ Typing.check ast = .ok labelled := by
  have htokens : tokenize labelledSource "a.c" {} = (.ok labelledTokens, labelledPool) := by cbv
  have hlast : (labelledTokens.filter fun t => !t.kind.isComment).getLast? =
      some ⟨.endOfFile, ⟨⟨"a.c", 1, 62⟩, ⟨"a.c", 1, 62⟩⟩⟩ := by cbv
  have hn : (Token.visible labelledTokens).length = 27 := by cbv
  exact exists_parse htokens hlast rfl hn (by cbv)

/-- All kinds of labels, each defined once. -/
theorem labelled_resolve :
    ∃ ast file e, parse labelledSource "a.c" {} = (.ok ast, labelledPool) ∧ Typing.check ast = .ok labelled ∧
      generate ⟨labelledPool, true⟩ labelled = .ok file ∧
      perform (program labelled) ⟨labelledPool, true⟩ {} = (.ok (), e) ∧ file = X86.listing e.lines ∧
      labelNames e.lines = [".LS0", "s", "x", "f", ".Lwhile0_start", ".Lwhile0_end", ".Lf_return", "g",
        ".Lg_return"] ∧
      (labelNames e.lines).Nodup ∧ labelNames e.data.toList = [".LS0", "s", "x"] ∧
      (∀ l ∈ e.lines, l.Confined (definedPlaces e.data.toList)) ∧
      ∃ parts : List (List Line), e.text.toList = parts.flatten ++ [.directive .plainStack] ∧
        List.Forall₂ (fun f part => Emits ⟨labelledPool, true⟩ f part ∧ Closed f.routine part)
          labelled.functions parts := by
  obtain ⟨ast, hparse, hcheck⟩ := parse_labelled
  have hgenerates : (generate ⟨labelledPool, true⟩ labelled).isOk = true := by decide +kernel
  have hnames : labelNames (perform (program labelled) ⟨labelledPool, true⟩ {}).2.lines =
      [".LS0", "s", "x", "f", ".Lwhile0_start", ".Lwhile0_end", ".Lf_return", "g", ".Lg_return"] := by
    decide +kernel
  cases hgenerate : generate ⟨labelledPool, true⟩ labelled with
  | error failure =>
    rw [hgenerate] at hgenerates
    cases hgenerates
  | ok file =>
    obtain ⟨e, hperform, hfile, hnodup, hdata, hconfined, hparts⟩ :=
      labels_resolve hparse hcheck hgenerate
    rw [hperform] at hnames
    exact ⟨ast, file, e, hparse, hcheck, rfl, hperform, hfile, hnames, hnodup, hdata, hconfined, hparts⟩

end Lower

end MiniC
