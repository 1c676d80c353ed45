import MiniC.Proofs.Emit.Growth
import MiniC.Proofs.Lower.NoLeaks
import MiniC.Proofs.Token.Pooling

/-!
# Where functions stand in a file

The text of a file is the code of its functions, one after the other. `FunctionCode` names the four
states of the emitter around the three parts of a function: what opens its frame and stores its
parameters, its statements, and what closes the frame. `FileCode` says that this code stands in a file.

A label is looked for in the whole file. `Named` says which labels a stretch of a file can have: those of
its functions, and those that were numbered in it. So if the names of functions are names of the
language and no two are alike, the labels of a function are found where the function stands
(`FileCode.landing_name`, `FileCode.landing_return`).
-/

set_option autoImplicit false

namespace MiniC.Lower

open Emit
open MiniC.Emitter (Holding Grows added)
open MiniC.X86 (Line landing)

/-! ### The parts of a function -/

/-- The states between which the parts of a function are emitted. -/
structure FunctionCode (s : Setting) (f : Typed.Function) (e0 e1 e2 e3 : Emitter) : Prop where
  idle : e0.Idle
  opening : exec (prologue f.routine f.parameters) s e0 = (.ok (), e1)
  body : perform (stmts f.routine f.body) s e1 = (.ok (), e2)
  closing : exec (epilogue f.routine) s e2 = (.ok (), e3)

namespace FunctionCode

variable {s : Setting} {f : Typed.Function} {e0 e1 e2 e3 : Emitter}

theorem holding_opening (c : FunctionCode s f e0 e1 e2 e3) :
    Holding [] 0 (entered e0 f.routine) e1 :=
  (prologue_outcome e0 f.routine f.parameters).ok_of_exec c.opening

theorem idle_body (c : FunctionCode s f e0 e1 e2 e3) : e1.Idle := by
  have hentered : (entered e0 f.routine).Idle := c.idle
  exact hentered.of_holding c.holding_opening

theorem holding_body (c : FunctionCode s f e0 e1 e2 e3) : Holding [] 0 e1 e2 :=
  (stmts_completes f.routine (V := everything)
    (fun st _ => finishes _ s.pool f.routine st) c.idle_body).ok_of_perform c.body

theorem idle_closing (c : FunctionCode s f e0 e1 e2 e3) : e2.Idle := c.idle_body.of_holding c.holding_body

theorem closing_eq (c : FunctionCode s f e0 e1 e2 e3) : e3 = e2.append (exitLines f.routine) := by
  have hpushed : e2.pushed = 0 := by
    rw [c.holding_body.pushed, c.holding_opening.pushed]
    rfl
  have hclosing := c.closing
  rw [exec_epilogue c.idle_closing hpushed] at hclosing
  cases hclosing
  rfl

theorem text_opening (c : FunctionCode s f e0 e1 e2 e3) :
    e1.text.toList = e0.text.toList ++ entryLines f.routine ++ added (entered e0 f.routine) e1 := by
  rw [c.holding_opening.grows.text]
  simp [entered]

theorem text_closing (c : FunctionCode s f e0 e1 e2 e3) :
    e3.text.toList = e1.text.toList ++ added e1 e2 ++ exitLines f.routine := by
  rw [c.closing_eq, Emitter.append_text, Array.toList_append, c.holding_body.grows.text]

end FunctionCode

theorem functionCode_of_perform {s : Setting} {f : Typed.Function} {e e' : Emitter} (h : e.Idle)
    (hperform : perform (function f) s e = (.ok (), e')) : ∃ e1 e2, FunctionCode s f e e1 e2 e' := by
  obtain ⟨_, e1, h1, hperform⟩ := perform_bind_eq_ok hperform
  obtain ⟨_, e2, h2, h3⟩ := perform_bind_eq_ok hperform
  exact ⟨e1, e2, h, exec_of_perform h1, h2, exec_of_perform h3⟩

/-! ### The labels of functions -/

/-- The labels that a stretch of a file may define, if it holds the code of functions with these names
and the counter of labels went from `c` to `c'`. -/
def Named (names : List String) (c c' : LabelCounter) (ls : List Line) : Prop :=
  ∀ l, Line.label l ∈ ls →
    (∃ name ∈ names, l = name ∨ l = returnLabel name) ∨ l = unorderedLabel ∨ c.Between c' l

theorem Named.mono {names names' : List String} {c c' d d' : LabelCounter} {ls : List Line}
    (h : Named names c c' ls) (hnames : names ⊆ names') (hd : ∀ k, d.peek k ≤ c.peek k)
    (hd' : ∀ k, c'.peek k ≤ d'.peek k) : Named names' d d' ls := by
  intro l hl
  rcases h l hl with ⟨name, hname, heq⟩ | hlocal | hbetween
  · exact .inl ⟨name, hnames hname, heq⟩
  · exact .inr (.inl hlocal)
  · exact .inr (.inr (hbetween.mono hd hd'))

theorem Named.append {names : List String} {c c' : LabelCounter} {ls ls' : List Line}
    (h : Named names c c' ls) (h' : Named names c c' ls') : Named names c c' (ls ++ ls') := by
  intro l hl
  rcases List.mem_append.mp hl with hl | hl
  · exact h l hl
  · exact h' l hl

theorem named_of_labelled {c c' : LabelCounter} {ls : List Line} (h : Emitter.Labelled c c' ls)
    (names : List String) : Named names c c' ls :=
  fun l hl => .inr (h l hl)

theorem named_entryLines (f : Routine) (c c' : LabelCounter) : Named [f.name] c c' (entryLines f) := by
  intro l hl
  have heq : l = f.name := by simpa [entryLines] using hl
  exact .inl ⟨f.name, by simp, .inl heq⟩

theorem named_exitLines (f : Routine) (c c' : LabelCounter) : Named [f.name] c c' (exitLines f) := by
  intro l hl
  have heq : l = returnLabel f.name := by simpa [exitLines] using hl
  exact .inl ⟨f.name, by simp, .inr heq⟩

/-- Functions with some names have been emitted. -/
structure Filled (names : List String) (e e' : Emitter) : Prop where
  idle : e'.Idle
  text : e'.text.toList = e.text.toList ++ added e e'
  labels : ∀ k, e.labels.peek k ≤ e'.labels.peek k
  named : Named names e.labels e'.labels (added e e')

theorem FunctionCode.filled {s : Setting} {f : Typed.Function} {e0 e1 e2 e3 : Emitter}
    (c : FunctionCode s f e0 e1 e2 e3) : Filled [f.routine.name] e0 e3 := by
  have hopening := c.holding_opening
  have hbody := c.holding_body
  have hlabels3 : e3.labels = e2.labels := by
    rw [c.closing_eq]
    rfl
  have htext : e3.text.toList = e0.text.toList ++ (entryLines f.routine ++
      added (entered e0 f.routine) e1 ++ added e1 e2 ++ exitLines f.routine) := by
    rw [c.text_closing, c.text_opening]
    simp
  have hadded : added e0 e3 = entryLines f.routine ++ added (entered e0 f.routine) e1 ++
      added e1 e2 ++ exitLines f.routine := by
    apply Emitter.added_of_text
    apply Array.ext'
    rw [htext, Array.toList_append]
  have hfirst : ∀ k, e0.labels.peek k ≤ e1.labels.peek k := hopening.labels
  refine ⟨?_, by rw [hadded, htext], fun k => ?_, ?_⟩
  · rw [c.closing_eq]
    exact c.idle_closing.append _
  · rw [hlabels3]
    exact Nat.le_trans (hfirst k) (hbody.labels k)
  · rw [hadded, hlabels3]
    refine (((named_entryLines _ _ _).append ?_).append ?_).append (named_exitLines _ _ _)
    · exact (named_of_labelled hopening.grows.labelled _).mono (List.Subset.refl _)
        (fun _ => Nat.le_refl _) hbody.labels
    · exact (named_of_labelled hbody.grows.labelled _).mono (List.Subset.refl _) hfirst
        fun _ => Nat.le_refl _

theorem Filled.trans {names names' : List String} {e e1 e2 : Emitter} (h : Filled names e e1)
    (h' : Filled names' e1 e2) : Filled (names ++ names') e e2 := by
  have htext : e2.text.toList = e.text.toList ++ (added e e1 ++ added e1 e2) := by
    rw [h'.text, h.text, List.append_assoc]
  have hadded : added e e2 = added e e1 ++ added e1 e2 := by
    apply Emitter.added_of_text
    apply Array.ext'
    rw [htext, Array.toList_append]
  refine ⟨h'.idle, by rw [hadded, htext], fun k => Nat.le_trans (h.labels k) (h'.labels k), ?_⟩
  rw [hadded]
  exact (h.named.mono (List.subset_append_left _ _) (fun _ => Nat.le_refl _) h'.labels).append
    (h'.named.mono (List.subset_append_right _ _) h.labels fun _ => Nat.le_refl _)

section Functions

variable {s : Setting} {f : Typed.Function} {fs fs' : List Typed.Function} {e e' : Emitter}

theorem filled_of_functions (h : e.Idle) (hperform : perform (functions fs) s e = (.ok (), e')) :
    Filled (fs.map (·.routine.name)) e e' := by
  induction fs generalizing e with
  | nil =>
    cases hperform
    have hnothing := Holding.refl e'
    exact ⟨h, hnothing.grows.text, hnothing.labels, named_of_labelled hnothing.grows.labelled _⟩
  | cons f fs ih =>
    rw [functions] at hperform
    obtain ⟨_, e3, h1, h2⟩ := perform_bind_eq_ok hperform
    obtain ⟨e1, e2, hcode⟩ := functionCode_of_perform h h1
    exact hcode.filled.trans (ih hcode.filled.idle h2)

theorem functions_append (h : e.Idle)
    (hperform : perform (functions (fs ++ f :: fs')) s e = (.ok (), e')) :
    ∃ e0 e1 e2 e3, perform (functions fs) s e = (.ok (), e0) ∧ FunctionCode s f e0 e1 e2 e3 ∧
      perform (functions fs') s e3 = (.ok (), e') := by
  induction fs generalizing e with
  | nil =>
    rw [List.nil_append, functions] at hperform
    obtain ⟨_, e3, h1, h2⟩ := perform_bind_eq_ok hperform
    obtain ⟨e1, e2, hcode⟩ := functionCode_of_perform h h1
    exact ⟨e, e1, e2, e3, rfl, hcode, h2⟩
  | cons g fs ih =>
    rw [List.cons_append, functions] at hperform
    obtain ⟨_, e', h1, h2⟩ := perform_bind_eq_ok hperform
    obtain ⟨_, _, hcode⟩ := functionCode_of_perform h h1
    obtain ⟨e0, e1, e2, e3, hbefore, hf, hafter⟩ := ih hcode.filled.idle h2
    refine ⟨e0, e1, e2, e3, ?_, hf, hafter⟩
    rw [functions, perform_bind_ok h1, hbefore]

end Functions

/-! ### Functions in a file -/

theorem text_of_globals {s : Setting} {gs : List Typed.Global} {e e' : Emitter}
    (h : perform (globals gs) s e = (.ok (), e')) : e'.text = e.text := by
  induction gs generalizing e with
  | nil =>
    cases h
    rfl
  | cons g gs ih =>
    rw [globals] at h
    obtain ⟨_, e1, h1, h2⟩ := perform_bind_eq_ok h
    have hdeclare := exec_of_perform h1
    rw [ih h2]
    simp only [declareGlobal, exec_bind, exec_read] at hdeclare
    cases hlines : globalLines s.pool g.symbol g.init with
    | error x =>
      rw [hlines] at hdeclare
      cases hdeclare
    | ok lines =>
      rw [hlines] at hdeclare
      cases hdeclare
      rfl

/-- The run that generates a file: `e0` is the state after the constants of the pool, `e1` after the global
objects, and `e2` after the functions. -/
structure FileRun (s : Setting) (p : Typed.Program) (e0 e1 e2 e : Emitter) : Prop where
  constants : e0.data.toList = .directive .data :: poolLines s.pool
  globals : perform (globals p.globals) s e0 = (.ok (), e1)
  functions : perform (functions p.functions) s e1 = (.ok (), e2)
  idle : e1.Idle
  begun : e1.text = #[]
  data : e.data = e2.data
  text : e.text = e2.text.push (.directive .plainStack)

theorem fileRun_of_perform {s : Setting} {p : Typed.Program} {e : Emitter}
    (h : perform (program p) s {} = (.ok (), e)) : ∃ e0 e1 e2, FileRun s p e0 e1 e2 e := by
  obtain ⟨_, e0, h0, h⟩ := perform_bind_eq_ok h
  obtain ⟨_, e1, h1, h⟩ := perform_bind_eq_ok h
  obtain ⟨_, e2, h2, h3⟩ := perform_bind_eq_ok h
  have hpreamble := exec_of_perform h0
  have hidle0 : e0.Idle := ((preamble_outcome {} fun _ => True).ok_of_exec hpreamble).idle
  have hopened : e0.text = #[] ∧ e0.data.toList = .directive .data :: poolLines s.pool := by
    cases hpreamble
    simp
  have hidle : e1.Idle :=
    ((globals_completes everything hidle0
      p.globals).ok_of_perform h1).idle
  have hpostamble := exec_of_perform h3
  rw [postamble, exec_bind_ok (exec_releaseLeaks (filled_of_functions hidle h2).idle _ _)] at hpostamble
  cases hpostamble
  exact ⟨e0, e1, e2, hopened.2, h1, h2, hidle, (text_of_globals h1).trans hopened.1, rfl, rfl⟩

/-- A file that was generated is the listing of what one run leaves. -/
theorem perform_of_generate {s : Setting} {p : Typed.Program} {file : String}
    (h : generate s p = .ok file) : ∃ e, perform (program p) s {} = (.ok (), e) ∧ file = e.output := by
  unfold generate at h
  split at h
  · rename_i e hperform
    cases h
    exact ⟨e, hperform, rfl⟩
  · cases h

/-- The code of a function in the file of a program, with the lines of the file's text. -/
structure FileCode (s : Setting) (p : Typed.Program) (f : Typed.Function) (file : String)
    (lines : List Line) (e0 e1 e2 e3 : Emitter) : Prop extends FunctionCode s f e0 e1 e2 e3 where
  /-- The lines are the text of the file. -/
  file : ∃ data, file = X86.listing (data ++ .directive .text :: lines)
  /-- The code is part of the lines. -/
  within : e3.text.toList <+: lines
  /-- Before it stands the code of other functions. -/
  before : ∃ fs fs' c, p.functions = fs ++ f :: fs' ∧ (∀ k, c.peek k ≤ e0.labels.peek k) ∧
    Named (fs.map (·.routine.name)) c e0.labels e0.text.toList

theorem fileCode_of_generate {s : Setting} {p : Typed.Program} {file : String}
    (h : generate s p = .ok file) {f : Typed.Function} (hf : f ∈ p.functions) :
    ∃ lines e0 e1 e2 e3, FileCode s p f file lines e0 e1 e2 e3 := by
  obtain ⟨final, hprogram, rfl⟩ := perform_of_generate h
  obtain ⟨_, e, e', hrun⟩ := fileRun_of_perform hprogram
  obtain ⟨fs, fs', hsplit⟩ := List.append_of_mem hf
  obtain ⟨e0, e1, e2, e3, hbefore, hcode, hafter⟩ := functions_append hrun.idle (hsplit ▸ hrun.functions)
  have hfilled := filled_of_functions hrun.idle hbefore
  have hrest := filled_of_functions hcode.filled.idle hafter
  have hadded : added e e0 = e0.text.toList := by
    rw [hfilled.text, hrun.begun]
    rfl
  refine ⟨final.text.toList, e0, e1, e2, e3, hcode, ⟨final.data.toList, rfl⟩, ?_, fs, fs', e.labels, hsplit,
    hfilled.labels, hadded ▸ hfilled.named⟩
  rw [hrun.text, Array.toList_push, hrest.text, List.append_assoc]
  exact List.prefix_append _ _

/-! ### Looking for the labels of a function -/

theorem head_of_isName {name : String} (h : IsName name) :
    ∃ c cs, name.toList = c :: cs ∧ c ≠ '.' ∧ c ≠ '1' := by
  obtain ⟨c, cs, hlist, hstart⟩ := h
  refine ⟨c, cs, hlist, ?_, ?_⟩ <;> rintro rfl <;> exact absurd hstart (by decide)

theorem ne_returnLabel_of_isName {name : String} (h : IsName name) (f : String) :
    name ≠ returnLabel f := by
  obtain ⟨c, cs, hlist, hdot, -⟩ := head_of_isName h
  rintro rfl
  rw [toList_returnLabel] at hlist
  exact hdot (List.cons.inj hlist).1.symm

namespace FileCode

variable {s : Setting} {p : Typed.Program} {f : Typed.Function} {file : String} {lines : List Line}
  {e0 e1 e2 e3 : Emitter}

/-- The labels up to the statements: of other functions, of this one, and numbered ones. -/
theorem label_opening (c : FileCode s p f file lines e0 e1 e2 e3) :
    ∃ fs fs', ∃ counter : LabelCounter, p.functions = fs ++ f :: fs' ∧
      ∀ l, Line.label l ∈ e1.text.toList → (∃ g ∈ fs, l = g.routine.name ∨
        l = returnLabel g.routine.name) ∨ l = f.routine.name ∨ l = unorderedLabel ∨ counter.Between e1.labels l := by
  obtain ⟨fs, fs', counter, hsplit, hcounter, hbefore⟩ := c.before
  have hlabels : ∀ k, e0.labels.peek k ≤ e1.labels.peek k := c.holding_opening.labels
  refine ⟨fs, fs', counter, hsplit, fun l hl => ?_⟩
  rw [c.text_opening] at hl
  rcases List.mem_append.mp hl with hl | hl
  · rcases List.mem_append.mp hl with hl | hl
    · rcases hbefore l hl with ⟨name, hname, heq⟩ | hlocal | hbetween
      · obtain ⟨g, hg, rfl⟩ := List.mem_map.mp hname
        exact .inl ⟨g, hg, heq⟩
      · exact .inr (.inr (.inl hlocal))
      · exact .inr (.inr (.inr (hbetween.mono (fun _ => Nat.le_refl _) hlabels)))
    · exact .inr (.inl (by simpa [entryLines] using hl))
  · exact .inr (.inr ((c.holding_opening.grows.labelled l hl).imp_right fun hbetween =>
      hbetween.mono hcounter fun _ => Nat.le_refl _))

/-- No label before the statements is named again in them. -/
theorem older (c : FileCode s p f file lines e0 e1 e2 e3)
    (hnames : ∀ g ∈ p.functions, IsName g.routine.name) : X86.Older e1.labels e1.text.toList := by
  have hname : ∀ g ∈ p.functions, ¬ e1.labels.From g.routine.name := by
    intro g hg
    obtain ⟨first, rest, hlist, hdot, -⟩ := head_of_isName (hnames g hg)
    exact LabelCounter.not_from_of_head hlist hdot _
  obtain ⟨fs, fs', counter, hsplit, hlabels⟩ := c.label_opening
  intro l hl
  rcases hlabels l hl with ⟨g, hg, rfl | rfl⟩ | rfl | rfl | hbetween
  · exact hname g (by simp [hsplit, hg])
  · exact LabelCounter.not_from_returnLabel _ _
  · exact hname f (by simp [hsplit])
  · exact X86.not_from_unorderedLabel _
  · exact hbetween.not_from

theorem name_ne (hnodup : (p.functions.map (·.routine.name)).Nodup) {fs fs' : List Typed.Function}
    (hsplit : p.functions = fs ++ f :: fs') {g : Typed.Function} (hg : g ∈ fs) :
    f.routine.name ≠ g.routine.name := by
  rw [hsplit, List.map_append, List.map_cons] at hnodup
  intro heq
  have hdisjoint := (List.nodup_append.mp hnodup).2.2
  exact hdisjoint g.routine.name (List.mem_map_of_mem hg) f.routine.name (by simp) heq.symm

section Landing

variable (c : FileCode s p f file lines e0 e1 e2 e3)
  (hnames : ∀ g ∈ p.functions, IsName g.routine.name)
  (hnodup : (p.functions.map (·.routine.name)).Nodup)

include c hnames hnodup

/-- The label that a return jumps to is found at the end of the function. -/
theorem landing_return : landing lines (returnLabel f.routine.name) = some (e2.text.size + 1) := by
  obtain ⟨fs, fs', counter, hsplit, hlabels⟩ := c.label_opening
  have hname := hnames f (by simp [hsplit])
  have htext : e2.text.toList = e1.text.toList ++ added e1 e2 := c.holding_body.grows.text
  have hnumbered : ∀ {l l' : LabelCounter}, ¬ l.Between l' (returnLabel f.routine.name) :=
    fun hbetween => LabelCounter.not_from_returnLabel _ _ hbetween.from
  have hlocal : returnLabel f.routine.name ≠ unorderedLabel := by
    intro heq
    have hlist := congrArg String.toList heq
    rw [toList_returnLabel] at hlist
    cases hlist
  have hnew : Line.label (returnLabel f.routine.name) ∉ e2.text.toList ++
      [.instr (.alu .xor .long (.reg (.long .rax)) (.reg (.long .rax)))] := by
    intro hmem
    have hmem : Line.label (returnLabel f.routine.name) ∈ e2.text.toList := by simpa using hmem
    rw [htext] at hmem
    rcases List.mem_append.mp hmem with hmem | hmem
    · rcases hlabels _ hmem with ⟨g, hg, heq | heq⟩ | heq | heq | hbetween
      · exact ne_returnLabel_of_isName (hnames g (by simp [hsplit, hg])) _ heq.symm
      · exact name_ne hnodup hsplit hg (returnLabel_inj heq)
      · exact ne_returnLabel_of_isName hname _ heq.symm
      · exact hlocal heq
      · exact hnumbered hbetween
    · rcases c.holding_body.grows.labelled _ hmem with heq | hbetween
      · exact hlocal heq
      · exact hnumbered hbetween
  obtain ⟨after, hlines⟩ := c.within
  rw [c.text_closing, ← htext] at hlines
  have hprog : lines = (e2.text.toList ++
      [.instr (.alu .xor .long (.reg (.long .rax)) (.reg (.long .rax)))]) ++
      .label (returnLabel f.routine.name) ::
        (closeFrame.map .instr ++ [.directive (.functionSize f.routine.name)] ++ after) := by
    rw [← hlines]
    simp [exitLines]
  rw [hprog, X86.landing_append hnew]
  simp

end Landing

end FileCode

end MiniC.Lower
