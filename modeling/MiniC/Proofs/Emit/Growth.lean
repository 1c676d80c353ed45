import MiniC.Proofs.Emit.Running

/-!
# Running what was appended

An emitter grows: the code of a construct is what its text has gained between two states. `added e e'`
are these lines, and `Executes D e e' m Q` runs them from a machine `m`. As states follow one another,
so do the lines, and an induction over the source can go from state to state and leave the positions of
lines to the rules for blocks.

Registers that are taken hold values that the code between has to leave alone. `Guards` are these
registers with those that the bank does not give out, and `Keeps` says that none of them has changed.
-/

set_option autoImplicit false

namespace MiniC

namespace Emitter

open MiniC.Emit (Cell Reg scratch valueGprs)
open MiniC.X86 (Line Instr Gpr Machine)

/-- The lines that the text has gained between two states. -/
def added (e e' : Emitter) : List Line := e'.text.toList.drop e.text.size

/-- One state grows into another: lines were appended, and their labels are numbered in between. -/
structure Grows (e e' : Emitter) : Prop where
  text : e'.text.toList = e.text.toList ++ added e e'
  labelled : Labelled e.labels e'.labels (added e e')
  labels : ∀ k, e.labels.peek k ≤ e'.labels.peek k

variable {e e1 e2 e' : Emitter} {ls : List Line} {cs : List Cell} {n : Nat}

theorem added_of_text (h : e'.text = e.text ++ ls.toArray) : added e e' = ls := by
  rw [added, h, Array.toList_append, ← Array.length_toList, List.drop_left]

theorem added_of_text_eq (h : e'.text = e.text) : added e e' = [] := by
  apply added_of_text
  simpa using h

theorem Holding.grows (h : Holding cs n e e') : Grows e e' := by
  obtain ⟨ls, htext, hlab⟩ := h.text
  have hadded := added_of_text htext
  exact ⟨by rw [hadded, htext, Array.toList_append], hadded ▸ hlab, h.labels⟩

theorem Grows.of_emit {is : List Instr} (htext : e'.text = (e.emit is).text)
    (hlabels : e'.labels = e.labels) : Grows e e' := by
  have hadded := added_of_text htext
  refine ⟨?_, hadded ▸ labelled_instrs _ _ is, fun k => Nat.le_of_eq (by rw [hlabels])⟩
  rw [hadded, htext, emit_text, Array.toList_append]

/-- A label that was numbered before is not defined again. -/
theorem Grows.label_notMem {c : LabelCounter} {name : String} (h : Grows e e')
    (hname : c.Between e.labels name) : Line.label name ∉ added e e' := by
  intro hmem
  rcases h.labelled name hmem with rfl | hbetween
  · exact X86.not_from_unorderedLabel c hname.from
  · exact hname.not_from hbetween.from

theorem added_trans (h : Grows e e1) (h' : Grows e1 e2) :
    added e e2 = added e e1 ++ added e1 e2 := by
  apply added_of_text
  apply Array.ext'
  rw [h'.text, h.text, Array.toList_append, List.append_assoc]

theorem Grows.trans (h : Grows e e1) (h' : Grows e1 e2) : Grows e e2 := by
  have hadded := added_trans h h'
  refine ⟨by rw [hadded, h'.text, h.text, List.append_assoc], ?_, fun k =>
    Nat.le_trans (h.labels k) (h'.labels k)⟩
  rw [hadded]
  exact (h.labelled.mono (fun _ => Nat.le_refl _) h'.labels).append
    (h'.labelled.mono h.labels fun _ => Nat.le_refl _)

theorem Grows.refl (e : Emitter) : Grows e e := (Holding.refl e).grows

theorem Grows.emit (h : Grows e e') (is : List Instr) : Grows e (e'.emit is) :=
  h.trans (.of_emit rfl rfl)

/-- A label that was numbered in between has been defined. -/
theorem Grows.label {name : String} (h : Grows e e') (hname : e.labels.Between e'.labels name) :
    Grows e (e'.append [.label name]) := by
  have hadded : added e (e'.append [.label name]) = added e e' ++ [.label name] := by
    apply added_of_text
    apply Array.ext'
    simp [h.text]
  refine ⟨by rw [hadded]; simp [h.text], ?_, h.labels⟩
  rw [hadded]
  refine h.labelled.append fun l hl => ?_
  obtain rfl : l = name := by simpa using hl
  exact .inr hname

theorem Grows.release (h : Grows e e') (r : Reg) : Grows e (e'.release r) :=
  ⟨h.text, h.labelled, h.labels⟩

/-! ### Labels to come -/

/-- A label has been given its number since a state, and no line defines it yet. -/
structure Pending (e e' : Emitter) (name : String) : Prop where
  grows : Grows e e'
  named : e.labels.Between e'.labels name
  undefined : Line.label name ∉ added e e'

namespace Pending

variable {name name' : String}

theorem step (h : Pending e e1 name) (hg : Grows e1 e2) : Pending e e2 name := by
  refine ⟨h.grows.trans hg, h.named.mono (fun _ => Nat.le_refl _) hg.labels, fun hmem => ?_⟩
  rw [added_trans h.grows hg] at hmem
  rcases List.mem_append.mp hmem with hmem | hmem
  · exact h.undefined hmem
  · exact hg.label_notMem h.named hmem

theorem label (h : Pending e e1 name) (h' : Pending e e1 name') (hne : name ≠ name') :
    Pending e (e1.append [.label name']) name := by
  refine ⟨h.grows.label h'.named, h.named, fun hmem => ?_⟩
  have hadded : added e (e1.append [.label name']) = added e e1 ++ [.label name'] := by
    apply added_of_text
    apply Array.ext'
    simp [h.grows.text]
  rw [hadded] at hmem
  rcases List.mem_append.mp hmem with hmem | hmem
  · exact h.undefined hmem
  · exact hne (by simpa using hmem)

end Pending

/-! ### Registers that are kept -/

/-- Registers that generated code leaves alone: the taken ones of the bank, and those outside it
except for the scratch registers. -/
def Guards (e : Emitter) (g : Gpr) : Prop :=
  g ∉ scratch ∧ ∀ slot, valueGprs[slot]? = some g → e.Takes (.general slot)

theorem guards_rbp (e : Emitter) : e.Guards .rbp := by
  refine ⟨by decide, fun slot hslot => ?_⟩
  exact absurd (List.mem_of_getElem? hslot) (by decide)

theorem Guards.mono {g : Gpr} (h : e.Guards g) (htakes : ∀ c, e.Takes c → e'.Takes c) :
    e'.Guards g :=
  ⟨h.1, fun slot hslot => htakes _ (h.2 slot hslot)⟩

variable {r : Reg}

/-- A register that holds an integer is kept while it is taken. -/
theorem guards_of_takes (h : e.Takes r.cell) (hv : r.view.isInteger = true) : e.Guards r.gpr := by
  refine ⟨r.gpr_not_mem.1, fun slot hslot => ?_⟩
  have hreg := Emit.valueGprs_getElem? h
  -- no register of the bank has two slots
  have hnodup : valueGprs.Nodup := by decide
  have hlt : slot < valueGprs.length := (List.getElem?_eq_some_iff.mp hslot).1
  have hsame : slot = r.slot := (List.getElem?_inj hlt hnodup).mp (hslot.trans hreg.symm)
  rwa [Reg.cell_eq_of_isInteger hv, ← hsame] at h

/-- A register that is free and holds an integer next is not kept. -/
theorem not_guards_of_not_takes (h : ¬ e.Takes r.cell) (h' : e'.Takes r.cell)
    (hv : r.view.isInteger = true) : ¬ e.Guards r.gpr := by
  intro hg
  have hreg := Emit.valueGprs_getElem? h'
  rw [Reg.cell_eq_of_isInteger hv] at h
  exact h (hg.2 _ hreg)

/-- No register that is to be kept has changed. -/
def Keeps (e : Emitter) (m m' : Machine) : Prop := ∀ g, e.Guards g → m'.regs g = m.regs g

theorem Keeps.refl (e : Emitter) (m : Machine) : Keeps e m m := fun _ _ => rfl

theorem Keeps.trans {m m1 m2 : Machine} (h : Keeps e m m1) (h' : Keeps e1 m1 m2)
    (htakes : ∀ c, e.Takes c → e1.Takes c) : Keeps e m m2 :=
  fun g hg => (h' g (hg.mono htakes)).trans (h g hg)

theorem Keeps.mono {m m' : Machine} (h : Keeps e1 m m') (htakes : ∀ c, e.Takes c → e1.Takes c) :
    Keeps e m m' :=
  fun g hg => h g (hg.mono htakes)

theorem Keeps.base {m m' : Machine} (h : Keeps e m m') : m'.regs .rbp = m.regs .rbp :=
  h _ e.guards_rbp

/-- A word in a register that is not to be kept changes no other one. -/
theorem keeps_of_into {m m' : Machine} {g : Gpr} {v : BitVec 64} (h : Emit.Into m g v m')
    (hg : ¬ e.Guards g) : Keeps e m m' := by
  intro g' hg'
  have hne : g' ≠ g := by
    rintro rfl
    exact hg hg'
  exact h.others g' hne hg'.1

end Emitter

namespace Emit

open MiniC.X86 (Gpr Instr Line Machine Layout Memory Exit Runs runAll)
open MiniC.Emitter (Grows added Keeps Pending)

/-! ### From state to state -/

/-- What was appended between two states, run from a machine, is left in a way of which `Q` holds. -/
def Executes (D : Layout) (e e' : Emitter) (m : Machine) (Q : Exit → Machine → Prop) : Prop :=
  Runs D e.labels (added e e') m Q

/-- The way out at the end. -/
def Falls (P : Machine → Prop) (x : Exit) (m : Machine) : Prop := x = .next ∧ P m

/-- A jump that is taken, or else the way out at the end. -/
def Turns (taken : Bool) (target : String) (P : Machine → Prop) (x : Exit) (m : Machine) : Prop :=
  x = (if taken then .jump target else .next) ∧ P m

theorem Turns.of_next {taken : Bool} {target : String} {P : Machine → Prop} {m : Machine}
    (h : Turns taken target P .next m) : taken = false ∧ P m := by
  obtain ⟨hx, hP⟩ := h
  cases taken with
  | true => cases hx
  | false => exact ⟨rfl, hP⟩

theorem Turns.of_jump {taken : Bool} {target l : String} {P : Machine → Prop} {m : Machine}
    (h : Turns taken target P (.jump l) m) : taken = true ∧ l = target ∧ P m := by
  obtain ⟨hx, hP⟩ := h
  cases taken with
  | true =>
    cases hx
    exact ⟨rfl, rfl, hP⟩
  | false => cases hx

namespace Executes

variable {D : Layout} {e e1 e2 e' : Emitter} {m m' : Machine} {P P' : Machine → Prop}
  {Q Q' : Exit → Machine → Prop} {is : List Instr}

theorem mono (h : Executes D e e' m Q) (himp : ∀ x m', Q x m' → Q' x m') : Executes D e e' m Q' :=
  Runs.mono h himp

theorem trans (h : Executes D e e1 m Q) (hg : Grows e e1) (hg' : Grows e1 e2)
    (h' : ∀ m', Q .next m' → Executes D e1 e2 m' Q')
    (hjump : ∀ l m', Q (.jump l) m' → Q' (.jump l) m') : Executes D e e2 m Q' := by
  rw [Executes, Emitter.added_trans hg hg']
  exact Runs.append h hg.labelled hg.labels h' hjump

theorem andThen (h : Executes D e e1 m (Falls P)) (hg : Grows e e1) (hg' : Grows e1 e2)
    (h' : ∀ m', P m' → Executes D e1 e2 m' Q) : Executes D e e2 m Q :=
  h.trans hg hg' (fun m' hQ => h' m' hQ.2) fun _ _ hQ => nomatch hQ.1

/-- Code from a state that has only taken numbers for labels. -/
theorem numbered (h : Executes D e1 e' m Q) (htext : e1.text = e.text)
    (hlabels : ∀ k, e.labels.peek k ≤ e1.labels.peek k) : Executes D e e' m Q := by
  have hadded : added e e' = added e1 e' := by rw [added, added, htext]
  rw [Executes, hadded]
  exact Runs.older h hlabels

/-- Instructions that do not jump. The states differ in their text by them, and may differ in the
registers that are taken. -/
theorem instrs (htext : e'.text = (e.emit is).text)
    (h : ∃ m', runAll D is m = some m' ∧ P m') : Executes D e e' m (Falls P) := by
  obtain ⟨m', hrun, hP⟩ := h
  rw [Executes, Emitter.added_of_text htext]
  exact Runs.instrs hrun ⟨rfl, hP⟩

/-- Instructions that do not jump, after code that is left at its end. -/
theorem thenInstrs (h : Executes D e e1 m (Falls P)) (hg : Grows e e1)
    (htext : e'.text = (e1.emit is).text) (hlabels : e'.labels = e1.labels)
    (h' : ∀ m', P m' → ∃ m'', runAll D is m' = some m'' ∧ P' m'') :
    Executes D e e' m (Falls P') :=
  h.andThen hg (.of_emit htext hlabels) fun m' hP => .instrs htext (h' m' hP)

theorem jcc {cond : X86.Cond} {target : String} {f : X86.Flags} {b : Bool}
    (hrun : runAll D is m = some m') (hf : m'.flags = some f) (hb : f.holds cond = some b)
    (hP : P m') (htext : e'.text = (e.emit (is ++ [.jcc cond target])).text) : Executes D e e' m (Turns b target P) := by
  rw [Executes, Emitter.added_of_text htext, List.map_append]
  refine Runs.append (Runs.instrs hrun (Q := Falls (· = m')) ⟨rfl, rfl⟩)
    (Emitter.labelled_instrs _ e.labels is) (fun _ => Nat.le_refl _) ?_ (fun _ _ hQ => nomatch hQ.1)
  rintro m1 ⟨-, rfl⟩
  refine Runs.jcc hf hb ?_ ?_
  · rintro rfl
    exact ⟨rfl, hP⟩
  · rintro rfl
    exact ⟨rfl, hP⟩

theorem thenJump {target : String} (h : Executes D e e1 m Q) (hg : Grows e e1)
    (hnext : ∀ m', Q .next m' → Q' (.jump target) m')
    (hjump : ∀ l m', Q (.jump l) m' → Q' (.jump l) m') :
    Executes D e (e1.emit [.jmp target]) m Q' := by
  refine h.trans hg (.of_emit rfl rfl) (fun m' hQ => ?_) hjump
  rw [Executes, Emitter.added_of_text rfl]
  exact Runs.jmp (hnext m' hQ)

/-- Up to a label that the code before may have jumped to. -/
theorem upTo {l : String} (h : Executes D e e1 m Q) (hl : Pending e e1 l)
    (hnext : ∀ m', Q .next m' → Q' .next m') (hland : ∀ m', Q (.jump l) m' → Q' .next m')
    (hjump : ∀ l' m', l' ≠ l → Q (.jump l') m' → Q' (.jump l') m') :
    Executes D e (e1.append [.label l]) m Q' := by
  have hadded : added e (e1.append [.label l]) = added e e1 ++ [.label l] := by
    apply Emitter.added_of_text
    apply Array.ext'
    simp [hl.grows.text]
  rw [Executes, hadded]
  exact Runs.upTo h hl.named.from hl.undefined hnext hland hjump

/-- The code of a loop, between a label that it jumps back to and one that it jumps out to. -/
theorem loop {start stop : String} (h : Executes D e1 e2 m Q) (hg : Grows e1 e2)
    (htext : e1.text = (e.append [.label start]).text) (hstart : e.labels.Between e1.labels start)
    (hstop : e.labels.Between e1.labels stop) (hne : start ≠ stop)
    (hlabels : ∀ k, e.labels.peek k ≤ e1.labels.peek k) (hnext : ∀ m', Q .next m' → Q' .next m')
    (hland : ∀ m', Q (.jump stop) m' → Q' .next m')
    (hback : ∀ m', Q (.jump start) m' → Executes D e (e2.append [.label stop]) m' Q')
    (hjump : ∀ l m', l ≠ start → l ≠ stop → Q (.jump l) m' → Q' (.jump l) m') :
    Executes D e (e2.append [.label stop]) m Q' := by
  have hadded : added e (e2.append [.label stop]) =
      .label start :: (added e1 e2 ++ [.label stop]) := by
    apply Emitter.added_of_text
    apply Array.ext'
    simp [hg.text, htext]
  rw [Executes, hadded]
  refine Runs.loop h hstart hstop hne (hg.label_notMem hstop) hlabels hnext hland (fun m' hQ => ?_) hjump
  have hagain := hback m' hQ
  rwa [Executes, hadded] at hagain

end Executes

/-- A number for labels has been taken, which no label before has. -/
theorem of_freshId {s : Setting} {e e' : Emitter} {kind : String} {id : Nat}
    (h : exec (freshId kind) s e = (.ok id, e')) (hkind : kind ∈ constructs) :
    e'.text = e.text ∧ Emitter.Holding [] 0 e e' ∧
      ∀ role ∈ roles, Pending e e' (controlLabel kind id role) := by
  rw [exec_freshId] at h
  cases h
  have hholding := (Emitter.Holding.refl e).next kind
  refine ⟨rfl, hholding, fun role hrole => ⟨hholding.grows, ?_, ?_⟩⟩
  · refine ⟨kind, hkind, _, role, hrole, rfl, Nat.le_refl _, ?_⟩
    show _ < (e.labels.next kind).2.peek kind
    rw [LabelCounter.peek_next, if_pos rfl]
    omega
  · have hnone : added e { e with labels := (e.labels.next kind).2 } = [] :=
      Emitter.added_of_text_eq rfl
    rw [hnone]
    simp

section Jumps

variable {D : Layout} {s : Setting} {e e' : Emitter} {r l : Reg} {m : Machine}
  {target : String}

theorem executes_testAndJump {relation : Relation} (hrel : relation = .eq ∨ relation = .ne)
    (ht : e.Takes r.cell) (hv : r.view ≠ .float)
    (h : exec (testAndJump relation r target) s e = (.ok (), e')) {a : Int} (hfits : X86.Fits a)
    (ha : m.regs r.gpr = BitVec.ofInt 64 a) :
    Executes D e e' m (Turns (relation.holds a 0) target fun m' =>
      m'.regs = m.regs ∧ m'.mem = m.mem) := by
  rw [exec_testAndJump ht hv] at h
  cases h
  refine .jcc (X86.runAll_single (run_test ha)) rfl (X86.holds_ofBits_self hfits hrel) ⟨rfl, rfl⟩
    (Array.ext' ?_)
  simp

theorem executes_compareAndJump {relation : Relation} (hl : e.Takes l.cell) (hr : e.Takes r.cell)
    (hne : l.cell ≠ r.cell) (hsame : l.view = r.view) (hv : l.view ≠ .float)
    (h : exec (compareAndJump relation l r target) s e = (.ok (), e')) {a b : Int}
    (hfa : X86.Fits a) (hfb : X86.Fits b) (ha : m.regs l.gpr = BitVec.ofInt 64 a)
    (hb : m.regs r.gpr = BitVec.ofInt 64 b) :
    Executes D e e' m (Turns (relation.holds a b) target fun m' =>
      m'.regs = m.regs ∧ m'.mem = m.mem) := by
  rw [exec_compareAndJump hl hr hne, if_pos hsame, if_neg hv] at h
  cases h
  exact .jcc (X86.runAll_single (run_compare ha hb)) rfl (X86.holds_ofSub hfa hfb relation)
    ⟨rfl, rfl⟩ rfl

end Jumps

end Emit

end MiniC
