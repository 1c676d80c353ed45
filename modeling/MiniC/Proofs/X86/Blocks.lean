import MiniC.Proofs.Emit.Holding
import MiniC.Proofs.X86.Machine

/-!
# Running blocks of code

Generated code is put together from blocks, and a block is left either at its end or by a jump to a
label that may stand anywhere. `Runs D c ls m Q` says that the block `ls`, run from the machine `m`,
is left in a way of which `Q` holds. It says so of the block wherever it stands, as long as no line
before it defines a label that is named from the counter `c` on: so a jump to a label of the block
lands in the block.

The rules below put blocks together: one after the other, up to a label that was jumped to, and around
a loop.
-/

set_option autoImplicit false

namespace MiniC.X86

open Emitter (Labelled)

/-! ### Steps -/

section Steps

variable {D : Layout} {before after : List Line} {m m' : Machine}

theorem reaches_instr {i : Instr} (h : i.run D m = some m') :
    Reaches D (before ++ .instr i :: after) (before.length, m) (before.length + 1, m') := by
  refine .single ?_
  -- a jump has no outcome of its own
  cases i <;> first | simp [Instr.run] at h; done | simp [step, h]

theorem reaches_instrs {is : List Instr} (h : runAll D is m = some m') :
    Reaches D (before ++ is.map Line.instr ++ after) (before.length, m)
      (before.length + is.length, m') := by
  induction is generalizing before m with
  | nil =>
    cases h
    exact .refl
  | cons i is ih =>
    obtain ⟨m1, hi, his⟩ := Option.bind_eq_some_iff.mp h
    have hfirst : Reaches D (before ++ .instr i :: (is.map Line.instr ++ after))
      (before.length, m) (before.length + 1, m1) := reaches_instr hi
    have hrest : Reaches D (before ++ [.instr i] ++ is.map Line.instr ++ after)
      ((before ++ [Line.instr i]).length, m1) ((before ++ [Line.instr i]).length + is.length, m') :=
      ih his
    simp only [List.append_assoc, List.cons_append, List.nil_append, List.length_append,
      List.length_singleton] at hrest
    have hend : before.length + (i :: is).length = before.length + 1 + is.length := by
      simp only [List.length_cons]
      omega
    rw [hend, List.map_cons, List.append_assoc, List.cons_append]
    exact hfirst.trans hrest

theorem reaches_label (name : String) :
    Reaches D (before ++ .label name :: after) (before.length, m) (before.length + 1, m) :=
  .single (by simp [step])

theorem reaches_jmp {target : String} {i : Nat}
    (h : landing (before ++ .instr (.jmp target) :: after) target = some i) :
    Reaches D (before ++ .instr (.jmp target) :: after) (before.length, m) (i, m) :=
  .single (by simp [step, h])

theorem reaches_jcc {c : Cond} {target : String} {f : Flags} {i : Nat} (hf : m.flags = some f)
    (hc : f.holds c = some true)
    (h : landing (before ++ .instr (.jcc c target) :: after) target = some i) :
    Reaches D (before ++ .instr (.jcc c target) :: after) (before.length, m) (i, m) :=
  .single (by simp [step, h, hf, hc])

theorem reaches_jcc_not {c : Cond} {target : String} {f : Flags} (hf : m.flags = some f)
    (hc : f.holds c = some false) :
    Reaches D (before ++ .instr (.jcc c target) :: after) (before.length, m)
      (before.length + 1, m) :=
  .single (by simp [step, hf, hc])

/-- A jump lands on a label that is defined nowhere before. -/
theorem landing_append {name : String} (h : Line.label name ∉ before) :
    landing (before ++ .label name :: after) name = some before.length := by
  have hbefore : before.findIdx? (Line.defines name) = none := by
    rw [List.findIdx?_eq_none_iff]
    intro l hl
    cases l with
    | label n =>
      have hne : n ≠ name := by
        rintro rfl
        exact h hl
      simp [Line.defines, hne]
    | _ => rfl
  simp [landing, List.findIdx?_append, hbefore, List.findIdx?_cons, Line.defines]

end Steps

/-! ### Blocks -/

/-- Lines that define no label which is named from a state of the counter on. -/
def Older (c : LabelCounter) (before : List Line) : Prop :=
  ∀ name, Line.label name ∈ before → ¬ c.From name

theorem Older.mono {c c' : LabelCounter} {before : List Line} (h : Older c before)
    (hc : ∀ k, c.peek k ≤ c'.peek k) : Older c' before :=
  fun name hmem hfrom => h name hmem (hfrom.mono hc)

theorem not_from_unorderedLabel (c : LabelCounter) : ¬ c.From Emit.unorderedLabel := by
  have hhead : Emit.unorderedLabel.toList = '1' :: [] := by decide
  exact LabelCounter.not_from_of_head hhead (by decide) c

/-- Lines with labels that were named in between are old afterwards. -/
theorem Older.append {c c' : LabelCounter} {before ls : List Line} (h : Older c before)
    (hls : Labelled c c' ls) (hc : ∀ k, c.peek k ≤ c'.peek k) : Older c' (before ++ ls) := by
  intro name hmem
  rcases List.mem_append.mp hmem with hmem | hmem
  · exact h.mono hc name hmem
  · rcases hls name hmem with rfl | hbetween
    · exact not_from_unorderedLabel c'
    · exact hbetween.not_from

/-- How a block is left. -/
inductive Exit where
  | next
  | jump (label : String)
deriving DecidableEq

/-- From its first line a block is left in a way: at its end, or where a jump lands. -/
def Leaves (D : Layout) (prog : List Line) (start stop : Nat) (m m' : Machine) : Exit → Prop
  | .next => Reaches D prog (start, m) (stop, m')
  | .jump l => ∀ i, landing prog l = some i → Reaches D prog (start, m) (i, m')

/-- Wherever a block stands, it is left in a way of which `Q` holds. -/
def Runs (D : Layout) (c : LabelCounter) (ls : List Line) (m : Machine)
    (Q : Exit → Machine → Prop) : Prop :=
  ∀ before after, Older c before → ∃ x m', Q x m' ∧
    Leaves D (before ++ ls ++ after) before.length (before.length + ls.length) m m' x

theorem Leaves.trans {D : Layout} {prog : List Line} {start mid stop : Nat} {m m1 m2 : Machine}
    {x : Exit} (h : Reaches D prog (start, m) (mid, m1)) (h' : Leaves D prog mid stop m1 m2 x) :
    Leaves D prog start stop m m2 x := by
  cases x with
  | next => exact h.trans h'
  | jump l => exact fun i hi => h.trans (h' i hi)

namespace Runs

variable {D : Layout} {c c' : LabelCounter} {ls ls' : List Line} {m m' : Machine}
  {Q Q' : Exit → Machine → Prop} {l : String}

theorem mono (h : Runs D c ls m Q) (himp : ∀ x m', Q x m' → Q' x m') : Runs D c ls m Q' := by
  intro before after hold
  obtain ⟨x, m', hQ, hleaves⟩ := h before after hold
  exact ⟨x, m', himp x m' hQ, hleaves⟩

/-- A block may stand among older labels than it asks for. -/
theorem older (h : Runs D c' ls m Q) (hc : ∀ k, c.peek k ≤ c'.peek k) : Runs D c ls m Q :=
  fun before after hold => h before after (hold.mono hc)

theorem nil (hQ : Q .next m) : Runs D c [] m Q := by
  intro before after _
  exact ⟨.next, m, hQ, .refl⟩

theorem instrs {is : List Instr} (h : runAll D is m = some m') (hQ : Q .next m') :
    Runs D c (is.map Line.instr) m Q := by
  intro before after _
  refine ⟨.next, m', hQ, ?_⟩
  show Reaches D _ (before.length, m) _
  rw [List.length_map]
  exact reaches_instrs h

theorem jmp (hQ : Q (.jump l) m) : Runs D c [.instr (.jmp l)] m Q := by
  intro before after _
  refine ⟨.jump l, m, hQ, fun i hi => ?_⟩
  rw [List.append_assoc] at hi ⊢
  exact reaches_jmp hi

theorem jcc {cond : Cond} {f : Flags} {b : Bool} (hf : m.flags = some f)
    (hb : f.holds cond = some b) (htaken : b = true → Q (.jump l) m)
    (hnot : b = false → Q .next m) : Runs D c [.instr (.jcc cond l)] m Q := by
  intro before after _
  cases b with
  | true =>
    refine ⟨.jump l, m, htaken rfl, fun i hi => ?_⟩
    rw [List.append_assoc] at hi ⊢
    exact reaches_jcc hf hb hi
  | false =>
    refine ⟨.next, m, hnot rfl, ?_⟩
    rw [List.append_assoc]
    exact reaches_jcc_not hf hb

/-- One block after another; a jump out of the first is a jump out of both. -/
theorem append (h : Runs D c ls m Q) (hls : Labelled c c' ls) (hc : ∀ k, c.peek k ≤ c'.peek k)
    (h' : ∀ m', Q .next m' → Runs D c' ls' m' Q') (hjump : ∀ l m', Q (.jump l) m' → Q' (.jump l) m') :
    Runs D c (ls ++ ls') m Q' := by
  intro before after hold
  obtain ⟨x, m1, hQ, hleaves⟩ := h before (ls' ++ after) hold
  rw [← List.append_assoc] at hleaves
  cases x with
  | jump l =>
    refine ⟨.jump l, m1, hjump l m1 hQ, ?_⟩
    rwa [← List.append_assoc]
  | next =>
    obtain ⟨x, m2, hQ', hleaves'⟩ := h' m1 hQ (before ++ ls) after (hold.append hls hc)
    refine ⟨x, m2, hQ', ?_⟩
    rw [List.length_append] at hleaves'
    rw [← List.append_assoc, List.length_append, ← Nat.add_assoc]
    exact Leaves.trans hleaves hleaves'

theorem upTo (h : Runs D c ls m Q) (hl : c.From l) (hnew : Line.label l ∉ ls)
    (hnext : ∀ m', Q .next m' → Q' .next m') (hland : ∀ m', Q (.jump l) m' → Q' .next m')
    (hjump : ∀ l' m', l' ≠ l → Q (.jump l') m' → Q' (.jump l') m') :
    Runs D c (ls ++ [.label l]) m Q' := by
  intro before after hold
  obtain ⟨x, m1, hQ, hleaves⟩ := h before (.label l :: after) hold
  have hprog : before ++ (ls ++ [.label l]) ++ after = before ++ ls ++ .label l :: after := by simp
  have hpast : Reaches D (before ++ ls ++ .label l :: after) (before.length + ls.length, m1)
      (before.length + (ls ++ [Line.label l]).length, m1) := by
    have hlabel : Reaches D (before ++ ls ++ .label l :: after) ((before ++ ls).length, m1)
      ((before ++ ls).length + 1, m1) := reaches_label l
    rw [List.length_append] at hlabel
    rwa [List.length_append, List.length_singleton, ← Nat.add_assoc]
  rw [hprog]
  cases x with
  | next => exact ⟨.next, m1, hnext m1 hQ, Relation.ReflTransGen.trans hleaves hpast⟩
  | jump l' =>
    by_cases heq : l' = l
    · subst heq
      -- the label stands in no line before this one
      have hmem : Line.label l' ∉ before ++ ls := by
        intro hmem
        rcases List.mem_append.mp hmem with hmem | hmem
        · exact hold l' hmem hl
        · exact hnew hmem
      have hlanding : landing (before ++ ls ++ .label l' :: after) l' = some (before ++ ls).length :=
        landing_append hmem
      rw [List.length_append] at hlanding
      exact ⟨.next, m1, hland m1 hQ, (hleaves _ hlanding).trans hpast⟩
    · exact ⟨.jump l', m1, hjump l' m1 heq hQ, hleaves⟩

/-- Around a loop, from the label before it to the label after it: a jump back runs it again. -/
theorem loop {start stop : String} (h : Runs D c' ls m Q) (hstart : c.Between c' start)
    (hstop : c.Between c' stop) (hne : start ≠ stop) (hnew : Line.label stop ∉ ls)
    (hc : ∀ k, c.peek k ≤ c'.peek k) (hnext : ∀ m', Q .next m' → Q' .next m')
    (hland : ∀ m', Q (.jump stop) m' → Q' .next m')
    (hback : ∀ m', Q (.jump start) m' → Runs D c (.label start :: (ls ++ [.label stop])) m' Q')
    (hjump : ∀ l m', l ≠ start → l ≠ stop → Q (.jump l) m' → Q' (.jump l) m') :
    Runs D c (.label start :: (ls ++ [.label stop])) m Q' := by
  intro before after hold
  have hlabelled : Labelled c c' [.label start] := by
    intro name hmem
    obtain rfl : name = start := by simpa using hmem
    exact .inr hstart
  obtain ⟨x, m1, hQ, hleaves⟩ :=
    h (before ++ [.label start]) (.label stop :: after) (hold.append hlabelled hc)
  -- one program, seen from each of its two labels
  have hprog : before ++ [.label start] ++ ls ++ .label stop :: after =
      before ++ .label start :: (ls ++ .label stop :: after) := by simp
  have hprog' : before ++ .label start :: (ls ++ [.label stop]) ++ after =
      before ++ .label start :: (ls ++ .label stop :: after) := by simp
  have hend : before.length + (Line.label start :: (ls ++ [.label stop])).length =
      (before ++ [Line.label start] ++ ls).length + 1 := by
    simp only [List.length_cons, List.length_append, List.length_nil]
    omega
  have hin : Reaches D (before ++ .label start :: (ls ++ .label stop :: after)) (before.length, m)
      ((before ++ [Line.label start]).length, m) := by
    rw [List.length_append]
    exact reaches_label start
  have hout : Reaches D (before ++ [.label start] ++ ls ++ .label stop :: after)
      ((before ++ [Line.label start] ++ ls).length, m1)
      ((before ++ [Line.label start] ++ ls).length + 1, m1) := reaches_label stop
  rw [hprog] at hleaves hout
  rw [hprog', hend]
  rw [← List.length_append] at hleaves
  cases x with
  | next => exact ⟨.next, m1, hnext m1 hQ, (hin.trans hleaves).trans hout⟩
  | jump l =>
    by_cases heq : l = start
    · subst heq
      have hlanding : landing (before ++ .label l :: (ls ++ .label stop :: after)) l =
          some before.length := landing_append fun hmem => hold l hmem hstart.from
      obtain ⟨x, m2, hQ', hleaves'⟩ := hback m1 hQ before after hold
      rw [hprog', hend] at hleaves'
      exact ⟨x, m2, hQ', Leaves.trans (hin.trans (hleaves _ hlanding)) hleaves'⟩
    by_cases heq' : l = stop
    · subst heq'
      have hmem : Line.label l ∉ before ++ [.label start] ++ ls := by
        intro hmem
        rcases List.mem_append.mp hmem with hmem | hmem
        · rcases List.mem_append.mp hmem with hmem | hmem
          · exact hold l hmem hstop.from
          · exact heq (by simpa using hmem)
        · exact hnew hmem
      have hlanding : landing (before ++ [.label start] ++ ls ++ .label l :: after) l =
          some (before ++ [Line.label start] ++ ls).length := landing_append hmem
      rw [hprog] at hlanding
      exact ⟨.next, m1, hland m1 hQ, (hin.trans (hleaves _ hlanding)).trans hout⟩
    · exact ⟨.jump l, m1, hjump l m1 heq heq' hQ, fun i hi => hin.trans (hleaves i hi)⟩

end Runs

end MiniC.X86
