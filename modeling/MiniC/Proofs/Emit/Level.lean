import MiniC.Proofs.Emit.Growth
import MiniC.Proofs.Emit.Quiet

/-!
# The stack and the places of generated code

The emitter counts the words that its code has pushed. `Moved` says that the count is right between two
states: what was added takes the stack from the one count to the other. It also says that what was added keeps
to bounds: it names no other places, and leaves alone what is to be left alone. `Level` says in addition that
the count is the same again, as it is after every expression and every statement.
-/

set_option autoImplicit false

namespace MiniC

namespace Emit

open MiniC.X86 (Line Instr Sparing)

/-- Lines that keep to bounds. -/
structure Bounds.Keeps (B : Bounds) (ls : List Line) : Prop where
  confined : ∀ l ∈ ls, l.Confined B.places
  sparing : Sparing B.Live ls

section Keeps

variable {B : Bounds}

theorem Bounds.Keeps.append {ls ls' : List Line} (h : B.Keeps ls) (h' : B.Keeps ls') : B.Keeps (ls ++ ls') :=
  ⟨List.forall_mem_append.mpr ⟨h.confined, h'.confined⟩, h.sparing.append h'.sparing⟩

theorem keeps_instrs {is : List Instr} (h : ∀ i ∈ is, ∀ p ∈ i.places, B.places.Has p.1 p.2)
    (hdest : ∀ i ∈ is, ∀ p ∈ i.destinations, ¬ B.Live p) : B.Keeps (is.map .instr) := by
  refine ⟨fun l hl => ?_, X86.sparing_of_forall fun i hi => ?_⟩
  · obtain ⟨i, hi, rfl⟩ := List.mem_map.mp hl
    exact h i hi
  · obtain ⟨_, hi, heq⟩ := List.mem_map.mp hi
    cases heq
    exact hdest i hi

theorem keeps_nil : B.Keeps [] := @keeps_instrs B [] (by simp) (by simp)

theorem keeps_label (name : String) : B.Keeps [.label name] :=
  ⟨List.forall_mem_singleton.mpr trivial, X86.sparing_of_forall fun i hi => by simp at hi⟩

theorem keeps_jump {l : Line} {target : String} (h : l.jump? = some target) : B.Keeps [l] := by
  have hjump : ∃ i : Instr, l = .instr i ∧ i.places = [] ∧ i.destinations = [] := by
    cases l with
    | instr i => cases i <;> first | exact ⟨_, rfl, rfl, rfl⟩ | cases h
    | _ => cases h
  obtain ⟨i, rfl, hplaces, hdest⟩ := hjump
  exact @keeps_instrs B [i] (by simp [hplaces]) (by simp [hdest])

end Keeps

end Emit

namespace Emitter

open MiniC.X86 (Line Instr Moves labelNames)
open MiniC.Emit (Bounds)

/-- What was added moves the stack as it is counted, defines no label twice and keeps to bounds. -/
structure Moved (B : Bounds) (outside : String → Prop) (e e' : Emitter) : Prop where
  grows : Grows e e'
  unique : (labelNames (added e e')).Nodup
  moves : Moves outside (8 * e.pushed) (8 * e'.pushed) (added e e')
  keeps : B.Keeps (added e e')

/-- What was added leaves the stack where it was. -/
structure Level (B : Bounds) (outside : String → Prop) (e e' : Emitter) : Prop extends Moved B outside e e' where
  pushed : e'.pushed = e.pushed

variable {B : Bounds} {outside outside' : String → Prop} {e e1 e2 e' : Emitter} {name : String}

theorem Moved.mono (h : Moved B outside e e') (himp : ∀ l, outside l → outside' l) :
    Moved B outside' e e' :=
  ⟨h.grows, h.unique, h.moves.mono himp, h.keeps⟩

theorem Moved.trans (h : Moved B outside e e1) (h' : Moved B outside' e1 e2)
    (hlow : min e.pushed e2.pushed ≤ e1.pushed) (hout : ∀ l, outside' l → outside l ∧ e1.pushed = e.pushed) :
    Moved B outside e e2 := by
  have hadded := added_trans h.grows h'.grows
  refine ⟨h.grows.trans h'.grows, ?_, ?_, hadded ▸ h.keeps.append h'.keeps⟩
  · rw [hadded, X86.labelNames_append]
    refine List.nodup_append.mpr ⟨h.unique, h'.unique, ?_⟩
    -- a label of the first stretch has a number that was given out before the second
    rintro name hfirst _ hsecond rfl
    obtain ⟨hmem, hne⟩ := X86.mem_labelNames.1 hfirst
    have hbetween := (h.grows.labelled name hmem).resolve_left hne
    exact h'.grows.label_notMem hbetween (X86.mem_labelNames.1 hsecond).1
  · rw [hadded]
    refine h.moves.append h'.moves (by omega) fun l ho => ?_
    obtain ⟨ho, hpushed⟩ := hout l ho
    exact ⟨ho, by rw [hpushed]⟩

theorem Level.mono (h : Level B outside e e') (himp : ∀ l, outside l → outside' l) :
    Level B outside' e e' :=
  ⟨h.toMoved.mono himp, h.pushed⟩

theorem Level.trans (h : Level B outside e e1) (h' : Level B outside e1 e2) : Level B outside e e2 :=
  ⟨h.toMoved.trans h'.toMoved (h.pushed ▸ Nat.min_le_left _ _) fun _ ho => ⟨ho, h.pushed⟩, h'.pushed.trans h.pushed⟩

theorem moved_of_emit {is : List Instr}
    (h : Moves outside (8 * e.pushed) (8 * e'.pushed) (is.map .instr)) (hkeeps : B.Keeps (is.map .instr))
    (htext : e'.text = (e.emit is).text) (hlabels : e'.labels = e.labels) : Moved B outside e e' := by
  have hadded : added e e' = is.map .instr := added_of_text htext
  refine ⟨.of_emit htext hlabels, ?_, hadded ▸ h, hadded ▸ hkeeps⟩
  rw [hadded, X86.labelNames_instrs]
  exact List.nodup_nil

theorem level_of_text_eq (htext : e'.text = e.text)
    (hlabels : ∀ k, e.labels.peek k ≤ e'.labels.peek k) (hpushed : e'.pushed = e.pushed)
    (outside : String → Prop) : Level B outside e e' := by
  have hadded : added e e' = [] := added_of_text_eq htext
  refine ⟨⟨⟨?_, ?_, hlabels⟩, ?_, ?_, hadded ▸ Emit.keeps_nil⟩, hpushed⟩
  · rw [hadded, htext, List.append_nil]
  · rw [hadded]
    exact labelled_instrs _ _ []
  · rw [hadded]
    exact List.nodup_nil
  · rw [hadded, hpushed]
    exact .nil _ _

theorem Level.refl (outside : String → Prop) (e : Emitter) : Level B outside e e :=
  level_of_text_eq rfl (fun _ => Nat.le_refl _) rfl outside

theorem level_jump {l : Line} (hjump : l.jump? = some name) (ho : outside name)
    (hne : name ≠ Emit.unorderedTarget) (e : Emitter) : Level B outside e (e.append [l]) := by
  have hadded : added e (e.append [l]) = [l] := added_of_text rfl
  have hnone : ∀ n, l ≠ .label n := by
    rintro n rfl
    cases hjump
  refine ⟨⟨⟨?_, ?_, fun _ => Nat.le_refl _⟩, ?_, ?_, ?_⟩, rfl⟩
  · rw [hadded, append_text, Array.toList_append]
  · rw [hadded]
    intro n hmem
    exact absurd (List.mem_singleton.mp hmem).symm (hnone n)
  · rw [hadded]
    cases l with
    | label n => exact absurd rfl (hnone n)
    | _ => exact List.nodup_nil
  · rw [hadded]
    exact .jump hjump ho hne _
  · rw [hadded]
    exact Emit.keeps_jump hjump

theorem ne_unorderedLabel {c c' : LabelCounter} (h : c.Between c' name) : name ≠ Emit.unorderedLabel := by
  rintro rfl
  exact X86.not_from_unorderedLabel _ h.from

/-- A label with a number is not how the local one is named. -/
theorem ne_unorderedTarget {c c' : LabelCounter} (h : c.Between c' name) :
    name ≠ Emit.unorderedTarget := by
  rintro rfl
  have hhead : Emit.unorderedTarget.toList = ['1', 'f'] := by decide
  exact LabelCounter.not_from_of_head hhead (by decide) _ h.from

/-- A label that was numbered in between has been defined, where the stack is as at the start. -/
theorem Level.label (h : Level B (fun l => outside l ∨ l = name) e e') (hname : Pending e e' name) :
    Level B outside e (e'.append [.label name]) := by
  have hadded : added e (e'.append [.label name]) = added e e' ++ [.label name] := by
    apply added_of_text
    apply Array.ext'
    simp [h.grows.text]
  have hne := ne_unorderedLabel hname.named
  refine ⟨⟨h.grows.label hname.named, ?_, ?_, hadded ▸ h.keeps.append (Emit.keeps_label name)⟩, h.pushed⟩
  · rw [hadded, X86.labelNames_append, X86.labelNames_single hne]
    refine List.nodup_append.mpr ⟨h.unique, List.pairwise_singleton _ _, ?_⟩
    rintro n hn _ hn' rfl
    obtain rfl := List.mem_singleton.mp hn'
    exact hname.undefined (X86.mem_labelNames.1 hn).1
  · have hmoves := h.moves
    rw [h.pushed] at hmoves
    rw [hadded, append_pushed, h.pushed]
    exact hmoves.upTo hne

theorem Level.loop (h : Level B (fun l => outside l ∨ l = name) e1 e')
    (htext : e1.text = (e.append [.label name]).text) (hname : e.labels.Between e1.labels name)
    (hlabels : ∀ k, e.labels.peek k ≤ e1.labels.peek k) (hpushed : e1.pushed = e.pushed) :
    Level B outside e e' := by
  have hfirst : added e e1 = [.label name] := added_of_text htext
  have hgrows : Grows e e1 := by
    refine ⟨?_, ?_, hlabels⟩
    · rw [hfirst, htext, append_text, Array.toList_append]
    · rw [hfirst]
      intro n hn
      obtain rfl : n = name := by simpa using hn
      exact .inr hname
  have hadded := added_trans hgrows h.grows
  rw [hfirst] at hadded
  have hne := ne_unorderedLabel hname
  refine ⟨⟨hgrows.trans h.grows, ?_, ?_, hadded ▸ (Emit.keeps_label name).append h.keeps⟩, h.pushed.trans hpushed⟩
  · rw [hadded, X86.labelNames_append, X86.labelNames_single hne]
    refine List.nodup_append.mpr ⟨List.pairwise_singleton _ _, h.unique, ?_⟩
    rintro n hn _ hn' rfl
    obtain rfl := List.mem_singleton.mp hn
    exact h.grows.label_notMem hname (X86.mem_labelNames.1 hn').1
  · have hmoves := h.moves
    rw [hpushed] at hmoves
    rw [hadded]
    have hmoves := (Moves.label _ _ name).append hmoves (Int.min_le_left _ _) fun l ho => ⟨ho, rfl⟩
    exact hmoves.resolve hne fun frame base => List.mem_cons_self

end Emitter

namespace Emit

open MiniC.X86 (Gpr Register Operand Instr Moves)
open MiniC.Emitter (Level Moved)

/-- An operation that leaves the stack where it was and keeps to bounds, and whose results have a property. -/
def Levels {α : Type} (B : Bounds) (outside : String → Prop) (m : Emit α) (P : α → Prop) : Prop :=
  ∀ ⦃s e a e'⦄, B.Suit s e → exec m s e = (.ok a, e') → P a ∧ B.Suit s e' ∧ Level B outside e e'

/-- Such an operation whose result does not matter. -/
abbrev Steady {α : Type} (B : Bounds) (outside : String → Prop) (m : Emit α) : Prop :=
  Levels B outside m fun _ => True

section Rules

variable {α β : Type} {B : Bounds} {m : Emit α} {f : α → Emit β} {P : α → Prop} {Q : β → Prop}
  {outside : String → Prop}

theorem Quiet.levels (h : Quiet B m P) : Levels B outside m P := by
  intro s e a e' hB hexec
  obtain ⟨ha, hB', is, his, htext, hlabels, hpushed⟩ := h hB hexec
  have hkeeps := keeps_instrs (fun i hi => (his i hi).places) fun i hi => (his i hi).destinations
  refine ⟨ha, hB', Emitter.moved_of_emit ?_ hkeeps htext hlabels, hpushed⟩
  rw [hpushed]
  exact .quiet (fun i hi => (his i hi).quiet) _ _

theorem Levels.bind (h : Levels B outside m P) (hf : ∀ a, P a → Levels B outside (f a) Q) :
    Levels B outside (m >>= f) Q := by
  intro s e b e' hB hexec
  obtain ⟨a, e1, h1, h2⟩ := exec_bind_eq_ok hexec
  obtain ⟨ha, hB1, hfirst⟩ := h hB h1
  obtain ⟨hb, hB', hsecond⟩ := hf a ha hB1 h2
  exact ⟨hb, hB', hfirst.trans hsecond⟩

/-- Operations one after the other, where the first one's result is of no interest. -/
theorem Levels.andThen (h : Levels B outside m P) (hf : ∀ a, Levels B outside (f a) Q) :
    Levels B outside (m >>= f) Q :=
  h.bind fun a _ => hf a

theorem levels_pure {a : α} (h : P a) : Levels B outside (pure a) P := (quiet_pure h).levels

theorem steady_pure (a : α) : Steady B outside (pure a : Emit α) := levels_pure trivial

theorem levels_throw (x : Error) : Levels B outside (throw x : Emit α) P := (quiet_throw x).levels

end Rules

/-! ### Jumps -/

section Jumps

variable {B : Bounds} {outside : String → Prop} {target : String} (ho : outside target)
  (hne : target ≠ unorderedTarget)
include ho hne

theorem steady_jump : Steady B outside (jump target) := by
  intro s e a e' hB hexec
  rw [exec_jump] at hexec
  cases hexec
  exact ⟨trivial, ⟨hB.taken, hB.pool⟩, Emitter.level_jump rfl ho hne e⟩

theorem steady_jcc (c : X86.Cond) : Steady B outside (instr (.jcc c target)) := by
  intro s e a e' hB hexec
  rw [exec_instr] at hexec
  cases hexec
  exact ⟨trivial, ⟨hB.taken, hB.pool⟩, Emitter.level_jump rfl ho hne e⟩

theorem moves_unordered (c : X86.Cond) (a : Int) :
    Moves outside a a [.instr (.jcc .p unorderedTarget), .instr (.jcc c target), .label unorderedLabel] where
  track _ _ := rfl
  jumps frame base l d target' hmem hjump hne' := by
    simp only [X86.trace, X86.Line.track, X86.track_jcc, Option.map_some, Option.getD_some, List.mem_cons,
      Prod.mk.injEq, List.not_mem_nil, or_false] at hmem
    rcases hmem with ⟨rfl, rfl⟩ | ⟨rfl, rfl⟩ | ⟨rfl, rfl⟩
    · cases hjump
      exact absurd rfl hne'
    · cases hjump
      exact .inr ⟨ho, rfl⟩
    · cases hjump
  calls frame base name d _ hmem := by
    simp [X86.trace, X86.Line.track] at hmem
  low frame base l d hmem := by
    simp only [X86.trace, X86.Line.track, X86.track_jcc, Option.map_some, Option.getD_some, List.mem_cons,
      Prod.mk.injEq, List.not_mem_nil, or_false] at hmem
    rcases hmem with ⟨rfl, rfl⟩ | ⟨rfl, rfl⟩ | ⟨rfl, rfl⟩ <;> exact ⟨rfl, by rw [min_self]⟩
  unordered i l hl hjump := by
    rcases i with _ | _ | _ | i
    · exact ⟨⟨_, _, rfl, rfl⟩, rfl⟩
    · cases hl
      cases hjump
      exact absurd rfl hne
    · cases hl
      cases hjump
    · cases hl

theorem steady_floatJump (relation : Relation) : Steady B outside (floatJump relation target) := by
  cases relation with
  | eq =>
    intro s e a e' hB hexec
    rw [exec_floatJump] at hexec
    cases hexec
    have hadded : Emitter.added e (e.append (floatJumpCode .eq target)) = floatJumpCode .eq target :=
      Emitter.added_of_text rfl
    refine ⟨trivial, ⟨hB.taken, hB.pool⟩, ⟨⟨?_, ?_, fun _ => Nat.le_refl _⟩, ?_, ?_, ?_⟩, rfl⟩
    · rw [hadded, Emitter.append_text, Array.toList_append]
    · rw [hadded]
      intro name hname
      exact .inl (by simpa [floatJumpCode] using hname)
    · rw [hadded]
      exact List.nodup_nil
    · rw [hadded]
      exact moves_unordered ho hne .e _
    · rw [hadded]
      exact (keeps_jump rfl).append ((keeps_jump rfl).append (keeps_label _))
  | ne => exact (steady_jcc ho hne .ne).andThen fun _ => steady_jcc ho hne .p
  | _ => exact steady_jcc ho hne _

theorem steady_compareAndJump (relation : Relation) (l r : Reg) [B.Owns l] [B.Owns r] :
    Steady B outside (compareAndJump relation l r target) := by
  have hfrees : Steady B outside (do free l; free r) := ((quiet_free l).andThen fun _ => quiet_free r).levels
  refine (quiet_sameView _ l r).levels.andThen fun _ => ?_
  dsimp only
  split
  · refine (quiet_compareFloats l r relation).levels.andThen fun asked => ?_
    exact (steady_floatJump ho hne asked).andThen fun _ => hfrees
  · refine (quiet_compareIntegers l r).levels.andThen fun _ => ?_
    exact (steady_jcc ho hne _).andThen fun _ => hfrees

theorem steady_testAndJump (relation : Relation) (r : Reg) [B.Owns r] :
    Steady B outside (testAndJump relation r target) := by
  refine (quiet_check r).levels.andThen fun _ => ?_
  split
  · exact (quiet_testFloat r).levels.andThen fun _ => steady_floatJump ho hne relation
  · refine (quiet_quad r).levels.bind fun _ hq => (quiet_into rfl rfl hq.open hq).levels.andThen fun _ => ?_
    exact (quiet_free r).levels.andThen fun _ => steady_jcc ho hne _

end Jumps

/-! ### Calls -/

section Calls

variable (outside : String → Prop) (a : Int)

theorem moves_cons {b c : Int} {i : Instr} {is : List Instr} (h : Moves outside a b [.instr i])
    (h' : Moves (fun _ => False) b c (is.map .instr)) (hlow : min a c ≤ b) :
    Moves outside a c ((i :: is).map .instr) :=
  h.append h' hlow fun _ => False.elim

theorem moves_append {b c : Int} {is js : List Instr} (h : Moves outside a b (is.map .instr))
    (h' : Moves (fun _ => False) b c (js.map .instr)) (hlow : min a c ≤ b) :
    Moves outside a c ((is ++ js).map .instr) := by
  rw [List.map_append]
  exact h.append h' hlow fun _ => False.elim

theorem moves_growStack {n : Nat} (hn : n < 2 ^ 31) :
    Moves outside a (a + n) [.instr (.alu .sub .quad (.imm (Int64.ofNat n)) (.quad .rsp))] := by
  refine .shift rfl nofun fun frame base => ?_
  show some _ = _
  rw [Int64.toInt_ofNat_of_lt (by omega), Int.add_assoc]

theorem moves_shrinkStack {n : Nat} (hn : n < 2 ^ 31) :
    Moves outside (a + n) a [.instr (.alu .add .quad (.imm (Int64.ofNat n)) (.quad .rsp))] := by
  refine .shift rfl nofun fun frame base => ?_
  show some _ = _
  rw [Int64.toInt_ofNat_of_lt (by omega), ← Int.add_assoc, Int.add_sub_cancel]

theorem moves_quiet {i : Instr} (h : i.isQuiet = true) : Moves outside a a [.instr i] :=
  .quiet (List.forall_mem_singleton.mpr h) outside a

theorem moves_pushFloat (r : Reg) : Moves outside a (a + 8) ((pushFloatCode r).map .instr) := by
  refine moves_cons outside a (moves_growStack outside a ?_) (moves_quiet _ (a + 8) rfl) (by omega)
  decide

theorem moves_popTop (i : Fin 16) :
    Moves outside (a + 8) a ((popTargetCode (.xmm i)).map .instr) := by
  refine moves_cons outside (a + 8) (moves_quiet outside (a + 8) rfl) (moves_shrinkStack _ a ?_) (by omega)
  decide

theorem moves_popFloat {r : Reg} (hv : r.view = .float) :
    Moves outside (a + 8) a ((popFloatCode r).map .instr) := by
  rw [popFloatCode, register_of_float hv]
  exact moves_popTop outside a r.xmm

theorem add_eight_mul_succ (n : Nat) : a + 8 * ((n + 1 : Nat) : Int) = a + 8 + 8 * n := by omega

theorem moves_pushFloats (rs : List Reg) :
    Moves outside a (a + 8 * rs.length) ((rs.flatMap pushFloatCode).map .instr) := by
  induction rs generalizing outside a with
  | nil => simpa using Moves.nil outside a
  | cons r rs ih =>
    rw [List.length_cons, add_eight_mul_succ]
    exact moves_append outside a (moves_pushFloat outside a r) (ih _ (a + 8)) (by omega)

theorem moves_popFloats {rs : List Reg} (h : ∀ r ∈ rs, r.view = .float) :
    Moves outside (a + 8 * rs.length) a ((popFloatsCode rs).map .instr) := by
  induction rs generalizing a with
  | nil => simpa [popFloatsCode] using Moves.nil outside a
  | cons r rs ih =>
    have hrest := ih (a + 8) fun r' hr' => h r' (List.mem_cons_of_mem _ hr')
    have hcode : popFloatsCode (r :: rs) = popFloatsCode rs ++ popFloatCode r := by simp [popFloatsCode]
    rw [hcode, List.length_cons, add_eight_mul_succ]
    exact moves_append _ _ hrest (moves_popFloat _ a (h r List.mem_cons_self)) (by omega)

/-- The call comes where the stack is aligned, if it was at the frame. -/
theorem moves_callCode (e : Emitter) (name : String) :
    Moves outside (8 * e.pushed) (8 * e.pushed) ((callCode e name).map .instr) := by
  have hfloats : ∀ r ∈ e.bank.val.live .float, r.view = .float := fun r hr => (takes_of_mem_live hr).2
  have hpush := moves_pushFloats outside (8 * e.pushed) (e.bank.val.live .float)
  have hpop := moves_popFloats (fun _ => False) (8 * e.pushed) hfloats
  generalize hn : (e.bank.val.live .float).length = n at hpush hpop
  have hpadding : callPadding e = (e.pushed + n) * 8 % 16 := by rw [callPadding, hn, wordBytes, stackAlign]
  have hlt : callPadding e < 2 ^ 31 := by omega
  have haligned : (16 : Int) ∣ 8 * e.pushed + 8 * n + callPadding e := by omega
  have hcall := Moves.call (fun _ => False) name haligned
  unfold callCode
  dsimp only
  by_cases h0 : callPadding e = 0
  · simp only [h0, ne_eq, not_true_eq_false, if_false, List.append_nil]
    rw [h0, Int.natCast_zero, Int.add_zero] at hcall
    exact moves_append _ _ (moves_append _ _ hpush hcall (by omega)) hpop (by omega)
  · simp only [ne_eq, h0, not_false_eq_true, if_true]
    have hgrow := moves_growStack (fun _ => False) (8 * e.pushed + 8 * n) hlt
    have hshrink := moves_shrinkStack (fun _ => False) (8 * e.pushed + 8 * n) hlt
    refine moves_append _ _ (moves_append _ _ (moves_append _ _ ?_ hcall ?_) hshrink ?_) hpop ?_
    · exact moves_append _ _ hpush hgrow (by omega)
    all_goals omega

variable {r : Reg} {s : Setting} {e e' : Emitter}

theorem takes_of_check {u : Unit} (h : exec (check r) s e = (.ok u, e')) : e.Takes r.cell := by
  simp only [check, exec_bind, exec_get] at h
  cases hcheck : e.bank.val.check r with
  | error x =>
    rw [hcheck] at h
    cases h
  | ok _ => exact takes_of_checked hcheck

theorem moves_popTarget {target : Register} (h : (Operand.reg target).isFree = true) :
    Moves outside (a + 8) a ((popTargetCode target).map .instr) := by
  cases target with
  | xmm i => exact moves_popTop outside a i
  | gpr g w =>
    refine .shift rfl nofun fun frame base => ?_
    show (if _ then _ else _) = _
    rw [if_pos h, ← Int.add_assoc, Int.add_sub_cancel]

theorem moves_popTargets {targets : List Register} (h : ∀ t ∈ targets, (Operand.reg t).isFree = true) :
    Moves outside (a + 8 * targets.length) a ((popTargetsCode targets).map .instr) := by
  induction targets generalizing a with
  | nil => simpa [popTargetsCode] using Moves.nil outside a
  | cons t ts ih =>
    have hrest := ih (a + 8) fun t' ht' => h t' (List.mem_cons_of_mem _ ht')
    have hcode : popTargetsCode (t :: ts) = popTargetsCode ts ++ popTargetCode t := by
      simp [popTargetsCode]
    rw [hcode, List.length_cons, add_eight_mul_succ]
    exact moves_append _ _ hrest (moves_popTarget _ a (h t List.mem_cons_self)) (by omega)

theorem isFree_of_assignArguments {views : List Scalar} {targets : List Register}
    (h : assignArguments views = .ok targets) : ∀ t ∈ targets, (Operand.reg t).isFree = true := by
  intro t ht
  rcases mem_of_assignFrom h t ht with ⟨g, hg, rfl⟩ | ⟨x, -, rfl⟩
  · have hall : ∀ g ∈ argumentGprs, (Operand.reg (.quad g)).isFree = true := by decide
    exact hall g hg
  · rfl

end Calls

end Emit

end MiniC
