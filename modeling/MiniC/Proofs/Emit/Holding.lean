import MiniC.Proofs.Emit.Linkage
import MiniC.Proofs.Emit.Transfer
import MiniC.Proofs.Label

/-!
# What generated code holds on to

`Holding cs n e e'` says how an emitter has grown from `e` to `e'`: lines were appended, exactly the
cells `cs` were taken in addition to those of `e`, and `n` more words lie on the stack. Each
operation moves such a fact one step on, so that the ownership of registers composes along a
sequence: what a subexpression holds is added at its end, and what an operation gives back is struck
off the list. The labels among the appended lines are counted along, because where a jump lands
depends on no label being defined twice.

`Outcome m s e ok fails` says how the operation `m` ends from `e`: with a result and a state of which
`ok` holds, or with an error of which `fails` holds.
-/

set_option autoImplicit false

namespace MiniC

namespace Emitter

open MiniC.Emit (Cell Reg)
open MiniC.X86 (Line Instr)

/-- The lines that may be appended between two states of the label counter: any that define no
label, the local label of float comparisons, and the labels numbered in between. -/
def Labelled (c c' : LabelCounter) (ls : List Line) : Prop :=
  ∀ name, Line.label name ∈ ls → name = Emit.unorderedLabel ∨ c.Between c' name

theorem Labelled.mono {c c' d d' : LabelCounter} {ls : List Line} (h : Labelled c c' ls)
    (hd : ∀ k, d.peek k ≤ c.peek k) (hd' : ∀ k, c'.peek k ≤ d'.peek k) : Labelled d d' ls :=
  fun name hmem => (h name hmem).imp_right fun hb => hb.mono hd hd'

theorem Labelled.append {c c' : LabelCounter} {ls ls' : List Line} (h : Labelled c c' ls)
    (h' : Labelled c c' ls') : Labelled c c' (ls ++ ls') := by
  intro name hmem
  rcases List.mem_append.mp hmem with hl | hl
  · exact h name hl
  · exact h' name hl

theorem labelled_instrs (c c' : LabelCounter) (is : List Instr) :
    Labelled c c' (is.map Line.instr) := by
  intro name hmem
  simp at hmem

/-- How an emitter has grown: by lines, by the cells `cs` and by `words` words of the stack. -/
structure Holding (cs : List Cell) (words : Nat) (e e' : Emitter) : Prop where
  text : ∃ ls : List Line, e'.text = e.text ++ ls.toArray ∧ Labelled e.labels e'.labels ls
  data : e'.data = e.data
  warnings : e'.warnings = e.warnings
  labels : ∀ k, e.labels.peek k ≤ e'.labels.peek k
  nodup : cs.Nodup
  fresh : ∀ c ∈ cs, ¬ e.Takes c
  takes : ∀ c, e'.Takes c ↔ c ∈ cs ∨ e.Takes c
  net : e'.net = e.net + cs.length
  pushed : e'.pushed = e.pushed + words

namespace Holding

variable {cs cs' : List Cell} {n n' : Nat} {e e' e'' : Emitter} {r : Reg}

theorem refl (e : Emitter) : Holding [] 0 e e where
  text := ⟨[], by simp, fun _ hmem => by simp at hmem⟩
  data := rfl
  warnings := rfl
  labels := fun _ => Nat.le_refl _
  nodup := List.nodup_nil
  fresh := by simp
  takes := by simp
  net := by simp
  pushed := rfl

theorem takes_of_mem (h : Holding cs n e e') {c : Cell} (hc : c ∈ cs) : e'.Takes c :=
  (h.takes c).mpr (Or.inl hc)

theorem takes_of_takes (h : Holding cs n e e') {c : Cell} (hc : e.Takes c) : e'.Takes c :=
  (h.takes c).mpr (Or.inr hc)

theorem trans (h : Holding cs n e e') (h' : Holding cs' n' e' e'') :
    Holding (cs' ++ cs) (n + n') e e'' where
  text := by
    obtain ⟨ls, htext, hlab⟩ := h.text
    obtain ⟨ls', htext', hlab'⟩ := h'.text
    refine ⟨ls ++ ls', by rw [htext', htext]; simp, ?_⟩
    exact (hlab.mono (fun _ => Nat.le_refl _) h'.labels).append
      (hlab'.mono h.labels fun _ => Nat.le_refl _)
  data := h'.data.trans h.data
  warnings := h'.warnings.trans h.warnings
  labels := fun k => Nat.le_trans (h.labels k) (h'.labels k)
  nodup := by
    refine List.nodup_append.mpr ⟨h'.nodup, h.nodup, ?_⟩
    rintro c hc' _ hc rfl
    exact h'.fresh c hc' (h.takes_of_mem hc)
  fresh := by
    intro c hc ht
    rcases List.mem_append.mp hc with hc | hc
    · exact h'.fresh c hc (h.takes_of_takes ht)
    · exact h.fresh c hc ht
  takes := by
    intro c
    rw [h'.takes, h.takes, List.mem_append, or_assoc]
  net := by
    rw [h'.net, h.net, List.length_append]
    push_cast
    omega
  pushed := by
    rw [h'.pushed, h.pushed, Nat.add_assoc]

theorem append (h : Holding cs n e e') {ls : List Line}
    (hls : Labelled e.labels e'.labels ls) : Holding cs n e (e'.append ls) where
  text := by
    obtain ⟨ls0, htext, hlab⟩ := h.text
    exact ⟨ls0 ++ ls, by rw [append_text, htext]; simp, hlab.append hls⟩
  data := h.data
  warnings := h.warnings
  labels := h.labels
  nodup := h.nodup
  fresh := h.fresh
  takes := h.takes
  net := h.net
  pushed := h.pushed

theorem emit (h : Holding cs n e e') (is : List Instr) : Holding cs n e (e'.emit is) :=
  h.append (labelled_instrs _ _ is)

theorem take (h : Holding cs n e e') {view : Scalar} (hf : e'.fresh? view = some r) :
    Holding (r.cell :: cs) n e (e'.take r) where
  text := h.text
  data := h.data
  warnings := h.warnings
  labels := h.labels
  nodup := List.nodup_cons.mpr ⟨fun hc => (of_fresh? hf).2.1 (h.takes_of_mem hc), h.nodup⟩
  fresh := by
    intro c hc ht
    rcases List.mem_cons.mp hc with rfl | hc
    · exact (of_fresh? hf).2.1 (h.takes_of_takes ht)
    · exact h.fresh c hc ht
  takes := by
    intro c
    rw [takes_take hf, h.takes, List.mem_cons, or_assoc]
  net := by
    rw [net_take, h.net, List.length_cons]
    push_cast
    omega
  pushed := h.pushed

theorem perm (h : Holding cs n e e') (hp : cs.Perm cs') : Holding cs' n e e' where
  text := h.text
  data := h.data
  warnings := h.warnings
  labels := h.labels
  nodup := hp.nodup_iff.mp h.nodup
  fresh := fun c hc => h.fresh c (hp.mem_iff.mpr hc)
  takes := fun c => by rw [h.takes, hp.mem_iff]
  net := by rw [h.net, hp.length_eq]
  pushed := h.pushed

theorem release (h : Holding (r.cell :: cs) n e e') : Holding cs n e (e'.release r) where
  text := h.text
  data := h.data
  warnings := h.warnings
  labels := h.labels
  nodup := (List.nodup_cons.mp h.nodup).2
  fresh := fun c hc => h.fresh c (List.mem_cons_of_mem _ hc)
  takes := by
    intro c
    have hnot : r.cell ∉ cs := (List.nodup_cons.mp h.nodup).1
    have hfree : ¬ e.Takes r.cell := h.fresh _ (by simp)
    rw [takes_release, h.takes, List.mem_cons]
    constructor
    · rintro ⟨hne, hc | hc⟩
      · exact Or.inl (hc.resolve_left hne)
      · exact Or.inr hc
    · rintro (hc | hc)
      · exact ⟨fun heq => hnot (heq ▸ hc), Or.inl (Or.inr hc)⟩
      · exact ⟨fun heq => hfree (heq ▸ hc), Or.inr hc⟩
  net := by
    rw [net_release, h.net, List.length_cons]
    push_cast
    omega
  pushed := h.pushed

theorem release_second {r' : Reg} (h : Holding (r'.cell :: r.cell :: cs) n e e') :
    Holding (r'.cell :: cs) n e (e'.release r) :=
  (h.perm (List.Perm.swap ..)).release

theorem withPushed (h : Holding cs n e e') (n' : Nat) :
    Holding cs n' e (e'.withPushed (e.pushed + n')) where
  text := h.text
  data := h.data
  warnings := h.warnings
  labels := h.labels
  nodup := h.nodup
  fresh := h.fresh
  takes := h.takes
  net := h.net
  pushed := rfl

theorem next (h : Holding cs n e e') (kind : String) :
    Holding cs n e { e' with labels := (e'.labels.next kind).2 } where
  text := by
    obtain ⟨ls, htext, hlab⟩ := h.text
    exact ⟨ls, htext, hlab.mono (fun _ => Nat.le_refl _) fun k =>
      LabelCounter.peek_le_peek_next _ kind k⟩
  data := h.data
  warnings := h.warnings
  labels := fun k => Nat.le_trans (h.labels k) (LabelCounter.peek_le_peek_next _ kind k)
  nodup := h.nodup
  fresh := h.fresh
  takes := h.takes
  net := h.net
  pushed := h.pushed

end Holding

end Emitter

end MiniC
