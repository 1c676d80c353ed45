import MiniC.Label
import Mathlib

/-!
# Labels are told apart

A label of a construct says its kind, its number and its role, and they can be read off it again
(`controlLabel_inj`): the kinds have no digits, the number has nothing else, and an underscore ends
it. No such label is the label of a `return`. Since a counter gives out each number of a kind once,
labels that were named between two states of a counter differ from all that are named later
(`Between.not_from`).
-/

set_option autoImplicit false

namespace MiniC

/-- The kinds of constructs that have labels. -/
def constructs : List String := ["and", "or", "fcmp", "if", "while", "for"]

/-- The roles that labels have in constructs. -/
def roles : List String := ["short", "end", "true", "false", "then", "start"]

theorem toList_controlLabel (kind : String) (id : Nat) (role : String) :
    (controlLabel kind id role).toList =
      ['.', 'L'] ++ (kind.toList ++ (Nat.toDigits 10 id ++ '_' :: role.toList)) := by
  simp [controlLabel]

theorem toList_returnLabel (name : String) :
    (returnLabel name).toList = ['.', 'L'] ++ (name.toList ++ "_return".toList) := by
  simp [returnLabel]

/-- Two ways to split a list where its elements first have a property are one. -/
theorem append_cons_inj {α : Type} {p : α → Bool} {xs xs' ys ys' : List α} {y y' : α}
    (h : xs ++ y :: ys = xs' ++ y' :: ys') (hxs : ∀ x ∈ xs, p x = true)
    (hxs' : ∀ x ∈ xs', p x = true) (hy : p y = false) (hy' : p y' = false) :
    xs = xs' ∧ y :: ys = y' :: ys' := by
  have htake : ∀ (zs ws : List α) (w : α), (∀ z ∈ zs, p z = true) → p w = false →
      (zs ++ w :: ws).takeWhile p = zs := by
    intro zs ws w hzs hw
    rw [List.takeWhile_append_of_pos hzs, List.takeWhile_cons_of_neg (by simp [hw]),
      List.append_nil]
  have heq : xs = xs' := by
    rw [← htake xs ys y hxs hy, h, htake xs' ys' y' hxs' hy']
  subst heq
  exact ⟨rfl, List.append_cancel_left h⟩

theorem controlLabel_inj {kind kind' role role' : String} {id id' : Nat}
    (hk : kind ∈ constructs) (hk' : kind' ∈ constructs)
    (h : controlLabel kind id role = controlLabel kind' id' role') :
    kind = kind' ∧ id = id' ∧ role = role' := by
  have hlist := congrArg String.toList h
  rw [toList_controlLabel, toList_controlLabel] at hlist
  have hrest := List.append_cancel_left hlist
  have hletters : ∀ k ∈ constructs, ∀ c ∈ k.toList, (!c.isDigit) = true := by
    have hall : (constructs.all fun k => k.toList.all fun c => !c.isDigit) = true := by decide
    exact fun k hk => List.all_eq_true.mp (List.all_eq_true.mp hall k hk)
  obtain ⟨d, ds, hd⟩ := List.exists_cons_of_ne_nil (Nat.toDigits_ne_nil (n := id) (b := 10))
  obtain ⟨d', ds', hd'⟩ := List.exists_cons_of_ne_nil (Nat.toDigits_ne_nil (n := id') (b := 10))
  have hdigit : ∀ n, ∀ c ∈ Nat.toDigits 10 n, c.isDigit = true := fun n c hc =>
    Nat.isDigit_of_mem_toDigits (by decide) (by decide) hc
  -- the kind ends at the first digit, and the number at the underscore
  rw [hd, hd', List.cons_append, List.cons_append] at hrest
  have hfirst : d.isDigit = true := hdigit id d (by simp [hd])
  have hfirst' : d'.isDigit = true := hdigit id' d' (by simp [hd'])
  obtain ⟨hkind, hnumber⟩ := append_cons_inj hrest (hletters kind hk) (hletters kind' hk')
    (by simp [hfirst]) (by simp [hfirst'])
  rw [← List.cons_append, ← List.cons_append, ← hd, ← hd'] at hnumber
  obtain ⟨hid, hrole⟩ := append_cons_inj hnumber (hdigit id) (hdigit id') (by decide) (by decide)
  refine ⟨String.toList_injective hkind, ?_, String.toList_injective (List.cons.inj hrole).2⟩
  calc
    id = Nat.ofDigitChars 10 (Nat.toDigits 10 id) 0 := Nat.ofDigitChars_ten_toDigits.symm
    _ = Nat.ofDigitChars 10 (Nat.toDigits 10 id') 0 := by rw [hid]
    _ = id' := Nat.ofDigitChars_ten_toDigits

theorem labels_ne {kind : String} (hkind : kind ∈ constructs) (id : Nat) {role role' : String}
    (hrole : role ≠ role') : controlLabel kind id role ≠ controlLabel kind id role' :=
  fun heq => hrole (controlLabel_inj hkind hkind heq).2.2

theorem controlLabel_ne_returnLabel {role : String} (hr : role ∈ roles) (kind : String) (id : Nat)
    (name : String) : controlLabel kind id role ≠ returnLabel name := by
  intro h
  have hlist := congrArg (List.take 4 ∘ List.reverse ∘ String.toList) h
  simp only [Function.comp, toList_controlLabel, toList_returnLabel, List.reverse_append,
    List.reverse_cons, List.append_assoc] at hlist
  simp only [roles, List.mem_cons, List.not_mem_nil, or_false] at hr
  rcases hr with rfl | rfl | rfl | rfl | rfl | rfl <;> simp at hlist

theorem returnLabel_inj {name name' : String} (h : returnLabel name = returnLabel name') :
    name = name' := by
  have hlist := congrArg String.toList h
  rw [toList_returnLabel, toList_returnLabel] at hlist
  exact String.toList_injective (List.append_cancel_right (List.append_cancel_left hlist))

namespace LabelCounter

/-- The label of a construct that took its number between two states of the counter. -/
def Between (c c' : LabelCounter) (name : String) : Prop :=
  ∃ kind ∈ constructs, ∃ id, ∃ role ∈ roles,
    name = controlLabel kind id role ∧ c.peek kind ≤ id ∧ id < c'.peek kind

/-- The label of a construct that takes its number from a state of the counter on. -/
def From (c : LabelCounter) (name : String) : Prop :=
  ∃ kind ∈ constructs, ∃ id, ∃ role ∈ roles, name = controlLabel kind id role ∧ c.peek kind ≤ id

theorem lookup_bump (kind k : String) (counts : List (String × Nat)) :
    ((bump kind counts).lookup k).getD 0 =
      if k = kind then (counts.lookup k).getD 0 + 1 else (counts.lookup k).getD 0 := by
  induction counts with
  | nil =>
    by_cases h : k = kind
    · simp [bump, h, List.lookup]
    · simp [bump, h, List.lookup, beq_eq_false_iff_ne.mpr h]
  | cons p rest ih =>
    obtain ⟨k0, n⟩ := p
    by_cases hk : k0 = kind
    · subst hk
      by_cases h : k = k0
      · simp [bump, h, List.lookup]
      · simp [bump, h, List.lookup, beq_eq_false_iff_ne.mpr h]
    · simp only [bump, hk, if_false, List.lookup]
      by_cases h : k = k0
      · simp [h, hk]
      · simpa [beq_eq_false_iff_ne.mpr h] using ih

/-- Giving out a number raises the count of its kind by one and of no other. -/
theorem peek_next (c : LabelCounter) (kind k : String) :
    (c.next kind).2.peek k = if k = kind then c.peek k + 1 else c.peek k :=
  lookup_bump kind k c.counts

theorem peek_le_peek_next (c : LabelCounter) (kind k : String) :
    c.peek k ≤ (c.next kind).2.peek k := by
  rw [peek_next]
  split <;> omega

variable {c c' d d' : LabelCounter} {name : String}

theorem Between.mono (h : Between c c' name) (hd : ∀ k, d.peek k ≤ c.peek k)
    (hd' : ∀ k, c'.peek k ≤ d'.peek k) : Between d d' name := by
  obtain ⟨kind, hk, id, role, hr, rfl, hlo, hhi⟩ := h
  exact ⟨kind, hk, id, role, hr, rfl, Nat.le_trans (hd kind) hlo, Nat.lt_of_lt_of_le hhi (hd' kind)⟩

theorem From.mono (h : c.From name) (hd : ∀ k, d.peek k ≤ c.peek k) : d.From name := by
  obtain ⟨kind, hk, id, role, hr, rfl, hlo⟩ := h
  exact ⟨kind, hk, id, role, hr, rfl, Nat.le_trans (hd kind) hlo⟩

theorem Between.from (h : Between c c' name) : c.From name := by
  obtain ⟨kind, hk, id, role, hr, rfl, hlo, -⟩ := h
  exact ⟨kind, hk, id, role, hr, rfl, hlo⟩

theorem Between.not_from (h : Between c c' name) : ¬ c'.From name := by
  obtain ⟨kind, hk, id, role, -, rfl, -, hhi⟩ := h
  rintro ⟨kind', hk', id', role', -, heq, hlo⟩
  obtain ⟨rfl, rfl, -⟩ := controlLabel_inj hk hk' heq
  omega

theorem not_from_returnLabel (c : LabelCounter) (f : String) : ¬ c.From (returnLabel f) := by
  rintro ⟨kind, -, id, role, hr, heq, -⟩
  exact controlLabel_ne_returnLabel hr kind id f heq.symm

/-- A name that does not begin with a dot is no construct's. -/
theorem not_from_of_head {first : Char} {rest : List Char} (h : name.toList = first :: rest)
    (hf : first ≠ '.') (c : LabelCounter) : ¬ c.From name := by
  rintro ⟨kind, -, id, role, -, rfl, -⟩
  rw [toList_controlLabel, List.cons_append] at h
  exact hf (List.cons.inj h).1.symm

end LabelCounter

end MiniC
