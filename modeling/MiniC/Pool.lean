/-!
# The constant pools

An instruction cannot carry a float or a string, so each such constant of a program is kept once in
the data section, under a label that says its number. Constants are numbered in the order in which
they are first met.

Both pools are one construction, `ConstantTable`: the constants with their labels, and an index from
keys to numbers by which a constant is found again. The key of a string is the string. Floats are
told apart by their bits, so `0.0` and `-0.0` are two constants. That list and index agree is part
of the type, so looking up a number never misses, and nothing has to be assumed of a pool.
-/

set_option autoImplicit false

namespace MiniC

/-- Constants with their labels, found by a key. A label is a mark and the number of the constant. -/
structure ConstantTable {α κ : Type} [DecidableEq κ] (key : α → κ) (mark : String) where
  /-- The constants with their labels, in the order in which they were first met. -/
  entries : List (α × String)
  /-- The number of the constant that has a key. -/
  index : List (κ × Nat)
  /-- The label of a constant says its number. -/
  label_eq : ∀ {i : Nat} {x : α} {label : String}, entries[i]? = some (x, label) →
    label = mark ++ toString i
  /-- The index has the key of each constant, with its number, and no other key. -/
  lookup_iff : ∀ {k : κ} {i : Nat}, index.lookup k = some i ↔
    ∃ entry, entries[i]? = some entry ∧ key entry.1 = k
deriving Repr

namespace ConstantTable

variable {α κ : Type} [DecidableEq κ] {key : α → κ} {mark : String}

/-- The table before any constant is met. -/
def empty : ConstantTable key mark where
  entries := []
  index := []
  label_eq := by simp
  lookup_iff := by simp

instance : Inhabited (ConstantTable key mark) := ⟨empty⟩

/-- The number of the constant that has a key. -/
def find? (t : ConstantTable key mark) (k : κ) : Option (Fin t.entries.length) :=
  match h : t.index.lookup k with
  | some i =>
    some ⟨i, (List.getElem?_eq_some_iff.mp (t.lookup_iff.mp h).choose_spec.1).1⟩
  | none => none

/-- The label of a constant, if it is in the table. -/
def label? (t : ConstantTable key mark) (x : α) : Option String :=
  (t.find? (key x)).map fun i => t.entries[i].2

theorem lookup_eq_none {t : ConstantTable key mark} {k : κ} (h : t.find? k = none) :
    t.index.lookup k = none := by
  unfold find? at h
  split at h
  · cases h
  · assumption

/-- The entries after an append: those that were there, and the last. -/
theorem getElem?_concat {xs : List α} {x y : α} {i : Nat} :
    (xs ++ [x])[i]? = some y ↔ xs[i]? = some y ∨ i = xs.length ∧ x = y := by
  rw [List.getElem?_append]
  grind

/-- Append a constant whose key is new, under the next number. -/
def push (t : ConstantTable key mark) (x : α) (hnew : t.find? (key x) = none) :
    ConstantTable key mark where
  entries := t.entries ++ [(x, mark ++ toString t.entries.length)]
  index := (key x, t.entries.length) :: t.index
  label_eq := by
    intro i y label h
    rcases getElem?_concat.mp h with hold | ⟨rfl, hlast⟩
    · exact t.label_eq hold
    · exact (Prod.mk.inj hlast).2.symm
  lookup_iff := by
    intro k i
    simp only [List.lookup_cons, getElem?_concat]
    by_cases hk : k = key x
    · -- the new key belongs to the last entry only
      have hother : ¬ ∃ entry, t.entries[i]? = some entry ∧ key entry.1 = k := by
        rw [← t.lookup_iff, hk, lookup_eq_none hnew]
        exact fun h => by cases h
      grind
    · have hold := t.lookup_iff (k := k) (i := i)
      grind

/-- The label of a constant, which is appended if its key is new. -/
def intern (t : ConstantTable key mark) (x : α) : String × ConstantTable key mark :=
  match h : t.find? (key x) with
  | some i => (t.entries[i].2, t)
  | none => (mark ++ toString t.entries.length, t.push x h)

end ConstantTable

/-- The float and string constants of a program. -/
structure Pool where
  floats : ConstantTable Float.toBits ".LF" := .empty
  strings : ConstantTable (id : String → String) ".LS" := .empty
deriving Repr, Inhabited

namespace Pool

/-- The label of a float constant, if it is in the pool. -/
def floatLabel? (p : Pool) (x : Float) : Option String := p.floats.label? x

/-- The label of a string constant, if it is in the pool. -/
def stringLabel? (p : Pool) (s : String) : Option String := p.strings.label? s

/-- The label of a float constant, and the pool with that constant in it. -/
def internFloat (p : Pool) (x : Float) : String × Pool :=
  let (label, floats) := p.floats.intern x
  (label, { p with floats })

/-- The label of a string constant, and the pool with that constant in it. -/
def internString (p : Pool) (s : String) : String × Pool :=
  let (label, strings) := p.strings.intern s
  (label, { p with strings })

end Pool

end MiniC
