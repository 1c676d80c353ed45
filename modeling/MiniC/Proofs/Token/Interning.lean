import MiniC.Proofs.Token.Offsets

/-!
# The pools are exact

A pool of constants is filled in the order in which they are first met, and a constant that is there
already is not added again: floats are told apart by their bits, strings by their characters. On the
constants without their labels this is an append of what is new (`internBy`, `foldl_internBy`).

A `ConstantTable` keeps labels and an index beside the constants. `Extends` says what becomes of it
when more constants are met: the entries that were there stay as they are, the new constants follow
under the next numbers, and a constant is found under the label of the entry that has its key. One
`intern` keeps to this, and so does a list of them (`extends_foldl`).

`Scanner.Run` is the loop of scanning, one step after the other up to the end of the text or the
first fault. It keeps the tokens that were produced before a fault, which the outcome of `tokenize`
does not. Over a run both tables meet the constants of these tokens, and no others.
-/

set_option autoImplicit false

namespace MiniC

/-! ### Constants without labels -/

section Keys

variable {α β : Type} [DecidableEq β] (key : α → β)

/-- Whether a list has an entry with the key of a value. -/
def knows (xs : List α) (x : α) : Bool := xs.any fun y => key y == key x

/-- Append a value unless an entry has its key. -/
def internBy (xs : List α) (x : α) : List α := if knows key xs x then xs else xs ++ [x]

/-- The values whose keys no entry has, in order of first appearance. -/
def newBy (xs ys : List α) : List α :=
  (ys.filter fun y => !knows key xs y).eraseDupsBy fun x y => key x == key y

variable {key} {xs ys : List α} {x y : α}

theorem knows_iff : knows key xs x = true ↔ ∃ y ∈ xs, key y = key x := by
  simp [knows]

/-- Meeting values one after the other appends those that are new. -/
theorem foldl_internBy (xs ys : List α) :
    ys.foldl (internBy key) xs = xs ++ newBy key xs ys := by
  induction ys generalizing xs with
  | nil => simp [newBy]
  | cons y ys ih =>
    rw [List.foldl_cons, ih, internBy]
    cases hy : knows key xs y with
    | true => simp [newBy, hy]
    | false =>
      -- a later value is new if it is new to the old entries and to the one just added
      have hlater : (ys.filter fun z => !knows key (xs ++ [y]) z) =
          (ys.filter fun z => !knows key xs z).filter fun z =>
            decide ((key z == key y) = false) := by
        rw [List.filter_filter]
        refine List.filter_congr fun z _ => ?_
        by_cases hz : key y = key z
        · simp [knows, hz]
        · simp [knows, hz, Ne.symm hz]
      rw [if_neg Bool.false_ne_true, newBy, newBy, hlater, List.filter_cons_of_pos (by simp [hy]),
        List.eraseDupsBy_cons, List.append_assoc, List.singleton_append]

end Keys

/-! ### Tables -/

/-- What follows a mark is a number, which can be read off again. -/
theorem mark_toString_inj {mark : String} {i j : Nat}
    (h : mark ++ toString i = mark ++ toString j) : i = j := by
  have hlist := congrArg String.toList h
  rw [String.toList_append, String.toList_append] at hlist
  exact Nat.repr_inj.mp (String.toList_injective (List.append_cancel_left hlist))

namespace ConstantTable

variable {α κ : Type} [DecidableEq κ] {key : α → κ} {mark : String}

/-- The constants without their labels. -/
def values (t : ConstantTable key mark) : List α := t.entries.map Prod.fst

/-- The labels without their constants. -/
def labels (t : ConstantTable key mark) : List String := t.entries.map Prod.snd

/-- The table in which a constant has been met. -/
def add (t : ConstantTable key mark) (x : α) : ConstantTable key mark := (t.intern x).2

variable {t u : ConstantTable key mark} {x : α} {l : String}

/-- The index leads to the entry that has the key. -/
theorem find?_eq_some_iff {k : κ} {i : Fin t.entries.length} :
    t.find? k = some i ↔ key (t.entries.get i).1 = k := by
  have hlookup : t.index.lookup k = some i.val ↔ key (t.entries.get i).1 = k := by
    rw [t.lookup_iff]
    simp
  rw [← hlookup]
  unfold find?
  split
  next j hj => simp [hj, Fin.ext_iff]
  next hj => simp [hj]

theorem label?_eq_some_iff :
    t.label? x = some l ↔ ∃ (i : Nat) (y : α), t.entries[i]? = some (y, l) ∧ key y = key x := by
  unfold label?
  rw [Option.map_eq_some_iff]
  constructor
  · rintro ⟨i, hfind, rfl⟩
    exact ⟨i, t.entries[i].1, by simp, find?_eq_some_iff.mp hfind⟩
  · rintro ⟨i, y, hentry, hkey⟩
    obtain ⟨hi, hentry⟩ := List.getElem?_eq_some_iff.mp hentry
    exact ⟨⟨i, hi⟩, find?_eq_some_iff.mpr (by simpa [hentry] using hkey), by simp [hentry]⟩

theorem mem_labels (h : t.label? x = some l) : l ∈ t.labels := by
  obtain ⟨i, y, hentry, -⟩ := label?_eq_some_iff.mp h
  exact List.mem_map_of_mem (f := Prod.snd) (List.mem_of_getElem? hentry)

/-- A constant has a label if its key is known. -/
theorem isSome_label? (t : ConstantTable key mark) (x : α) :
    (t.label? x).isSome = knows key t.values x := by
  rw [Bool.eq_iff_iff, Option.isSome_iff_exists, knows_iff]
  simp only [label?_eq_some_iff, values, List.mem_map]
  constructor
  · rintro ⟨l, i, y, hentry, hkey⟩
    exact ⟨y, ⟨(y, l), List.mem_of_getElem? hentry, rfl⟩, hkey⟩
  · rintro ⟨_, ⟨⟨y, l⟩, hmem, rfl⟩, hkey⟩
    obtain ⟨i, hentry⟩ := List.getElem?_of_mem hmem
    exact ⟨l, i, y, hentry, hkey⟩

theorem label?_eq_none_iff : t.label? x = none ↔ ∀ y ∈ t.values, key y ≠ key x := by
  rw [← Option.not_isSome_iff_eq_none, isSome_label?, knows_iff]
  simp

/-- The labels are the numbers behind the mark. -/
theorem labels_eq (t : ConstantTable key mark) :
    t.labels = (List.range t.entries.length).map fun i => mark ++ toString i := by
  refine List.ext_getElem (by simp [labels]) fun i hi _ => ?_
  have hentry := t.label_eq (List.getElem?_eq_getElem (i := i) (by simpa [labels] using hi))
  simpa [labels] using hentry

/-- Labels tell entries apart, since they say the number of the entry. -/
theorem labels_nodup (t : ConstantTable key mark) : t.labels.Nodup := by
  rw [labels_eq]
  exact List.nodup_range.map fun _ _ => mark_toString_inj

theorem eq_of_mem_labels (h : l ∈ t.labels) : ∃ i : Nat, l = mark ++ toString i := by
  rw [labels_eq] at h
  obtain ⟨i, -, rfl⟩ := List.mem_map.mp h
  exact ⟨i, rfl⟩

/-- A constant whose key is there leaves the table as it is, and another is appended. -/
theorem entries_add (t : ConstantTable key mark) (x : α) :
    (t.add x).entries =
      if knows key t.values x then t.entries
      else t.entries ++ [(x, mark ++ toString t.entries.length)] := by
  have hknows : knows key t.values x = (t.find? (key x)).isSome := by
    rw [← isSome_label?, label?, Option.isSome_map]
  rw [hknows]
  unfold add intern
  split
  next i hi => rw [hi, Option.isSome_some, if_pos rfl]
  next hi => simp only [hi, Option.isSome_none, Bool.false_eq_true, if_false, push]

theorem values_add (t : ConstantTable key mark) (x : α) :
    (t.add x).values = internBy key t.values x := by
  rw [values, entries_add, internBy]
  split
  · rfl
  · exact List.map_append

theorem prefix_add (t : ConstantTable key mark) (x : α) : t.entries <+: (t.add x).entries := by
  rw [entries_add]
  split
  · exact List.prefix_rfl
  · exact List.prefix_append _ _

/-- The label that interning gives is the one that the constant has from then on. -/
theorem label?_add (t : ConstantTable key mark) (x : α) :
    (t.add x).label? x = some (t.intern x).1 := by
  rw [label?_eq_some_iff]
  unfold add intern
  split
  next i hi => exact ⟨i, t.entries[i].1, by simp, find?_eq_some_iff.mp hi⟩
  next hi => exact ⟨t.entries.length, x, by simp [push], rfl⟩

/-- Entries that are appended leave the labels of the others alone. -/
theorem label?_of_prefix (h : t.entries <+: u.entries) (hl : t.label? x = some l) :
    u.label? x = some l := by
  obtain ⟨i, y, hentry, hkey⟩ := label?_eq_some_iff.mp hl
  obtain ⟨more, hmore⟩ := h
  refine label?_eq_some_iff.mpr ⟨i, y, ?_, hkey⟩
  rw [← hmore, List.getElem?_append_left (List.getElem?_eq_some_iff.mp hentry).1, hentry]

/-- A table after more constants have been met. -/
structure Extends (t : ConstantTable key mark) (met : List α) (u : ConstantTable key mark) :
    Prop where
  /-- Entries that were there stay, with their labels. -/
  entries : t.entries <+: u.entries
  /-- Behind them are the constants that are new, in order of first appearance. -/
  values : u.values = t.values ++ newBy key t.values met
  /-- The label of an entry says its number. -/
  numbered : ∀ (i : Nat) (y : α) (l : String), u.entries[i]? = some (y, l) →
    l = mark ++ toString i
  /-- A constant is found under the label of the entry that has its key. -/
  found : ∀ (x : α) (l : String), u.label? x = some l ↔
    ∃ (i : Nat) (y : α), u.entries[i]? = some (y, l) ∧ key y = key x
  /-- A constant has no label if no entry has its key. -/
  missing : ∀ x : α, u.label? x = none ↔ ∀ y ∈ u.values, key y ≠ key x
  /-- A constant that was found is found under the same label. -/
  kept : ∀ (x : α) (l : String), t.label? x = some l → u.label? x = some l
  /-- No two entries have one label. -/
  distinct : u.labels.Nodup

/-- Meeting constants one after the other extends a table by them. -/
theorem extends_foldl (t : ConstantTable key mark) (met : List α) :
    t.Extends met (met.foldl add t) := by
  have hsteps : t.entries <+: (met.foldl add t).entries ∧
      (met.foldl add t).values = met.foldl (internBy key) t.values := by
    induction met generalizing t with
    | nil => exact ⟨List.prefix_rfl, rfl⟩
    | cons x met ih =>
      obtain ⟨hkept, hvalues⟩ := ih (t.add x)
      rw [values_add] at hvalues
      exact ⟨(t.prefix_add x).trans hkept, hvalues⟩
  obtain ⟨hkept, hvalues⟩ := hsteps
  rw [foldl_internBy] at hvalues
  exact ⟨hkept, hvalues, fun _ _ _ h => (met.foldl add t).label_eq h,
    fun _ _ => label?_eq_some_iff, fun _ => label?_eq_none_iff,
    fun _ _ => label?_of_prefix hkept, labels_nodup _⟩

end ConstantTable

/-! ### Scanning -/

namespace TokenKind

/-- The constant of a float literal. -/
def float? : TokenKind → Option Float
  | floatLit x => some x
  | _ => none

/-- The constant of a string literal. -/
def string? : TokenKind → Option String
  | stringLit s => some s
  | _ => none

end TokenKind

namespace Scanner

/-- Scanning, step by step: the tokens that were produced, the fault that ended the run if one did, and the
pool at its end. -/
inductive Run : Scanner → List Token → Option LexError → Pool → Prop
  | finish {s s' : Scanner} {t : Token} : s.next = (.ok t, s') → t.kind = .endOfFile → Run s [t] none s'.pool
  | fault {s s' : Scanner} {e : LexError} : s.next = (.error e, s') → Run s [] (some e) s'.pool
  | token {s s' : Scanner} {t : Token} {ts : List Token} {e : Option LexError} {p : Pool} :
    s.next = (.ok t, s') → t.kind ≠ .endOfFile → Run s' ts e p → Run s (t :: ts) e p

theorem Run.unique {s : Scanner} {ts ts' : List Token} {e e' : Option LexError} {p p' : Pool}
    (h : s.Run ts e p) (h' : s.Run ts' e' p') : ts = ts' ∧ e = e' ∧ p = p' := by
  induction h generalizing ts' with
  | finish hnext hkind =>
    cases h' with
    | finish hnext' => cases hnext.symm.trans hnext'; exact ⟨rfl, rfl, rfl⟩
    | fault hnext' => cases hnext.symm.trans hnext'
    | token hnext' hkind' => cases hnext.symm.trans hnext'; exact absurd hkind hkind'
  | fault hnext =>
    cases h' with
    | finish hnext' => cases hnext.symm.trans hnext'
    | fault hnext' => cases hnext.symm.trans hnext'; exact ⟨rfl, rfl, rfl⟩
    | token hnext' => cases hnext.symm.trans hnext'
  | token hnext hkind _ ih =>
    cases h' with
    | finish hnext' hkind' => cases hnext.symm.trans hnext'; exact absurd hkind' hkind
    | fault hnext' => cases hnext.symm.trans hnext'
    | token hnext' _ hrest =>
      cases hnext.symm.trans hnext'
      obtain ⟨rfl, he, hp⟩ := ih hrest
      exact ⟨rfl, he, hp⟩

/-- How a run ends: with all its tokens, or with a fault. -/
def ending (ts : List Token) : Option LexError → Except LexError (List Token)
  | none => .ok ts
  | some e => .error e

theorem run_tokens (s : Scanner) : ∃ ts e, s.Run ts e s.tokens.2 ∧ s.tokens.1 = ending ts e := by
  induction hlen : s.rest.length using Nat.strongRecOn generalizing s with
  | ind n ih =>
    subst hlen
    by_cases hmore : s.skipBlanks.rest = []
    · have hnext : s.next = (.ok ⟨.endOfFile, s.skipBlanks.place, s.skipBlanks.place⟩,
          ⟨[], s.skipBlanks.place, s.pool⟩) := by
        unfold next
        dsimp only
        rw [hmore]
        rfl
      rw [tokens, dif_pos hmore, hnext]
      exact ⟨_, _, @Run.finish _ ⟨[], _, s.pool⟩ _ hnext rfl, rfl⟩
    · cases hnext : s.next with
      | mk found s' =>
        have hlt := next_rest_lt hmore
        rw [hnext] at hlt
        cases found with
        | error e =>
          have htokens : s.tokens = (.error e, s'.pool) := by
            rw [tokens, dif_neg hmore]
            split <;> rename_i heq <;> cases hnext.symm.trans heq
            rfl
          rw [htokens]
          exact ⟨_, _, .fault hnext, rfl⟩
        | ok t =>
          have htokens : s.tokens = (s'.tokens.1.map (t :: ·), s'.tokens.2) := by
            rw [tokens, dif_neg hmore]
            split <;> rename_i heq <;> cases hnext.symm.trans heq
            rfl
          obtain ⟨gap, text, rest, kind, hmeets, rfl, -⟩ := meets_of_next hmore hnext
          obtain ⟨ts, e, hrun, hending⟩ := ih _ hlt s' rfl
          rw [htokens, hending]
          refine ⟨_, e, .token hnext hmeets.lexeme.kind_ne hrun, ?_⟩
          cases e <;> rfl

theorem pool_of_next {s s' : Scanner} {t : Token} (h : s.next = (.ok t, s')) :
    s'.pool = poolConstant s.pool t.kind := by
  unfold next at h
  dsimp only at h
  split at h <;> cases h
  rfl

theorem pool_of_fault {s s' : Scanner} {e : LexError} (h : s.next = (.error e, s')) : s'.pool = s.pool := by
  unfold next at h
  dsimp only at h
  split at h <;> cases h
  rfl

/-- The constant of a token is the one that the tables meet. -/
theorem poolConstant_eq (p : Pool) (kind : TokenKind) :
    (poolConstant p kind).floats = kind.float?.toList.foldl ConstantTable.add p.floats ∧
      (poolConstant p kind).strings = kind.string?.toList.foldl ConstantTable.add p.strings := by
  cases kind <;> exact ⟨rfl, rfl⟩

/-- Over a run both tables meet the constants of the tokens. -/
theorem Run.fills {s : Scanner} {ts : List Token} {e : Option LexError} {p : Pool}
    (h : s.Run ts e p) :
    p.floats = (ts.filterMap (·.kind.float?)).foldl ConstantTable.add s.pool.floats ∧
      p.strings = (ts.filterMap (·.kind.string?)).foldl ConstantTable.add s.pool.strings := by
  induction h with
  | @finish _ _ t hnext hkind =>
    rw [pool_of_next hnext]
    simp [hkind, poolConstant, TokenKind.float?, TokenKind.string?]
  | fault hnext =>
    rw [pool_of_fault hnext]
    exact ⟨rfl, rfl⟩
  | @token s _ t ts _ _ hnext _ _ ih =>
    obtain ⟨hfloats, hstrings⟩ := poolConstant_eq s.pool t.kind
    rw [pool_of_next hnext] at ih
    rw [ih.1, ih.2, hfloats, hstrings, ← List.foldl_append, ← List.foldl_append]
    constructor
    · cases ht : t.kind.float? <;> simp [ht]
    · cases ht : t.kind.string? <;> simp [ht]

end Scanner

/-- A label says whether it is that of a float or of a string. -/
theorem floatMark_ne_stringMark (i j : Nat) : ".LF" ++ toString i ≠ ".LS" ++ toString j := by
  intro h
  have hlist := congrArg String.toList h
  simp only [String.toList_append] at hlist
  exact absurd (List.cons.inj (List.cons.inj (List.cons.inj hlist).2).2).1 (by decide)

/-- Scanning a text extends each table of the pool by the constants of the tokens produced, whether
or not a fault ends the scan: what is new is appended in order of first appearance, each entry has
the label of its number, lookups lead to the entries, and labels that were there stay. No float has
the label of a string. -/
theorem tokenize_pools (pool : Pool) (source file : String) :
    ∃ tokens fault after, tokenize source file pool = (Scanner.ending tokens fault, after) ∧
      (Scanner.start source file pool).Run tokens fault after ∧
      pool.floats.Extends (tokens.filterMap (·.kind.float?)) after.floats ∧
      pool.strings.Extends (tokens.filterMap (·.kind.string?)) after.strings ∧
      ∀ l ∈ after.floats.labels, l ∉ after.strings.labels := by
  obtain ⟨tokens, fault, hrun, hending⟩ := (Scanner.start source file pool).run_tokens
  obtain ⟨hfloats, hstrings⟩ := hrun.fills
  refine ⟨tokens, fault, (Scanner.start source file pool).tokens.2, Prod.ext hending rfl, hrun,
    ?_, ?_, fun l hl hl' => ?_⟩
  · rw [hfloats]
    exact ConstantTable.extends_foldl _ _
  · rw [hstrings]
    exact ConstantTable.extends_foldl _ _
  · obtain ⟨i, rfl⟩ := ConstantTable.eq_of_mem_labels hl
    obtain ⟨j, heq⟩ := ConstantTable.eq_of_mem_labels hl'
    exact floatMark_ne_stringMark i j heq

/-- The zeros of both signs are two constants, and a text that breaks off at a character that begins
no token leaves the constants before it pooled. -/
theorem tokenize_pools_zeros :
    ∃ after, (tokenize "\"a\"\"a\"0.0@" "f" (Pool.internFloat {} (-0.0)).2).2 = after ∧
      after.floats.values = [-0.0, 0.0] ∧ after.strings.values = ["a"] ∧
      after.floatLabel? 0.0 = some ".LF1" ∧ after.floatLabel? (-0.0) = some ".LF0" ∧
      after.stringLabel? "b" = none := by
  obtain ⟨tokens, fault, after, hafter, hrun, hfloats, hstrings, -⟩ :=
    tokenize_pools (Pool.internFloat {} (-0.0)).2 "\"a\"\"a\"0.0@" "f"
  have hfirst : ∀ p, (Scanner.start "\"a\"\"a\"0.0@" "f" p).next =
      (.ok ⟨.stringLit "a", ⟨"f", 1, 1⟩, ⟨"f", 1, 4⟩⟩,
        ⟨"\"a\"0.0@".toList, ⟨"f", 1, 4⟩, (p.internString "a").2⟩) := by
    intro p
    cbv
  have hsecond : ∀ p, (Scanner.mk "\"a\"0.0@".toList ⟨"f", 1, 4⟩ p).next =
      (.ok ⟨.stringLit "a", ⟨"f", 1, 4⟩, ⟨"f", 1, 7⟩⟩,
        ⟨"0.0@".toList, ⟨"f", 1, 7⟩, (p.internString "a").2⟩) := by
    intro p
    cbv
  have hread : readToken ("0.0".toList ++ ['@']) = .ok (.floatLit 0.0) "0.0".toList ['@'] := rfl
  have hthird : ∀ p, (Scanner.mk "0.0@".toList ⟨"f", 1, 7⟩ p).Meets [] "0.0".toList ['@']
      (.floatLit 0.0) := fun p =>
    ⟨rfl, fun c hc => absurd hc List.not_mem_nil,
      @spelled_readToken ("0.0".toList ++ ['@']) (List.cons_ne_nil _ _) _
        (congrArg Reading.found hread), hread⟩
  have hlast : ∀ p, (Scanner.mk ['@'] ((⟨"f", 1, 7⟩ : Location).advanceBy "0.0".toList) p).next =
      (.error ⟨.unexpected '@', ⟨"f", 1, 10⟩⟩, ⟨[], ⟨"f", 1, 11⟩, p⟩) := by
    intro p
    cbv
  obtain ⟨rfl, -, -⟩ := hrun.unique (.token (hfirst _) (fun h => by cases h)
    (.token (hsecond _) (fun h => by cases h)
      (.token (hthird _).next (fun h => by cases h) (.fault (hlast _)))))
  have hvalues : after.floats.values = [-0.0, 0.0] := hfloats.values
  refine ⟨after, congrArg Prod.snd hafter, hvalues, hstrings.values, ?_, ?_, ?_⟩
  · obtain ⟨l, hl⟩ : ∃ l, after.floats.entries[1]? = some (0.0, l) := by
      have hentry := congrArg (·[1]?) hvalues
      simpa [ConstantTable.values] using hentry
    have hlabel : l = ".LF1" := hfloats.numbered _ _ _ hl
    exact (hfloats.found _ _).mpr ⟨1, 0.0, hlabel ▸ hl, rfl⟩
  · exact hfloats.kept _ _ rfl
  · exact (hstrings.missing _).mpr (by rw [hstrings.values]; decide)

end MiniC
