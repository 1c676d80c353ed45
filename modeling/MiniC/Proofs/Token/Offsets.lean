import MiniC.Proofs.Token.Spelled
import MiniC.Token.Scanner

/-!
# Tokens tile the text

The tokens of a text stand at offsets of it, in order and apart, with blanks only between them
(`Tiling`). The span of a token is the line and the column of its two offsets, and its characters alone
are scanned to it (`Covers`). A scanner that is not at the end goes on by a character at least, whether
it finds a token or a fault, so it is at the end of a text after as many steps as there are characters.
-/

set_option autoImplicit false

namespace MiniC

/-! ### Places of offsets -/

/-- The place of an offset: its line is one more than the line feeds before it, its column one more
than the characters after the last of them. -/
def Location.ofOffset (file : String) (text : List Char) (offset : Nat) : Location where
  file := file
  line := 1 + (text.take offset).count '\n'
  column := 1 + ((text.take offset).reverse.takeWhile (· != '\n')).length

theorem Location.advanceBy_first (file : String) (cs : List Char) :
    (Location.first file).advanceBy cs =
      ⟨file, 1 + cs.count '\n', 1 + (cs.reverse.takeWhile (· != '\n')).length⟩ := by
  induction cs using List.reverseRecOn with
  | nil => rfl
  | append_singleton cs c ih =>
    rw [advanceBy_append, ih, advanceBy_cons, advanceBy_nil, advance]
    by_cases hc : c = '\n'
    · simp [hc, Nat.add_assoc]
    · simp [hc, Nat.add_comm]

theorem Location.ofOffset_append (file : String) (before after : List Char) :
    ofOffset file (before ++ after) before.length = (Location.first file).advanceBy before := by
  rw [advanceBy_first, ofOffset, List.take_left]

/-! ### One step of the scanner -/

namespace Scanner

/-- What stands before the scanner: blanks, the characters of a token, and a rest that is left when
the token is read. -/
structure Meets (s : Scanner) (gap text rest : List Char) (kind : TokenKind) : Prop where
  text_eq : s.rest = gap ++ (text ++ rest)
  blank : ∀ c ∈ gap, Text.isBlank c = true
  lexeme : Lexeme kind text
  read : readToken (text ++ rest) = .ok kind text rest

/-- The token that the scanner meets after a gap. -/
def met (s : Scanner) (gap text : List Char) (kind : TokenKind) : Token :=
  ⟨kind, s.place.advanceBy gap, s.place.advanceBy (gap ++ text)⟩

/-- Where the scanner stands after the token. -/
def past (s : Scanner) (gap text rest : List Char) (kind : TokenKind) : Scanner :=
  ⟨rest, s.place.advanceBy (gap ++ text), poolConstant s.pool kind⟩

/-- The token at the end of the text. -/
def final (s : Scanner) : Token := ⟨.endOfFile, .point (s.place.advanceBy s.rest)⟩

section Step

variable {s s' : Scanner} {gap text rest : List Char} {kind : TokenKind} {t : Token}

theorem skipBlanks_eq (hs : s.rest = gap ++ rest) (hgap : ∀ c ∈ gap, Text.isBlank c = true)
    (hrest : Stops Text.isBlank rest) : s.skipBlanks = ⟨rest, s.place.advanceBy gap, s.pool⟩ := by
  unfold skipBlanks
  rw [hs, takeWhile_run hgap hrest, dropWhile_run hgap hrest]

theorem Meets.skipBlanks (h : s.Meets gap text rest kind) :
    s.skipBlanks = ⟨text ++ rest, s.place.advanceBy gap, s.pool⟩ := by
  refine skipBlanks_eq h.text_eq h.blank fun c hc => ?_
  obtain ⟨d, ds, rfl, hd⟩ := h.lexeme.starts
  cases hc
  exact hd

theorem Meets.next (h : s.Meets gap text rest kind) :
    s.next = (.ok (s.met gap text kind), s.past gap text rest kind) := by
  unfold Scanner.next
  simp only [h.skipBlanks, h.read, Reading.ok, met, past, Location.advanceBy_append]

theorem meets_of_next (hmore : s.skipBlanks.rest ≠ []) (h : s.next = (.ok t, s')) :
    ∃ gap text rest kind,
      s.Meets gap text rest kind ∧ t = s.met gap text kind ∧ s' = s.past gap text rest kind := by
  unfold Scanner.next at h
  dsimp only at h
  split at h
  · rename_i kind hfound
    have htiles : (readToken s.skipBlanks.rest).taken ++ (readToken s.skipBlanks.rest).rest =
        s.skipBlanks.rest := readToken_tiles _
    refine ⟨s.rest.takeWhile Text.isBlank, (readToken s.skipBlanks.rest).taken,
      (readToken s.skipBlanks.rest).rest, kind, ⟨?_, ?_, ?_, ?_⟩, ?_, ?_⟩
    · rw [htiles]
      exact List.takeWhile_append_dropWhile.symm
    · exact List.all_eq_true.mp List.all_takeWhile
    · exact spelled_readToken hmore kind hfound
    · rw [htiles, Reading.ok, ← hfound]
    · cases h
      simp only [met, Location.advanceBy_append]
      rfl
    · cases h
      simp only [past, Location.advanceBy_append]
      rfl
  · cases h

theorem tokens_of_blank (h : ∀ c ∈ s.rest, Text.isBlank c = true) : s.tokens = (.ok [s.final], s.pool) := by
  have hskip : s.skipBlanks = ⟨[], s.place.advanceBy s.rest, s.pool⟩ :=
    skipBlanks_eq (List.append_nil _).symm h fun c hc => by cases hc
  have hnext : s.next = (.ok s.final, ⟨[], s.place.advanceBy s.rest, s.pool⟩) := by
    unfold next
    rw [hskip]
    rfl
  rw [tokens, dif_pos (by rw [hskip]), hnext]
  rfl

theorem Meets.tokens (h : s.Meets gap text rest kind) :
    s.tokens = ((s.past gap text rest kind).tokens.1.map (s.met gap text kind :: ·),
      (s.past gap text rest kind).tokens.2) := by
  have hmore : s.skipBlanks.rest ≠ [] := by
    obtain ⟨c, cs, rfl, _⟩ := h.lexeme.starts
    rw [h.skipBlanks]
    exact List.cons_ne_nil _ _
  rw [Scanner.tokens, dif_neg hmore]
  split
  · rename_i heq
    rw [h.next] at heq
    cases heq
  · rename_i heq
    rw [h.next] at heq
    cases heq
    rfl

/-- A scan that succeeds meets one token after the other until only blanks are left. -/
theorem tokens_induction {motive : Scanner → List Token → Prop}
    (blank : ∀ s : Scanner, (∀ c ∈ s.rest, Text.isBlank c = true) → motive s [s.final])
    (token : ∀ (s : Scanner) gap text rest kind ts, s.Meets gap text rest kind →
      motive (s.past gap text rest kind) ts → motive s (s.met gap text kind :: ts))
    {ts : List Token} (h : s.tokens.1 = .ok ts) : motive s ts := by
  induction hlen : s.rest.length using Nat.strongRecOn generalizing s ts with
  | ind n ih =>
    subst hlen
    by_cases hmore : s.skipBlanks.rest = []
    · have hblank : ∀ c ∈ s.rest, Text.isBlank c = true := by
        simpa [skipBlanks, List.dropWhile_eq_nil_iff] using hmore
      rw [tokens_of_blank hblank] at h
      cases h
      exact blank s hblank
    · cases hnext : s.next with
      | mk found s' =>
        cases found with
        | error e =>
          rw [tokens, dif_neg hmore] at h
          split at h
          · cases h
          · rename_i heq
            rw [hnext] at heq
            cases heq
        | ok t =>
          have hlt := next_rest_lt hmore
          obtain ⟨gap, text, rest, kind, hmeets, rfl, rfl⟩ := meets_of_next hmore hnext
          rw [hmeets.tokens] at h
          cases hothers : (s.past gap text rest kind).tokens.1 with
          | error e =>
            rw [hothers] at h
            cases h
          | ok others =>
            rw [hothers] at h
            cases h
            rw [hnext] at hlt
            exact token s gap text rest kind others hmeets (ih _ hlt hothers rfl)

end Step

end Scanner

/-- The characters of a token alone are scanned to that token. -/
theorem Lexeme.tokenize {kind : TokenKind} {text : List Char} (h : Lexeme kind text) (file : String)
    (pool : Pool) : (tokenize (String.ofList text) file pool).1.map (·.map (·.kind)) =
      .ok [kind, .endOfFile] := by
  have hmeets : (Scanner.start (String.ofList text) file pool).Meets [] text [] kind := by
    refine ⟨?_, fun c hc => absurd hc List.not_mem_nil, h, h.readToken (.inl rfl)⟩
    rw [List.nil_append, List.append_nil]
    exact String.toList_ofList
  unfold MiniC.tokenize
  rw [hmeets.tokens, Scanner.tokens_of_blank fun c hc => absurd hc List.not_mem_nil]
  rfl

/-! ### The tiling -/

/-- Intervals of offsets that follow one another, none of them empty. -/
def InOrder (limit : Nat) : Nat → List (Nat × Nat) → Prop
  | start, [] => start ≤ limit
  | start, (first, last) :: cuts => start ≤ first ∧ first < last ∧ InOrder limit last cuts

/-- A token stands at an interval of offsets: its span is the places of the two, and the characters
between them are scanned to this token, whatever the file and the pool. -/
structure Covers (file : String) (text : List Char) (t : Token) (cut : Nat × Nat) : Prop where
  kind_ne : t.kind ≠ .endOfFile
  span_eq : t.span = ⟨.ofOffset file text cut.1, .ofOffset file text cut.2⟩
  alone : ∀ file pool, (tokenize (String.ofList ((text.take cut.2).drop cut.1)) file pool).1.map
    (·.map (·.kind)) = .ok [t.kind, .endOfFile]

/-- The tokens of a text from an offset on: all but the last stand at intervals in order, the last is
the empty one at the end, and blanks only are outside the intervals. -/
structure Tiling (file : String) (text : List Char) (start : Nat) (tokens : List Token)
    (cuts : List (Nat × Nat)) : Prop where
  ordered : InOrder text.length start cuts
  covers : ∃ body, tokens = body ++ [⟨.endOfFile, .point (.ofOffset file text text.length)⟩] ∧
    List.Forall₂ (Covers file text) body cuts
  gaps : ∀ i c, start ≤ i → text[i]? = some c → (∀ cut ∈ cuts, i < cut.1 ∨ cut.2 ≤ i) →
    Text.isBlank c = true

theorem Lexeme.kind_ne {kind : TokenKind} {text : List Char} (h : Lexeme kind text) : kind ≠ .endOfFile := by
  cases h with
  | word =>
    unfold wordKind
    split <;> exact TokenKind.noConfusion
  | hex _ _ _ _ hsuffix => cases hsuffix <;> exact TokenKind.noConfusion
  | integer _ _ _ hsuffix => cases hsuffix <;> exact TokenKind.noConfusion
  | _ => exact TokenKind.noConfusion

section Tile

variable {file : String} {s : Scanner} {gap text rest before : List Char} {kind : TokenKind}

theorem Scanner.Meets.covers (h : s.Meets gap text rest kind)
    (hplace : s.place = (Location.first file).advanceBy before) :
    Covers file (before ++ s.rest) (s.met gap text kind)
      ((before ++ gap).length, (before ++ gap ++ text).length) := by
  have hfirst : before ++ s.rest = (before ++ gap) ++ (text ++ rest) := by
    rw [h.text_eq, List.append_assoc]
  have hlast : before ++ s.rest = (before ++ gap ++ text) ++ rest := by
    rw [hfirst, List.append_assoc _ text]
  refine ⟨h.lexeme.kind_ne, ?_, fun file pool => ?_⟩
  · simp only [met]
    congr 1
    · rw [hfirst, Location.ofOffset_append, Location.advanceBy_append, hplace]
    · rw [hlast, Location.ofOffset_append, Location.advanceBy_append, Location.advanceBy_append,
        Location.advanceBy_append, hplace]
  · rw [hlast, List.take_left, List.drop_left]
    exact h.lexeme.tokenize file pool

theorem Scanner.tiling_of_blank (h : ∀ c ∈ s.rest, Text.isBlank c = true)
    (hplace : s.place = (Location.first file).advanceBy before) :
    Tiling file (before ++ s.rest) before.length [s.final] [] := by
  refine ⟨?_, ⟨[], ?_, .nil⟩, fun i c hi hc _ => ?_⟩
  · simp [InOrder]
  · have hend := Location.ofOffset_append file (before ++ s.rest) []
    rw [List.append_nil] at hend
    rw [hend, Location.advanceBy_append, ← hplace]
    rfl
  · rw [List.getElem?_append_right hi] at hc
    exact h c (List.mem_of_getElem? hc)

theorem Scanner.Meets.tiling {tokens : List Token} {cuts : List (Nat × Nat)}
    (h : s.Meets gap text rest kind) (hplace : s.place = (Location.first file).advanceBy before)
    (hrest : Tiling file (before ++ gap ++ text ++ rest) (before ++ gap ++ text).length tokens cuts) :
    Tiling file (before ++ s.rest) before.length (s.met gap text kind :: tokens)
      (((before ++ gap).length, (before ++ gap ++ text).length) :: cuts) := by
  have hcovers := h.covers hplace
  have htext : before ++ s.rest = before ++ gap ++ text ++ rest := by
    rw [h.text_eq]
    simp only [List.append_assoc]
  rw [htext] at hcovers ⊢
  obtain ⟨body, rfl, hbody⟩ := hrest.covers
  refine ⟨⟨?_, ?_, hrest.ordered⟩, ⟨_ :: body, rfl, .cons hcovers hbody⟩, fun i c hi hc hout => ?_⟩
  · simp
  · obtain ⟨d, ds, rfl, _⟩ := h.lexeme.starts
    simp
  · obtain ⟨hfirst, hout⟩ := List.forall_mem_cons.mp hout
    obtain hlt | hle := hfirst
    · -- between the last token and this one
      rw [List.append_assoc, List.getElem?_append_left hlt, List.getElem?_append_right hi] at hc
      exact h.blank c (List.mem_of_getElem? hc)
    · exact hrest.gaps i c hle hc hout

theorem Scanner.tiling_of_tokens {tokens : List Token} (h : s.tokens.1 = .ok tokens)
    (hplace : s.place = (Location.first file).advanceBy before) :
    ∃ cuts, Tiling file (before ++ s.rest) before.length tokens cuts := by
  refine Scanner.tokens_induction (motive := fun s tokens => ∀ before,
    s.place = (Location.first file).advanceBy before →
      ∃ cuts, Tiling file (before ++ s.rest) before.length tokens cuts) ?_ ?_ h before hplace
  · intro s hblank before hplace
    exact ⟨[], tiling_of_blank hblank hplace⟩
  · intro s gap text rest kind tokens hmeets ih before hplace
    obtain ⟨cuts, hcuts⟩ := ih (before ++ gap ++ text) (by
      simp only [past, hplace, Location.advanceBy_append])
    exact ⟨_, hmeets.tiling hplace hcuts⟩

end Tile

/-! ### Progress -/

namespace Scanner

/-- A step takes characters from the front of the text, whether a token is found or not. -/
theorem next_takes (s : Scanner) :
    ∃ taken, s.rest = taken ++ s.next.2.rest ∧ s.next.2.place = s.place.advanceBy taken ∧
      (s.rest ≠ [] → taken ≠ []) := by
  have htiles : (readToken s.skipBlanks.rest).taken ++ (readToken s.skipBlanks.rest).rest =
      s.skipBlanks.rest := readToken_tiles _
  have hsplit : s.rest.takeWhile Text.isBlank ++ s.skipBlanks.rest = s.rest :=
    List.takeWhile_append_dropWhile
  refine ⟨s.rest.takeWhile Text.isBlank ++ (readToken s.skipBlanks.rest).taken, ?_, ?_, ?_⟩
  · rw [next_rest, List.append_assoc, htiles, hsplit]
  · rw [Location.advanceBy_append]
    unfold next
    dsimp only
    split <;> rfl
  · intro hne hnil
    obtain ⟨hblank, htaken⟩ := List.append_eq_nil_iff.mp hnil
    rw [hblank, List.nil_append] at hsplit
    rw [hsplit] at htaken
    exact readToken_taken_ne_nil hne htaken

/-- As many steps as there are characters left lead to the end. -/
theorem rest_iterate_next (n : Nat) (s : Scanner) (h : s.rest.length ≤ n) :
    ((fun s : Scanner => s.next.2)^[n] s).rest = [] := by
  induction n generalizing s with
  | zero => exact List.length_eq_zero_iff.mp (Nat.le_zero.mp h)
  | succ n ih =>
    rw [Function.iterate_succ_apply]
    refine ih _ ?_
    obtain ⟨taken, hrest, _, hne⟩ := s.next_takes
    have hlen := congrArg List.length hrest
    rw [List.length_append] at hlen
    by_cases hnil : s.rest = []
    · rw [hnil] at hlen
      rw [List.length_nil] at hlen
      omega
    · have hpos := List.length_pos_iff.mpr (hne hnil)
      omega

end Scanner

/-- Tokens tile a text that is scanned, at the places of their offsets. Any step before the end goes
on, a failing one too, so that a text ends after as many steps as it has characters. -/
theorem tokens_tile (source file : String) (pool : Pool) :
    (∀ tokens, (tokenize source file pool).1 = .ok tokens →
      ∃ cuts, Tiling file source.toList 0 tokens cuts) ∧
    (∀ s : Scanner, s.rest ≠ [] →
      ∃ taken, taken ≠ [] ∧ s.rest = taken ++ s.next.2.rest ∧ s.next.2.place = s.place.advanceBy taken) ∧
    ∀ n, source.length ≤ n →
      ((fun s : Scanner => s.next.2)^[n] (Scanner.start source file pool)).rest = [] := by
  refine ⟨fun tokens h => ?_, fun s hne => ?_, fun n hn => ?_⟩
  · exact Scanner.tiling_of_tokens h (Location.advanceBy_nil _).symm
  · obtain ⟨taken, hrest, hplace, htaken⟩ := s.next_takes
    exact ⟨taken, htaken hne, hrest, hplace⟩
  · refine Scanner.rest_iterate_next n _ ?_
    rwa [← String.length_toList] at hn

/-- A word, a comment on the next line, and a scanner before a character that begins no token. -/
theorem tokens_tile_comment :
    (tokenize "x\n //" "f" {}).1 =
      .ok [⟨.identifier "x", ⟨"f", 1, 1⟩, ⟨"f", 1, 2⟩⟩, ⟨.lineComment "", ⟨"f", 2, 2⟩, ⟨"f", 2, 4⟩⟩,
        ⟨.endOfFile, ⟨"f", 2, 4⟩, ⟨"f", 2, 4⟩⟩] ∧
    (∃ cuts, Tiling "f" "x\n //".toList 0
      [⟨.identifier "x", ⟨"f", 1, 1⟩, ⟨"f", 1, 2⟩⟩, ⟨.lineComment "", ⟨"f", 2, 2⟩, ⟨"f", 2, 4⟩⟩,
        ⟨.endOfFile, ⟨"f", 2, 4⟩, ⟨"f", 2, 4⟩⟩] cuts) ∧
    (∃ taken, taken ≠ [] ∧ ['@'] = taken ++ (Scanner.next ⟨['@'], .first "f", {}⟩).2.rest ∧
      (Scanner.next ⟨['@'], .first "f", {}⟩).2.place = (Location.first "f").advanceBy taken) ∧
    ((fun s : Scanner => s.next.2)^[5] (Scanner.start "x\n //" "f" {})).rest = [] := by
  have hnone : ∀ c ∈ ([] : List Char), Text.isBlank c = true := fun c hc => absurd hc List.not_mem_nil
  have hword : Lexeme (wordKind (String.ofList ['x'])) ['x'] := .word rfl fun d hd => absurd hd List.not_mem_nil
  have hcomment : Lexeme (.lineComment (String.ofList [])) (['/', '/'] ++ []) := .lineComment List.not_mem_nil
  have hgap : ∀ c ∈ ['\n', ' '], Text.isBlank c = true := by simp [Text.isBlank, Text.blanks]
  have hfirst : (Scanner.start "x\n //" "f" {}).Meets [] ['x'] ['\n', ' ', '/', '/'] (.identifier "x") :=
    ⟨rfl, hnone, hword, rfl⟩
  refine ⟨?tokens, (tokens_tile "x\n //" "f" {}).1 _ ?tokens,
    (tokens_tile "x\n //" "f" {}).2.1 ⟨['@'], .first "f", {}⟩ (by decide),
    (tokens_tile "x\n //" "f" {}).2.2 5 (by decide)⟩
  unfold tokenize
  rw [hfirst.tokens, Scanner.Meets.tokens ⟨rfl, hgap, hcomment, rfl⟩, Scanner.tokens_of_blank hnone]
  rfl

end MiniC
