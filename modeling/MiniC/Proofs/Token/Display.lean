import MiniC.Proofs.Token.Offsets

/-!
# Scanning undoes display

The text of a token is a spelling of it (`lexeme_text`), if the token is one that text can say
(`Displayable`): a number is not negative, quoted characters are printable or have an escape, and
no comment holds its own end. So tokens written one to a line are scanned to the same tokens.
-/

set_option autoImplicit false

namespace MiniC

/-! ### Numbers -/

theorem isDigit_of_mem_toDigits {n : Nat} {c : Char} (h : c ∈ Nat.toDigits 10 n) :
    Number.isDigit c = true := by
  have hdigit := Nat.isDigit_of_mem_toDigits (by decide) (by decide) h
  simp only [Char.isDigit, Bool.and_eq_true, decide_eq_true_eq] at hdigit
  simpa [Number.isDigit, Char.le_def] using hdigit

theorem digitValue_digitChar {d : Nat} (h : d < 16) : Number.digitValue d.digitChar = d := by
  have hcases : ∀ d < 16, Number.digitValue (Nat.digitChar d) = d := by decide
  exact hcases d h

/-- The digits of a number stand for the number they were written for. -/
theorem ofDigits_toDigits {b : Nat} (hb : 1 < b) (hb' : b ≤ 16) (n : Nat) :
    Number.ofDigits b (Nat.toDigits b n) = n := by
  induction n using Nat.strongRecOn with
  | ind n ih =>
    rw [Nat.toDigits_eq_if hb]
    split
    · rename_i hlt
      simp [Number.ofDigits, digitValue_digitChar (hlt.trans_le hb')]
    · rename_i hle
      have hrest := ih (n / b) (Nat.div_lt_self (by omega) hb)
      have hlast := digitValue_digitChar ((Nat.mod_lt n (by omega : 0 < b)).trans_le hb')
      unfold Number.ofDigits at hrest ⊢
      rw [List.foldl_append, hrest, List.foldl_cons, List.foldl_nil, hlast, Nat.mul_comm]
      exact Nat.div_add_mod n b

theorem toList_toString {n : Int} (h : 0 ≤ n) : (toString n).toList = Nat.toDigits 10 n.toNat := by
  obtain ⟨m, rfl⟩ := Int.eq_ofNat_of_zero_le h
  exact Nat.toList_repr

theorem ofNat_toNat_toInt {n : Int64} (h : 0 ≤ n.toInt) : Int64.ofNat n.toInt.toNat = n := by
  rw [← Int64.ofInt_eq_ofNat, Int.toNat_of_nonneg h, Int64.ofInt_toInt]

/-! ### Words and quoted characters -/

/-- Whether a text is a letter or an underscore, and then letters, digits and underscores. -/
def isWord : List Char → Bool
  | [] => false
  | c :: cs => isWordStart c && cs.all isWordPart

theorem lexeme_word {word : String} (h : isWord word.toList = true) :
    Lexeme (wordKind word) word.toList := by
  have hword : String.ofList word.toList = word := String.ofList_toList
  generalize word.toList = text at h hword
  subst hword
  cases text with
  | nil => cases h
  | cons c cs =>
    simp only [isWord, Bool.and_eq_true, List.all_eq_true] at h
    exact .word h.1 h.2

theorem wordKind_text (k : Keyword) : wordKind k.text = .keyword k := by
  cases k <;> rfl

theorem isWord_text (k : Keyword) : isWord k.text.toList = true := by
  cases k <;> rfl

/-- A character that is printable ASCII or has an escape of its own. -/
def IsShown (c : Char) : Prop := c = '\t' ∨ c = '\r' ∨ c = '\n' ∨ (0x20 ≤ c.toNat ∧ c.toNat ≤ 0x7e)

instance (c : Char) : Decidable (IsShown c) :=
  inferInstanceAs (Decidable (c = '\t' ∨ c = '\r' ∨ c = '\n' ∨ (0x20 ≤ c.toNat ∧ c.toNat ≤ 0x7e)))

theorem IsShown.lt {c : Char} (h : IsShown c) : c.toNat < 128 := by
  obtain rfl | rfl | rfl | ⟨_, hle⟩ := h
  · decide
  · decide
  · decide
  · omega

theorem IsShown.quoted {c : Char} (h : IsShown c) {quote : Char} (hquote : quote = '\'' ∨ quote = '"') :
    Quoted quote (Text.asciiEscape c) c := by
  have hnot : ∀ d, c ≠ d → quote = d → c ≠ quote := fun d hd heq => heq ▸ hd
  unfold Text.asciiEscape
  -- the six characters with an escape first
  iterate 6
    split
    · subst c
      exact .escape rfl
  split
  · rename_i hline hsingle hdouble hslash _
    exact .plain (hquote.elim (hnot _ hsingle) (hnot _ hdouble)) hline hslash
  · rename_i htab hreturn hline _ _ _ hprintable
    exact absurd (((h.resolve_left htab).resolve_left hreturn).resolve_left hline) hprintable

theorem quotedText_of_isShown {cs : List Char} (h : ∀ c ∈ cs, IsShown c) :
    QuotedText (cs.flatMap Text.asciiEscape) cs := by
  induction cs with
  | nil => exact .nil
  | cons c cs ih =>
    obtain ⟨hc, hcs⟩ := List.forall_mem_cons.mp h
    rw [List.flatMap_cons]
    exact .cons (hc.quoted (.inr rfl)) (ih hcs)

/-! ### Tokens -/

/-- The tokens that text can say as they are: no floats, whose text may be rounded, and no end of
file, which has no characters. -/
def TokenKind.Displayable : TokenKind → Prop
  | intLit n => 0 ≤ n.toInt ∧ n.toInt < 2 ^ 31
  | longLit n => 0 ≤ n.toInt
  | floatLit _ => False
  | charLit c => IsShown (Char.ofUInt8 c)
  | stringLit s => ∀ c ∈ s.toList, IsShown c
  | identifier name => isWord name.toList = true ∧ Keyword.ofText? name = none
  | keyword _ => True
  | punct _ => True
  | endOfFile => False
  | lineComment text => '\n' ∉ text.toList
  | blockComment text => ¬ ['*', '/'] <:+: text.toList

instance : (kind : TokenKind) → Decidable kind.Displayable
  | .intLit n => inferInstanceAs (Decidable (0 ≤ n.toInt ∧ n.toInt < 2 ^ 31))
  | .longLit n => inferInstanceAs (Decidable (0 ≤ n.toInt))
  | .floatLit _ => inferInstanceAs (Decidable False)
  | .charLit c => inferInstanceAs (Decidable (IsShown (Char.ofUInt8 c)))
  | .stringLit s => List.decidableBAll IsShown s.toList
  | .identifier name =>
    inferInstanceAs (Decidable (isWord name.toList = true ∧ Keyword.ofText? name = none))
  | .keyword _ => inferInstanceAs (Decidable True)
  | .punct _ => inferInstanceAs (Decidable True)
  | .endOfFile => inferInstanceAs (Decidable False)
  | .lineComment text => inferInstanceAs (Decidable ('\n' ∉ text.toList))
  | .blockComment text => inferInstanceAs (Decidable (¬ ['*', '/'] <:+: text.toList))

/-- The digits of a number that is not negative, with a suffix. -/
theorem lexeme_toDigits {n : Int64} (h : 0 ≤ n.toInt) {kind : TokenKind} {suffix : List Char}
    (hsuffix : IntegerSuffix n.toInt.toNat kind suffix) :
    Lexeme kind (Nat.toDigits 10 n.toInt.toNat ++ suffix) := by
  have hlt := n.toInt_lt
  have hdigits := ofDigits_toDigits (b := 10) (by decide) (by decide) n.toInt.toNat
  rw [← hdigits] at hsuffix
  refine .integer Nat.toDigits_ne_nil (fun d hd => isDigit_of_mem_toDigits hd) ?_ hsuffix
  rw [hdigits]
  omega

theorem lexeme_text {kind : TokenKind} (h : kind.Displayable) : Lexeme kind kind.text.toList := by
  cases kind with
  | intLit n =>
    obtain ⟨hnonneg, hlt⟩ := h
    have hkind := lexeme_toDigits hnonneg (.narrow (by omega))
    rwa [ofNat_toNat_toInt hnonneg, List.append_nil, ← toList_toString hnonneg] at hkind
  | longLit n =>
    have hkind := lexeme_toDigits h .upper
    rw [ofNat_toNat_toInt h, ← toList_toString h] at hkind
    simpa [TokenKind.text] using hkind
  | floatLit x => exact h.elim
  | charLit c =>
    have hkind := Lexeme.character (IsShown.quoted h (.inl rfl)) (IsShown.lt h)
    have hbyte : (Char.ofUInt8 c).toUInt8 = c := by simp [Char.toUInt8, Char.ofUInt8]
    rw [hbyte] at hkind
    simpa [TokenKind.text] using hkind
  | stringLit s =>
    have hkind := Lexeme.string (quotedText_of_isShown h)
    rw [String.ofList_toList] at hkind
    simpa [TokenKind.text] using hkind
  | identifier name =>
    obtain ⟨hword, hnone⟩ := h
    have hkind := lexeme_word hword
    rwa [wordKind, hnone] at hkind
  | keyword k =>
    have hkind := lexeme_word (isWord_text k)
    rwa [wordKind_text] at hkind
  | punct p => exact .punct p
  | endOfFile => exact h.elim
  | lineComment text =>
    have hkind := Lexeme.lineComment h
    simpa [TokenKind.text] using hkind
  | blockComment text =>
    have hkind := Lexeme.blockComment h
    simpa [TokenKind.text] using hkind

/-- One line for each token. -/
def displayed (kinds : List TokenKind) : String := String.join (kinds.map fun kind => kind.text ++ "\n")

theorem toList_displayed_cons (kind : TokenKind) (kinds : List TokenKind) :
    (displayed (kind :: kinds)).toList = kind.text.toList ++ '\n' :: (displayed kinds).toList := by
  simp [displayed]

theorem Scanner.kinds_of_displayed {kinds : List TokenKind} (h : ∀ kind ∈ kinds, kind.Displayable)
    {s : Scanner} {gap : List Char} (hgap : ∀ c ∈ gap, Text.isBlank c = true)
    (hs : s.rest = gap ++ (displayed kinds).toList) :
    s.tokens.1.map (·.map (·.kind)) = .ok (kinds ++ [.endOfFile]) := by
  induction kinds generalizing s gap with
  | nil =>
    rw [tokens_of_blank]
    · rfl
    · rw [hs]
      simpa [displayed] using hgap
  | cons kind kinds ih =>
    obtain ⟨hkind, hkinds⟩ := List.forall_mem_cons.mp h
    have hlexeme := lexeme_text hkind
    have hmeets : s.Meets gap kind.text.toList ('\n' :: (displayed kinds).toList) kind :=
      ⟨by rw [hs, toList_displayed_cons], hgap, hlexeme, hlexeme.readToken (.inr ⟨_, rfl⟩)⟩
    -- the end of the line is the gap before the next token
    have hline : ∀ c ∈ ['\n'], Text.isBlank c = true := by simp [Text.isBlank, Text.blanks]
    have hrest := ih hkinds hline
      (rfl : (s.past gap kind.text.toList ('\n' :: (displayed kinds).toList) kind).rest = _)
    rw [hmeets.tokens]
    revert hrest
    cases (s.past gap kind.text.toList ('\n' :: (displayed kinds).toList) kind).tokens.1 with
    | error e => exact fun hrest => by cases hrest
    | ok others =>
      intro hrest
      exact congrArg (fun kinds => Except.ok (kind :: kinds)) (Except.ok.inj hrest)

/-- Tokens that are written one to a line are scanned to the same tokens. -/
theorem tokenize_displayed (kinds : List TokenKind) (h : ∀ kind ∈ kinds, kind.Displayable)
    (file : String) (pool : Pool) :
    (tokenize (displayed kinds) file pool).1.map (·.map (·.kind)) = .ok (kinds ++ [.endOfFile]) := by
  have hnone : ∀ c ∈ ([] : List Char), Text.isBlank c = true := fun c hc => absurd hc List.not_mem_nil
  exact Scanner.kinds_of_displayed h hnone rfl

/-- Quotes, a backslash and a line end in literals, a comment that seems to open another. -/
theorem tokenize_displayed_quotes :
    (∀ kind ∈ [TokenKind.stringLit "\"\\'\n", .charLit 39, .longLit 7, .blockComment "/*", .punct .slash,
      .identifier "_int", .keyword .int], kind.Displayable) ∧
    (tokenize (displayed [.stringLit "\"\\'\n", .charLit 39, .longLit 7, .blockComment "/*", .punct .slash,
      .identifier "_int", .keyword .int]) "f" {}).1.map (·.map (·.kind)) =
      .ok [.stringLit "\"\\'\n", .charLit 39, .longLit 7, .blockComment "/*", .punct .slash,
        .identifier "_int", .keyword .int, .endOfFile] :=
  ⟨by decide, tokenize_displayed _ (by decide) "f" {}⟩

end MiniC
