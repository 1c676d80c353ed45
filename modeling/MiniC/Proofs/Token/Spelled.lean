import MiniC.Proofs.Token.Lexeme

/-!
# Tokens are read from their spellings

The converse of `Lexeme.readToken`: whatever reader takes characters for a token, and whatever
follows them in the text, they spell that token (`spelled_readToken`). So a token can be read again
from its own characters alone.
-/

set_option autoImplicit false

namespace MiniC

/-- What the reading took spells the token it found. -/
def Reading.Spelled (r : Reading TokenKind) : Prop := ∀ kind, r.found = .ok kind → Lexeme kind r.taken

theorem spelled_ok {kind : TokenKind} {taken : List Char} (h : Lexeme kind taken) (rest : List Char) :
    (Reading.ok kind taken rest).Spelled := by
  intro kind' heq
  cases heq
  exact h

theorem spelled_fault (f : LexFault) (taken rest : List Char) :
    (Reading.fault f taken rest : Reading TokenKind).Spelled := by
  intro kind heq
  cases heq

theorem integerSuffix_of_readSuffix (n : Nat) (digits rest : List Char) :
    ∃ kind suffix more, IntegerSuffix n kind suffix ∧
      readSuffix n digits rest = .ok kind (digits ++ suffix) more := by
  unfold readSuffix
  split
  · exact ⟨_, _, _, .lower, rfl⟩
  · exact ⟨_, _, _, .upper, rfl⟩
  · split
    · rename_i hn
      exact ⟨_, _, _, .narrow hn, by rw [List.append_nil]⟩
    · rename_i hn
      exact ⟨_, _, _, .wide hn, by rw [List.append_nil]⟩

theorem spelled_readWord {c : Char} (hc : isWordStart c = true) (cs : List Char) :
    (readWord (c :: cs)).Spelled := by
  unfold readWord
  rw [List.takeWhile_cons_of_pos (isWordPart_of_isWordStart hc)]
  exact spelled_ok (.word hc (List.all_eq_true.mp List.all_takeWhile)) _

theorem spelled_readHex {mark : Char} (hmark : mark = 'x' ∨ mark = 'X') (cs : List Char) :
    (readHex ['0', mark] cs).Spelled := by
  unfold readHex
  dsimp only
  split
  · exact spelled_fault _ _ _
  · rename_i hok
    rw [not_or, Nat.not_le] at hok
    obtain ⟨kind, suffix, more, hsuffix, heq⟩ :=
      integerSuffix_of_readSuffix (Number.ofDigits 16 (cs.takeWhile Number.isHexDigit))
        (['0', mark] ++ cs.takeWhile Number.isHexDigit) (cs.dropWhile Number.isHexDigit)
    rw [heq]
    exact spelled_ok (.hex hmark hok.1 (List.all_eq_true.mp List.all_takeWhile) hok.2 hsuffix) _

/-- What is split off starts as a number if the text does. -/
theorem startsNumber_of_splitDecimal {cs text rest : List Char} {b : Bool} (hcs : startsNumber cs = true)
    (h : splitDecimal false cs = (b, text, rest)) : startsNumber text = true := by
  cases cs with
  | nil => cases hcs
  | cons c cs =>
    by_cases hc : Number.isDigit c = true
    · rw [splitDecimal_digit hc] at h
      cases h
      simp [startsNumber, hc]
    · simp only [startsNumber, hc, Bool.false_or, Bool.and_eq_true, beq_iff_eq] at hcs
      obtain ⟨rfl, hdigit⟩ := hcs
      cases cs with
      | nil => cases hdigit
      | cons d ds =>
        rw [splitDecimal_point, splitDecimal_digit hdigit] at h
        cases h
        exact hdigit

theorem spelled_readDecimal {cs : List Char} (hcs : startsNumber cs = true) : (readDecimal cs).Spelled := by
  unfold readDecimal
  split
  · rename_i text rest hsplit
    split
    · rename_i x hread
      have hagain := splitDecimal_lineEnd hsplit (.inl rfl)
      rw [List.append_nil] at hagain
      exact spelled_ok (.float (startsNumber_of_splitDecimal hcs hsplit) hagain hread) _
    · exact spelled_fault _ _ _
  · rename_i text rest hsplit
    dsimp only
    split
    · exact spelled_fault _ _ _
    · rename_i hlt
      obtain ⟨kind, suffix, more, hsuffix, heq⟩ :=
        integerSuffix_of_readSuffix (Number.ofDigits 10 text) text rest
      rw [heq]
      have hne : text ≠ [] := by
        rintro rfl
        cases startsNumber_of_splitDecimal hcs hsplit
      exact spelled_ok (.integer hne (isDigit_of_splitDecimal hsplit) (Nat.not_le.mp hlt) hsuffix) _

theorem spelled_readNumber {cs : List Char} (hcs : startsNumber cs = true) : (readNumber cs).Spelled := by
  unfold readNumber
  split
  · exact spelled_readHex (.inl rfl) _
  · exact spelled_readHex (.inr rfl) _
  · exact spelled_readDecimal hcs

theorem Reading.after_eq_ok_iff {α : Type} {r : Reading α} {skipped : List Char} {a : α} :
    (r.after skipped).found = .ok a ↔ r.found = .ok a := by
  obtain ⟨_ | b, taken, rest⟩ := r <;> simp [Reading.after, Except.mapError]

theorem Reading.map_eq_ok_iff {α β : Type} {r : Reading α} {f : α → β} {b : β} :
    (r.map f).found = .ok b ↔ ∃ a, r.found = .ok a ∧ f a = b := by
  obtain ⟨_ | a, taken, rest⟩ := r <;> simp [Reading.map, Except.map]

theorem quotedText_of_readStringBody {cs s : List Char} (h : (readStringBody cs).found = .ok s) :
    ∃ text, QuotedText text s ∧ (readStringBody cs).taken = text ++ ['"'] := by
  fun_induction readStringBody cs generalizing s with
  | case1 => cases h
  | case2 cs =>
    cases h
    exact ⟨[], .nil, rfl⟩
  | case3 => cases h
  | case4 => cases h
  | case5 e ds d hescape _ _ ih =>
    obtain ⟨s', hs', rfl⟩ := Reading.map_eq_ok_iff.1 (Reading.after_eq_ok_iff.1 h)
    obtain ⟨text, htext, htaken⟩ := ih hs'
    refine ⟨_, .cons (.escape hescape) htext, ?_⟩
    simp [Reading.after, Reading.map, htaken]
  | case6 => cases h
  | case7 c cs hquote hline hslash ih =>
    obtain ⟨s', hs', rfl⟩ := Reading.map_eq_ok_iff.1 (Reading.after_eq_ok_iff.1 h)
    obtain ⟨text, htext, htaken⟩ := ih hs'
    refine ⟨_, .cons (.plain hquote hline hslash) htext, ?_⟩
    simp [Reading.after, Reading.map, htaken]

theorem spelled_readStringLiteral (cs : List Char) : (readStringLiteral cs).Spelled := by
  intro kind h
  obtain ⟨s, hs, rfl⟩ := Reading.map_eq_ok_iff.1 (Reading.after_eq_ok_iff.1 h)
  obtain ⟨text, htext, htaken⟩ := quotedText_of_readStringBody hs
  have htaken : (readStringLiteral cs).taken = ['"'] ++ text ++ ['"'] := by
    simp [readStringLiteral, Reading.after, Reading.map, htaken]
  rw [htaken]
  exact .string htext

/-- A quoted character is spelled by what was taken for it. -/
theorem quoted_of_readQuotedChar {cs : List Char} {c : Char} (hcs : ∀ ds, cs ≠ '\'' :: ds)
    (h : (readQuotedChar cs).found = .ok c) : Quoted '\'' (readQuotedChar cs).taken c := by
  unfold readQuotedChar at h ⊢
  split at h
  · cases h
  · cases h
  · cases h
  · split at h
    · rename_i hescape
      cases h
      exact .escape hescape
    · cases h
  · rename_i c cs hline hlast hslash
    cases h
    refine .plain ?_ hline ?_
    · rintro rfl
      exact hcs _ rfl
    · rintro rfl
      cases cs with
      | nil => exact hlast rfl rfl
      | cons e cs => exact hslash e cs rfl rfl

theorem spelled_readCharLiteral (cs : List Char) : (readCharLiteral cs).Spelled := by
  unfold readCharLiteral
  split
  · exact spelled_fault _ _ _
  · rename_i hcs
    unfold readCharBody
    dsimp only
    split
    · intro kind h
      cases h
    · rename_i c rest hfound hrest
      split
      · rename_i hascii
        have hquoted := quoted_of_readQuotedChar hcs (Reading.after_eq_ok_iff.1 hfound)
        exact spelled_ok (.character hquoted hascii) _
      · exact spelled_fault _ _ _
    · exact spelled_fault _ _ _

theorem spelled_readLineComment (cs : List Char) : (readLineComment cs).Spelled := by
  intro kind h
  cases h
  refine .lineComment fun hmem => ?_
  have hne := List.all_eq_true.mp (List.all_takeWhile (p := (· != '\n')) (l := cs)) _ hmem
  cases hne

theorem not_infix_of_splitComment {cs text rest : List Char} (h : splitComment cs = some (text, rest)) :
    ¬ ['*', '/'] <:+: text := by
  fun_induction splitComment cs generalizing text with
  | case1 => cases h
  | case2 => 
    cases h
    decide
  | case3 c cs hmark ih =>
    obtain ⟨⟨inner, after⟩, hinner, heq⟩ := Option.map_eq_some_iff.mp h
    cases heq
    rw [List.infix_cons_iff, not_or]
    refine ⟨fun hstart => ?_, ih hinner⟩
    -- the mark would have ended the comment where it stands
    obtain ⟨rfl, more, rfl⟩ := (List.cons_prefix_cons.mp hstart)
    exact hmark _ rfl (splitComment_eq_some hinner).symm

theorem spelled_readBlockComment (cs : List Char) : (readBlockComment cs).Spelled := by
  unfold readBlockComment
  split
  · rename_i hsplit
    exact spelled_ok (.blockComment (not_infix_of_splitComment hsplit)) _
  · exact spelled_fault _ _ _

theorem spelled_readPunct (c : Char) (cs : List Char) : (readPunct c cs).Spelled := by
  unfold readPunct
  split
  · exact spelled_ok (.punct _) _
  · exact spelled_fault _ _ _

theorem spelled_readToken {cs : List Char} (hne : cs ≠ []) : (readToken cs).Spelled := by
  unfold readToken
  split
  · exact absurd rfl hne
  · exact spelled_readCharLiteral _
  · exact spelled_readStringLiteral _
  · exact spelled_readLineComment _
  · exact spelled_readBlockComment _
  · split
    · rename_i hstart
      exact spelled_readWord hstart _
    · split
      · rename_i hnumber
        exact spelled_readNumber hnumber
      · exact spelled_readPunct _ _

end MiniC
