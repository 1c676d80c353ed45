import MiniC.Token.Reading

/-!
# A token and the rest are the text

`readToken_tiles`: what a reading took, followed by the rest, is the text it was given, whether a
token was found or not. `readToken_taken_ne_nil`: at a text that is not empty a reading takes at
least one character. Together they bound the reading of a whole text (`readToken_rest_lt`).
-/

set_option autoImplicit false

namespace MiniC

theorem readWord_tiles (cs : List Char) : (readWord cs).Tiles cs :=
  List.takeWhile_append_dropWhile

theorem readSuffix_tiles (n : Nat) (digits rest : List Char) :
    (readSuffix n digits rest).Tiles (digits ++ rest) := by
  unfold readSuffix
  split
  · simp
  · simp
  · split <;> simp

theorem readHex_tiles (marks cs : List Char) : (readHex marks cs).Tiles (marks ++ cs) := by
  have split : cs.takeWhile Number.isHexDigit ++ cs.dropWhile Number.isHexDigit = cs :=
    List.takeWhile_append_dropWhile
  unfold readHex
  dsimp only
  split
  · simp [split]
  · have tiles := readSuffix_tiles (Number.ofDigits 16 (cs.takeWhile Number.isHexDigit))
      (marks ++ cs.takeWhile Number.isHexDigit) (cs.dropWhile Number.isHexDigit)
    rwa [List.append_assoc, split] at tiles

theorem splitDecimal_tiles (float : Bool) (cs : List Char) :
    (splitDecimal float cs).2.1 ++ (splitDecimal float cs).2.2 = cs := by
  fun_induction splitDecimal float cs with
  | case1 => rfl
  | case2 _ _ _ _ _ _ _ eq ih => simpa [eq] using ih
  | case3 _ _ _ _ _ _ _ _ eq ih => simpa [eq] using ih
  | case4 => rfl
  | case5 _ _ _ _ _ _ _ _ _ _ _ eq ih => simpa [eq] using ih
  | case6 _ _ _ _ _ _ _ _ _ _ _ eq ih => simpa [eq] using ih
  | case7 => rfl

theorem readDecimal_tiles (cs : List Char) : (readDecimal cs).Tiles cs := by
  have tiles := splitDecimal_tiles false cs
  unfold readDecimal
  split
  · next text rest eq =>
    rw [eq] at tiles
    split <;> simpa using tiles
  · next text rest eq =>
    rw [eq] at tiles
    dsimp only
    split
    · simpa using tiles
    · have suffix := readSuffix_tiles (Number.ofDigits 10 text) text rest
      rwa [tiles] at suffix

theorem readNumber_tiles (cs : List Char) : (readNumber cs).Tiles cs := by
  unfold readNumber
  split
  · exact readHex_tiles ['0', 'x'] _
  · exact readHex_tiles ['0', 'X'] _
  · exact readDecimal_tiles _

theorem readStringBody_tiles (cs : List Char) : (readStringBody cs).Tiles cs := by
  fun_induction readStringBody cs with
  | case1 => simp
  | case2 => simp
  | case3 => simp
  | case4 => simp
  | case5 e ds d _ _ _ ih => exact Reading.Tiles.after (Reading.tiles_map .. |>.mpr ih) ['\\', e]
  | case6 => simp
  | case7 c cs _ _ _ ih => exact Reading.Tiles.after (Reading.tiles_map .. |>.mpr ih) [c]

theorem readQuotedChar_tiles (cs : List Char) : (readQuotedChar cs).Tiles cs := by
  unfold readQuotedChar
  split
  · simp
  · simp
  · simp
  · split <;> simp
  · simp

theorem readCharBody_tiles (cs : List Char) : (readCharBody cs).Tiles ('\'' :: cs) := by
  have tiles : ((readQuotedChar cs).after ['\'']).Tiles ('\'' :: cs) :=
    (readQuotedChar_tiles cs).after ['\'']
  unfold readCharBody
  generalize (readQuotedChar cs).after ['\''] = quoted at tiles
  dsimp only
  split
  · exact tiles
  · next c rest _ restEq =>
    have closed : (quoted.taken ++ ['\'']) ++ rest = '\'' :: cs := by
      rw [List.append_assoc, List.singleton_append, ← restEq]
      exact tiles
    split <;> simpa using closed
  · exact tiles

theorem readCharLiteral_tiles (cs : List Char) : (readCharLiteral cs).Tiles ('\'' :: cs) := by
  unfold readCharLiteral
  split
  · simp
  · exact readCharBody_tiles _

theorem readStringLiteral_tiles (cs : List Char) : (readStringLiteral cs).Tiles ('"' :: cs) :=
  Reading.Tiles.after (Reading.tiles_map .. |>.mpr (readStringBody_tiles cs)) ['"']

theorem readLineComment_tiles (cs : List Char) : (readLineComment cs).Tiles ('/' :: '/' :: cs) := by
  have split : cs.takeWhile (· != '\n') ++ cs.dropWhile (· != '\n') = cs :=
    List.takeWhile_append_dropWhile
  exact congrArg (fun tail => '/' :: '/' :: tail) split

theorem splitComment_eq_some {cs text rest : List Char} (h : splitComment cs = some (text, rest)) :
    text ++ ['*', '/'] ++ rest = cs := by
  fun_induction splitComment cs generalizing text with
  | case1 => cases h
  | case2 => cases h; rfl
  | case3 c cs _ ih =>
    obtain ⟨⟨inner, after⟩, found, eq⟩ := Option.map_eq_some_iff.mp h
    cases eq
    rw [← ih found]
    rfl

theorem readBlockComment_tiles (cs : List Char) :
    (readBlockComment cs).Tiles ('/' :: '*' :: cs) := by
  unfold readBlockComment
  split
  · next text rest eq =>
    have tiles := splitComment_eq_some eq
    simpa using tiles
  · simp

theorem punctAt?_eq_some {cs rest : List Char} {p : Punct} (h : punctAt? cs = some (p, rest)) :
    p.text.toList ++ rest = cs := by
  unfold punctAt? at h
  split at h <;> cases h <;> rfl

theorem readPunct_tiles (c : Char) (cs : List Char) : (readPunct c cs).Tiles (c :: cs) := by
  unfold readPunct
  split
  · next p rest eq => exact punctAt?_eq_some eq
  · rfl

/-- What a reading took, followed by the rest, is the text. -/
theorem readToken_tiles (cs : List Char) : (readToken cs).Tiles cs := by
  unfold readToken
  split
  · rfl
  · exact readCharLiteral_tiles _
  · exact readStringLiteral_tiles _
  · exact readLineComment_tiles _
  · exact readBlockComment_tiles _
  · split
    · exact readWord_tiles _
    · split
      · exact readNumber_tiles _
      · exact readPunct_tiles _ _

/-! ### Progress -/

theorem isWordPart_of_isWordStart {c : Char} (h : isWordStart c = true) : isWordPart c = true := by
  simp only [isWordStart, isWordPart, Char.isAlphanum, Bool.or_eq_true] at h ⊢
  exact h.elim (fun alpha => .inl (.inl alpha)) .inr

theorem readWord_taken_ne_nil {c : Char} {cs : List Char} (h : isWordStart c = true) :
    (readWord (c :: cs)).taken ≠ [] := by
  simp [readWord, Reading.ok, isWordPart_of_isWordStart h]

theorem readSuffix_taken_ne_nil {n : Nat} {digits : List Char} (h : digits ≠ [])
    (rest : List Char) : (readSuffix n digits rest).taken ≠ [] := by
  unfold readSuffix
  split
  · simp [Reading.ok]
  · simp [Reading.ok]
  · split <;> exact h

theorem readHex_taken_ne_nil {marks : List Char} (h : marks ≠ []) (cs : List Char) :
    (readHex marks cs).taken ≠ [] := by
  have longer : marks ++ cs.takeWhile Number.isHexDigit ≠ [] :=
    List.append_ne_nil_of_left_ne_nil h _
  unfold readHex
  dsimp only
  split
  · exact longer
  · exact readSuffix_taken_ne_nil longer _

theorem splitDecimal_ne_nil {c : Char} (cs : List Char) (h : Number.isDigit c = true ∨ c = '.') :
    (splitDecimal false (c :: cs)).2.1 ≠ [] := by
  unfold splitDecimal
  by_cases digit : Number.isDigit c = true
  · simp [digit]
  · have point : c = '.' := h.resolve_left digit
    rw [point] at digit ⊢
    simp [digit]

theorem readDecimal_taken_ne_nil {c : Char} (cs : List Char)
    (h : Number.isDigit c = true ∨ c = '.') : (readDecimal (c :: cs)).taken ≠ [] := by
  have text_ne := splitDecimal_ne_nil cs h
  unfold readDecimal
  split
  · next text rest eq =>
    rw [eq] at text_ne
    split <;> exact text_ne
  · next text rest eq =>
    rw [eq] at text_ne
    dsimp only
    split
    · exact text_ne
    · exact readSuffix_taken_ne_nil text_ne _

theorem readNumber_taken_ne_nil {c : Char} (cs : List Char)
    (h : Number.isDigit c = true ∨ c = '.') : (readNumber (c :: cs)).taken ≠ [] := by
  unfold readNumber
  split
  · exact readHex_taken_ne_nil (by simp) _
  · exact readHex_taken_ne_nil (by simp) _
  · exact readDecimal_taken_ne_nil cs h

theorem readCharBody_taken_ne_nil (cs : List Char) : (readCharBody cs).taken ≠ [] := by
  unfold readCharBody
  dsimp only
  split
  · simp [Reading.after]
  · split <;> simp [Reading.ok, Reading.fault, Reading.after]
  · simp [Reading.fault, Reading.after]

theorem readBlockComment_taken_ne_nil (cs : List Char) : (readBlockComment cs).taken ≠ [] := by
  unfold readBlockComment
  split <;> simp [Reading.ok, Reading.fault]

theorem Punct.text_ne_nil (p : Punct) : p.text.toList ≠ [] := by
  cases p <;> decide

theorem readPunct_taken_ne_nil (c : Char) (cs : List Char) : (readPunct c cs).taken ≠ [] := by
  unfold readPunct
  split
  · next p _ _ => exact p.text_ne_nil
  · simp [Reading.fault]

/-- At a text that is not empty a reading takes at least one character. -/
theorem readToken_taken_ne_nil {cs : List Char} (h : cs ≠ []) : (readToken cs).taken ≠ [] := by
  unfold readToken
  split
  · exact absurd rfl h
  · unfold readCharLiteral
    split
    · simp [Reading.fault]
    · exact readCharBody_taken_ne_nil _
  · simp [readStringLiteral, Reading.after]
  · simp [readLineComment, Reading.after]
  · exact readBlockComment_taken_ne_nil _
  · split
    · next start => exact readWord_taken_ne_nil start
    · split
      · next number =>
        refine readNumber_taken_ne_nil _ ?_
        simp only [Bool.or_eq_true, Bool.and_eq_true, beq_iff_eq] at number
        exact number.imp_right And.left
      · exact readPunct_taken_ne_nil _ _

/-- Reading a token shortens a text that is not empty. -/
theorem readToken_rest_lt {cs : List Char} (h : cs ≠ []) :
    (readToken cs).rest.length < cs.length := by
  have tiles : (readToken cs).taken ++ (readToken cs).rest = cs := readToken_tiles cs
  have some_taken : 0 < (readToken cs).taken.length :=
    List.length_pos_iff.mpr (readToken_taken_ne_nil h)
  have total := congrArg List.length tiles
  rw [List.length_append] at total
  omega

end MiniC
