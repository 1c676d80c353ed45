import MiniC.Text.Blank
import MiniC.Token.Tiling
import Mathlib

/-!
# The spelling of tokens

`Lexeme kind text` says that the characters `text` spell the token `kind`, one constructor for each
class of tokens and without a word about what follows. A spelling is read back as its token when the
line or the text ends after it (`Lexeme.readToken`).
-/

set_option autoImplicit false

namespace MiniC

/-! ### Kinds of characters -/

theorem isDigit_iff {c : Char} : Number.isDigit c = true ↔ 48 ≤ c.toNat ∧ c.toNat ≤ 57 := by
  simp [Number.isDigit, Char.le_def, UInt32.le_iff_toNat_le]

theorem isWordStart_iff {c : Char} :
    isWordStart c = true ↔
      (65 ≤ c.toNat ∧ c.toNat ≤ 90) ∨ (97 ≤ c.toNat ∧ c.toNat ≤ 122) ∨ c.toNat = 95 := by
  have hscore : c = '_' ↔ c.toNat = 95 := by
    rw [← Char.toNat_inj]
    rfl
  simp [isWordStart, Char.isAlpha, Char.isUpper, Char.isLower, UInt32.le_iff_toNat_le, hscore, or_assoc]

theorem not_isBlank {c : Char} (h : 33 ≤ c.toNat ∧ c.toNat ≤ 126) : Text.isBlank c = false := by
  simp only [Text.isBlank, Text.blanks, List.contains_eq_mem, List.mem_cons, List.not_mem_nil,
    or_false, decide_eq_false_iff_not]
  omega

/-! ### What follows a token -/

/-- A text that cannot go on a run of characters of some kind. -/
def Stops (p : Char → Bool) (tail : List Char) : Prop := ∀ c ∈ tail.head?, p c = false

/-- Nothing more stands on the line. -/
def LineEnd (tail : List Char) : Prop := tail = [] ∨ ∃ more, tail = '\n' :: more

theorem LineEnd.stops {tail : List Char} (h : LineEnd tail) {p : Char → Bool} (hp : p '\n' = false) :
    Stops p tail := by
  intro c hc
  obtain rfl | ⟨more, rfl⟩ := h
  · cases hc
  · cases hc
    exact hp

section Runs

variable {p : Char → Bool} {run tail : List Char}

theorem takeWhile_run (hrun : ∀ c ∈ run, p c = true) (ht : Stops p tail) :
    (run ++ tail).takeWhile p = run := by
  have hnone : tail.takeWhile p = [] := by
    cases tail with
    | nil => rfl
    | cons c cs => simp [ht c rfl]
  rw [List.takeWhile_append_of_pos hrun, hnone, List.append_nil]

theorem dropWhile_run (hrun : ∀ c ∈ run, p c = true) (ht : Stops p tail) :
    (run ++ tail).dropWhile p = tail := by
  have hall : tail.dropWhile p = tail := by
    cases tail with
    | nil => rfl
    | cons c cs => simp [ht c rfl]
  rw [List.dropWhile_append_of_pos hrun, hall]

end Runs

/-! ### The text of a decimal -/

/-- Whether a character can go on the text of a decimal. -/
def isDecimalPart (c : Char) : Bool := Number.isDigit c || c == '.' || c == 'e' || c == 'E'

/-- Whether a character is a sign. -/
def isSign (c : Char) : Bool := c == '+' || c == '-'

theorem splitDecimal_digit {c : Char} (h : Number.isDigit c = true) (float : Bool) (cs : List Char) :
    splitDecimal float (c :: cs) =
      ((splitDecimal float cs).1, c :: (splitDecimal float cs).2.1, (splitDecimal float cs).2.2) := by
  rw [splitDecimal.eq_def]
  simp [h]

theorem splitDecimal_point (cs : List Char) :
    splitDecimal false ('.' :: cs) =
      ((splitDecimal true cs).1, '.' :: (splitDecimal true cs).2.1, (splitDecimal true cs).2.2) := by
  rw [splitDecimal.eq_def]
  rfl

theorem splitDecimal_exponent {c : Char} (hc : c = 'e' ∨ c = 'E') (float : Bool) {cs : List Char}
    (hcs : Stops isSign cs) :
    splitDecimal float (c :: cs) =
      ((splitDecimal true cs).1, c :: (splitDecimal true cs).2.1, (splitDecimal true cs).2.2) := by
  have hdigit : Number.isDigit c = false := by obtain rfl | rfl := hc <;> rfl
  have hpoint : c ≠ '.' := by obtain rfl | rfl := hc <;> decide
  cases cs with
  | nil => simp [splitDecimal, hdigit, hpoint, hc]
  | cons d ds =>
    have hd := hcs d rfl
    simp only [isSign, Bool.or_eq_false_iff, beq_eq_false_iff_ne] at hd
    rw [splitDecimal.eq_def]
    simp [hdigit, hpoint, hc, hd]

theorem splitDecimal_signed {c sign : Char} (hc : c = 'e' ∨ c = 'E') (hsign : sign = '+' ∨ sign = '-')
    (float : Bool) (cs : List Char) :
    splitDecimal float (c :: sign :: cs) =
      ((splitDecimal true cs).1, c :: sign :: (splitDecimal true cs).2.1, (splitDecimal true cs).2.2) := by
  have hdigit : Number.isDigit c = false := by obtain rfl | rfl := hc <;> rfl
  have hpoint : c ≠ '.' := by obtain rfl | rfl := hc <;> decide
  rw [splitDecimal.eq_def]
  simp [hdigit, hpoint, hc, hsign]

theorem splitDecimal_stops {cs : List Char} (h : Stops isDecimalPart cs) (float : Bool) :
    splitDecimal float cs = (float, [], cs) := by
  cases cs with
  | nil => rfl
  | cons c cs =>
    have hc := h c rfl
    simp only [isDecimalPart, Bool.or_eq_false_iff, beq_eq_false_iff_ne] at hc
    rw [splitDecimal.eq_def]
    simp [hc]

/-- A run of digits is the text of a decimal if nothing goes on after it. -/
theorem splitDecimal_run {run tail : List Char} (hrun : ∀ c ∈ run, Number.isDigit c = true)
    (ht : Stops isDecimalPart tail) : splitDecimal false (run ++ tail) = (false, run, tail) := by
  induction run with
  | nil => exact splitDecimal_stops ht false
  | cons c run ih =>
    rw [List.cons_append, splitDecimal_digit (hrun c List.mem_cons_self),
      ih fun d hd => hrun d (List.mem_cons_of_mem _ hd)]

/-- What was split off is split off again when the line ends after it. -/
theorem splitDecimal_lineEnd {float b : Bool} {cs text rest tail : List Char}
    (h : splitDecimal float cs = (b, text, rest)) (ht : LineEnd tail) :
    splitDecimal float (text ++ tail) = (b, text, tail) := by
  have hstops : Stops isDecimalPart tail := ht.stops rfl
  fun_induction splitDecimal float cs generalizing b text rest with
  | case1 float =>
    cases h
    exact splitDecimal_stops hstops float
  | case2 float c cs hc _ _ _ eq ih =>
    cases h
    rw [List.cons_append, splitDecimal_digit hc, ih eq]
  | case3 float c cs hc hpoint _ _ _ eq ih =>
    cases h
    obtain ⟨rfl, rfl⟩ := hpoint
    rw [List.cons_append, splitDecimal_point, ih eq]
  | case4 float c hc hpoint hexp =>
    cases h
    rw [List.singleton_append, splitDecimal_exponent hexp float (ht.stops rfl),
      splitDecimal_stops hstops]
  | case5 float c hc hpoint hexp sign ds hsign _ _ _ eq ih =>
    cases h
    rw [List.cons_append, List.cons_append, splitDecimal_signed hexp hsign, ih eq]
  | case6 float c hc hpoint hexp sign ds hsign _ text _ eq ih =>
    cases h
    -- the character after the mark is no sign, whether it was split off or is the end of the line
    have hunsigned : Stops isSign (text ++ tail) := by
      have htiles := splitDecimal_tiles true (sign :: ds)
      rw [eq] at htiles
      cases text with
      | nil => exact ht.stops rfl
      | cons d text =>
        cases htiles
        intro d hd
        cases hd
        simpa [isSign] using hsign
    rw [List.cons_append, splitDecimal_exponent hexp float hunsigned, ih eq]
  | case7 float c cs hc hpoint hexp =>
    cases h
    exact splitDecimal_stops hstops float

theorem splitDecimal_true {float : Bool} (hfloat : float = true) (cs : List Char) :
    (splitDecimal float cs).1 = true := by
  fun_induction splitDecimal float cs with
  | case1 => exact hfloat
  | case2 float c cs _ _ _ _ eq ih => simpa [eq] using ih hfloat
  | case3 float c cs _ hpoint => simp [hfloat] at hpoint
  | case4 => rfl
  | case5 float c _ _ _ sign ds _ _ _ _ eq ih => simpa [eq] using ih
  | case6 float c _ _ _ sign ds _ _ _ _ eq ih => simpa [eq] using ih
  | case7 => exact hfloat

/-- A text without a point and an exponent is a run of digits. -/
theorem isDigit_of_splitDecimal {float : Bool} {cs text rest : List Char}
    (h : splitDecimal float cs = (false, text, rest)) : ∀ c ∈ text, Number.isDigit c = true := by
  have hfalse : ∀ {cs text rest}, splitDecimal true cs ≠ (false, text, rest) := by
    intro cs text rest heq
    have htrue := splitDecimal_true rfl cs
    rw [heq] at htrue
    cases htrue
  fun_induction splitDecimal float cs generalizing text rest with
  | case1 =>
    cases h
    exact fun _ hc => absurd hc List.not_mem_nil
  | case2 float c cs hc _ _ _ eq ih =>
    cases h
    exact List.forall_mem_cons.mpr ⟨hc, ih eq⟩
  | case3 float c cs _ _ _ _ _ eq =>
    cases h
    exact absurd eq hfalse
  | case4 => cases h
  | case5 float c _ _ _ sign ds _ _ _ _ eq =>
    cases h
    exact absurd eq hfalse
  | case6 float c _ _ _ sign ds _ _ _ _ eq =>
    cases h
    exact absurd eq hfalse
  | case7 =>
    cases h
    exact fun _ hc => absurd hc List.not_mem_nil

/-! ### Spellings -/

/-- Whether a character marks a `long`. -/
def isLongMark (c : Char) : Bool := c == 'l' || c == 'L'

/-- The marks after an integer of known value, and the token it is with them. -/
inductive IntegerSuffix (n : Nat) : TokenKind → List Char → Prop
  | narrow : n < 0x80000000 → IntegerSuffix n (.intLit (Int64.ofNat n)) []
  | wide : ¬ n < 0x80000000 → IntegerSuffix n (.longLit (Int64.ofNat n)) []
  | lower : IntegerSuffix n (.longLit (Int64.ofNat n)) ['l']
  | upper : IntegerSuffix n (.longLit (Int64.ofNat n)) ['L']

/-- The spelling of one character inside quotes. -/
inductive Quoted (quote : Char) : List Char → Char → Prop
  | plain {c : Char} : c ≠ quote → c ≠ '\n' → c ≠ '\\' → Quoted quote [c] c
  | escape {e c : Char} : unescape? e = some c → Quoted quote ['\\', e] c

/-- The spelling of the characters of a string literal. -/
inductive QuotedText : List Char → List Char → Prop
  | nil : QuotedText [] []
  | cons {piece text : List Char} {c : Char} {cs : List Char} :
      Quoted '"' piece c → QuotedText text cs → QuotedText (piece ++ text) (c :: cs)

/-- Whether a text starts as a number does: with a digit, or with a point before one. -/
def startsNumber : List Char → Bool
  | [] => false
  | c :: cs => Number.isDigit c || (c == '.' && startsWithDigit cs)

/-- The characters spell the token. -/
inductive Lexeme : TokenKind → List Char → Prop
  | word {c : Char} {cs : List Char} :
      isWordStart c = true → (∀ d ∈ cs, isWordPart d = true) →
      Lexeme (wordKind (String.ofList (c :: cs))) (c :: cs)
  | hex {mark : Char} {digits suffix : List Char} {kind : TokenKind} :
      mark = 'x' ∨ mark = 'X' → digits ≠ [] → (∀ d ∈ digits, Number.isHexDigit d = true) →
      Number.ofDigits 16 digits < 0x8000000000000000 →
      IntegerSuffix (Number.ofDigits 16 digits) kind suffix →
      Lexeme kind (['0', mark] ++ digits ++ suffix)
  | integer {digits suffix : List Char} {kind : TokenKind} :
      digits ≠ [] → (∀ d ∈ digits, Number.isDigit d = true) →
      Number.ofDigits 10 digits < 0x8000000000000000 →
      IntegerSuffix (Number.ofDigits 10 digits) kind suffix →
      Lexeme kind (digits ++ suffix)
  | float {text : List Char} {x : Float} :
      startsNumber text = true → splitDecimal false text = (true, text, []) →
      Number.readDecimal? text = some x → Lexeme (.floatLit x) text
  | character {piece : List Char} {c : Char} :
      Quoted '\'' piece c → c.toNat < 128 →
      Lexeme (.charLit c.toUInt8) (['\''] ++ piece ++ ['\''])
  | string {text cs : List Char} :
      QuotedText text cs → Lexeme (.stringLit (String.ofList cs)) (['"'] ++ text ++ ['"'])
  | lineComment {text : List Char} :
      '\n' ∉ text → Lexeme (.lineComment (String.ofList text)) (['/', '/'] ++ text)
  | blockComment {text : List Char} :
      ¬ ['*', '/'] <:+: text →
      Lexeme (.blockComment (String.ofList text)) (['/', '*'] ++ text ++ ['*', '/'])
  | punct (p : Punct) : Lexeme (.punct p) p.text.toList

/-! ### A spelling is read back -/

section Suffix

variable {n : Nat} {kind : TokenKind} {suffix tail : List Char}

/-- A suffix is read where it stands, and none is found where no mark of a `long` follows. -/
theorem IntegerSuffix.readSuffix (h : IntegerSuffix n kind suffix)
    (ht : suffix = [] → Stops isLongMark tail) (digits : List Char) :
    readSuffix n digits (suffix ++ tail) = .ok kind (digits ++ suffix) tail := by
  have hplain : Stops isLongMark tail → MiniC.readSuffix n digits tail =
      if n < 0x80000000 then .ok (.intLit (Int64.ofNat n)) digits tail
      else .ok (.longLit (Int64.ofNat n)) digits tail := by
    intro ht
    unfold MiniC.readSuffix
    split
    · exact absurd (ht 'l' rfl) (by decide)
    · exact absurd (ht 'L' rfl) (by decide)
    · rfl
  cases h with
  | narrow hn => rw [List.nil_append, List.append_nil, hplain (ht rfl), if_pos hn]
  | wide hn => rw [List.nil_append, List.append_nil, hplain (ht rfl), if_neg hn]
  | lower => rfl
  | upper => rfl

theorem IntegerSuffix.stops (h : IntegerSuffix n kind suffix) {p : Char → Bool} (hl : p 'l' = false)
    (hL : p 'L' = false) (ht : suffix = [] → Stops p tail) : Stops p (suffix ++ tail) := by
  cases h with
  | narrow => exact ht rfl
  | wide => exact ht rfl
  | lower => exact fun c hc => by cases hc; exact hl
  | upper => exact fun c hc => by cases hc; exact hL

/-- A run of hexadecimal digits is read whole, and its suffix if its value fits. -/
theorem readHex_run {digits : List Char} (hne : digits ≠ [])
    (hdigits : ∀ d ∈ digits, Number.isHexDigit d = true) (ht : Stops Number.isHexDigit tail)
    (marks : List Char) :
    readHex marks (digits ++ tail) =
      if 0x8000000000000000 ≤ Number.ofDigits 16 digits then
        .fault (.badHex (String.ofList digits)) (marks ++ digits) tail
      else readSuffix (Number.ofDigits 16 digits) (marks ++ digits) tail := by
  unfold readHex
  simp only [takeWhile_run hdigits ht, dropWhile_run hdigits ht, hne, false_or]

theorem readDecimal_run {digits : List Char} (hdigits : ∀ d ∈ digits, Number.isDigit d = true)
    (ht : Stops isDecimalPart tail) :
    readDecimal (digits ++ tail) =
      if 0x8000000000000000 ≤ Number.ofDigits 10 digits then
        .fault (.badInteger (String.ofList digits)) digits tail
      else readSuffix (Number.ofDigits 10 digits) digits tail := by
  unfold readDecimal
  rw [splitDecimal_run hdigits ht]

end Suffix

/-! ### Quoted characters -/

section Quotes

variable {piece text tail : List Char} {c : Char} {cs : List Char}

theorem Quoted.readStringBody (h : Quoted '"' piece c) (rest : List Char) :
    readStringBody (piece ++ rest) = ((readStringBody rest).map (c :: ·)).after piece := by
  cases h with
  | plain hquote hline hslash =>
    rw [List.singleton_append, readStringBody.eq_def]
    simp [hquote, hline, hslash]
  | @escape e _ he =>
    rw [List.cons_append, List.singleton_append, readStringBody.eq_def]
    simp [he]

theorem QuotedText.readStringBody (h : QuotedText text cs) (tail : List Char) :
    readStringBody (text ++ '"' :: tail) = .ok cs (text ++ ['"']) tail := by
  induction h with
  | nil =>
    rw [List.nil_append, readStringBody.eq_def]
    rfl
  | cons hpiece _ ih =>
    rw [List.append_assoc, hpiece.readStringBody, ih, List.append_assoc]
    rfl

theorem Quoted.readQuotedChar {quote : Char} (h : Quoted quote piece c) (rest : List Char) :
    readQuotedChar (piece ++ rest) = .ok c piece rest := by
  cases h with
  | plain hquote hline hslash =>
    rw [List.singleton_append]
    unfold MiniC.readQuotedChar
    split <;> simp_all
  | escape he => simp [MiniC.readQuotedChar, he]

/-- The spelling of a character does not begin with its quote. -/
theorem Quoted.ne_quote {quote : Char} (hquote : quote ≠ '\\') (h : Quoted quote piece c) :
    ∃ d ds, piece = d :: ds ∧ d ≠ quote := by
  cases h with
  | plain hne => exact ⟨_, _, rfl, hne⟩
  | escape => exact ⟨_, _, rfl, hquote.symm⟩

theorem Quoted.readCharLiteral (h : Quoted '\'' piece c) (hc : c.toNat < 128) (tail : List Char) :
    readCharLiteral (piece ++ '\'' :: tail) = .ok (.charLit c.toUInt8) (['\''] ++ piece ++ ['\'']) tail := by
  have hbody : readCharBody (piece ++ '\'' :: tail) =
      .ok (.charLit c.toUInt8) (['\''] ++ piece ++ ['\'']) tail := by
    unfold readCharBody
    rw [h.readQuotedChar]
    simp [Reading.ok, Reading.after, Except.mapError, hc]
  obtain ⟨d, ds, rfl, hd⟩ := h.ne_quote (by decide)
  rw [List.cons_append] at hbody ⊢
  unfold MiniC.readCharLiteral
  split
  · rename_i heq
    exact absurd (List.cons.inj heq).1 hd
  · exact hbody

end Quotes

/-! ### Comments -/

theorem splitComment_append {text : List Char} (h : ¬ ['*', '/'] <:+: text) (tail : List Char) :
    splitComment (text ++ '*' :: '/' :: tail) = some (text, tail) := by
  induction text with
  | nil => rfl
  | cons c text ih =>
    have hrest : ¬ ['*', '/'] <:+: text := fun hin => h (List.infix_cons hin)
    rw [List.cons_append, splitComment.eq_def]
    split
    · rename_i heq
      cases heq
    · rename_i rest heq
      -- the text would hold the end mark
      obtain ⟨rfl, heq⟩ := List.cons.inj heq
      cases text with
      | nil => cases heq
      | cons d text =>
        cases heq
        exact absurd (List.prefix_append ['*', '/'] text).isInfix h
    · rename_i heq
      cases heq
      rw [ih hrest]
      rfl

theorem readBlockComment_append {text : List Char} (h : ¬ ['*', '/'] <:+: text) (tail : List Char) :
    readBlockComment (text ++ '*' :: '/' :: tail) =
      .ok (.blockComment (String.ofList text)) (['/', '*'] ++ text ++ ['*', '/']) tail := by
  unfold readBlockComment
  rw [splitComment_append h]

theorem readLineComment_append {text tail : List Char} (h : '\n' ∉ text) (ht : LineEnd tail) :
    readLineComment (text ++ tail) =
      .ok (.lineComment (String.ofList text)) (['/', '/'] ++ text) tail := by
  have hrun : ∀ c ∈ text, (c != '\n') = true := by
    intro c hc
    simp only [bne_iff_ne, ne_eq]
    rintro rfl
    exact h hc
  have hstops : Stops (· != '\n') tail := ht.stops rfl
  unfold readLineComment
  rw [takeWhile_run hrun hstops, dropWhile_run hrun hstops]
  rfl

/-! ### Any token -/

theorem readToken_cons {c : Char} (hquote : c ≠ '\'') (hdouble : c ≠ '"') (hslash : c ≠ '/')
    (cs : List Char) :
    readToken (c :: cs) =
      if isWordStart c then readWord (c :: cs)
      else if startsNumber (c :: cs) then readNumber (c :: cs)
      else readPunct c cs := by
  unfold readToken
  split <;> simp_all [startsNumber]

theorem readToken_word {c : Char} (hc : isWordStart c = true) (cs : List Char) :
    readToken (c :: cs) = readWord (c :: cs) := by
  rw [readToken_cons, if_pos hc]
  all_goals
    rintro rfl
    cases hc

theorem not_isWordStart_of_isDigit {c : Char} (h : Number.isDigit c = true) : isWordStart c = false := by
  rw [isDigit_iff] at h
  rw [Bool.eq_false_iff, ne_eq, isWordStart_iff]
  omega

theorem readToken_number {cs : List Char} (hcs : startsNumber cs = true) :
    readToken cs = readNumber cs := by
  cases cs with
  | nil => cases hcs
  | cons c cs =>
    have hc : Number.isDigit c = true ∨ c = '.' := by
      simp only [startsNumber, Bool.or_eq_true, Bool.and_eq_true, beq_iff_eq] at hcs
      exact hcs.imp_right And.left
    have hword : isWordStart c = false := by
      obtain hc | rfl := hc
      · exact not_isWordStart_of_isDigit hc
      · rfl
    rw [readToken_cons, hword, if_neg (by decide), if_pos hcs]
    all_goals
      rintro rfl
      exact absurd hc (by decide)

/-- Whether a character marks a hexadecimal literal. -/
def isHexMark (c : Char) : Bool := c == 'x' || c == 'X'

/-- A number is a decimal unless a hexadecimal mark follows a zero that is its first digit. -/
theorem readNumber_decimal {cs text rest : List Char} {b : Bool}
    (h : splitDecimal false cs = (b, text, rest)) (hrest : text = ['0'] → Stops isHexMark rest) :
    readNumber cs = readDecimal cs := by
  have hmark : ∀ mark ds, mark = 'x' ∨ mark = 'X' → cs ≠ '0' :: mark :: ds := by
    rintro mark ds hmark rfl
    have hstops : Stops isDecimalPart (mark :: ds) := by
      intro c hc
      cases hc
      obtain rfl | rfl := hmark <;> rfl
    rw [splitDecimal_digit rfl, splitDecimal_stops hstops] at h
    cases h
    obtain rfl | rfl := hmark <;> exact absurd (hrest rfl _ rfl) (by decide)
  unfold readNumber
  split
  · exact absurd rfl (hmark 'x' _ (.inl rfl))
  · exact absurd rfl (hmark 'X' _ (.inr rfl))
  · rfl

theorem startsNumber_append {text : List Char} (h : startsNumber text = true) (tail : List Char) :
    startsNumber (text ++ tail) = true := by
  cases text with
  | nil => cases h
  | cons c cs =>
    cases cs with
    | nil => simp_all [startsNumber, startsWithDigit]
    | cons d ds => exact h

/-- A token's spelling is read as the token when the line ends after it. -/
theorem Lexeme.readToken {kind : TokenKind} {text tail : List Char} (h : Lexeme kind text)
    (ht : LineEnd tail) : readToken (text ++ tail) = .ok kind text tail := by
  cases h with
  | @word c cs hc hcs =>
    have hrun : ∀ d ∈ c :: cs, isWordPart d = true :=
      List.forall_mem_cons.mpr ⟨isWordPart_of_isWordStart hc, hcs⟩
    have hstops : Stops isWordPart tail := ht.stops rfl
    rw [List.cons_append, readToken_word hc, ← List.cons_append]
    unfold readWord
    rw [takeWhile_run hrun hstops, dropWhile_run hrun hstops]
  | @hex mark digits suffix _ hmark hne hdigits hlt hsuffix =>
    have hstops : Stops Number.isHexDigit (suffix ++ tail) :=
      hsuffix.stops rfl rfl fun _ => ht.stops rfl
    have hread : ∀ marks, readHex marks (digits ++ (suffix ++ tail)) = .ok kind (marks ++ digits ++ suffix) tail := by
      intro marks
      rw [readHex_run hne hdigits hstops, if_neg (by omega)]
      exact hsuffix.readSuffix (fun _ => ht.stops rfl) _
    rw [List.append_assoc, List.append_assoc, readToken_number rfl]
    obtain rfl | rfl := hmark
    · exact hread ['0', 'x']
    · exact hread ['0', 'X']
  | @integer digits suffix _ hne hdigits hlt hsuffix =>
    obtain ⟨d, ds, rfl⟩ := List.exists_cons_of_ne_nil hne
    have hstart : startsNumber (d :: ds) = true := by
      simp [startsNumber, hdigits d List.mem_cons_self]
    have hstops : ∀ p : Char → Bool, p 'l' = false → p 'L' = false → p '\n' = false →
        Stops p (suffix ++ tail) := fun p hl hL hline => hsuffix.stops hl hL fun _ => ht.stops hline
    have hsplit := splitDecimal_run hdigits (hstops isDecimalPart rfl rfl rfl)
    rw [List.append_assoc, readToken_number (startsNumber_append hstart _),
      readNumber_decimal hsplit fun _ => hstops isHexMark rfl rfl rfl,
      readDecimal_run hdigits (hstops _ rfl rfl rfl), if_neg (by omega)]
    exact hsuffix.readSuffix (fun _ => ht.stops rfl) _
  | float hstart hsplit hread =>
    have hsplit := splitDecimal_lineEnd hsplit ht
    rw [readToken_number (startsNumber_append hstart _), readNumber_decimal hsplit fun _ => ht.stops rfl]
    unfold readDecimal
    simp only [hsplit, hread]
  | character hpiece hc =>
    rw [List.append_assoc, List.append_assoc]
    exact hpiece.readCharLiteral hc tail
  | string htext =>
    rw [List.append_assoc, List.append_assoc, List.singleton_append, List.singleton_append]
    show readStringLiteral _ = _
    unfold readStringLiteral
    rw [htext.readStringBody]
    rfl
  | lineComment hline => exact readLineComment_append hline ht
  | blockComment hmark =>
    rw [List.append_assoc, List.append_assoc]
    exact readBlockComment_append hmark tail
  | punct p => cases p <;> obtain rfl | ⟨more, rfl⟩ := ht <;> rfl

theorem Lexeme.starts {kind : TokenKind} {text : List Char} (h : Lexeme kind text) :
    ∃ c cs, text = c :: cs ∧ Text.isBlank c = false := by
  cases h with
  | word hc _ =>
    rw [isWordStart_iff] at hc
    exact ⟨_, _, rfl, not_isBlank (by omega)⟩
  | hex => exact ⟨_, _, rfl, rfl⟩
  | integer hne hdigits =>
    obtain ⟨d, ds, rfl⟩ := List.exists_cons_of_ne_nil hne
    have hd := isDigit_iff.1 (hdigits d List.mem_cons_self)
    exact ⟨_, _, rfl, not_isBlank (by omega)⟩
  | @float text _ hstart =>
    cases text with
    | nil => cases hstart
    | cons c cs =>
      simp only [startsNumber, Bool.or_eq_true, Bool.and_eq_true, beq_iff_eq, isDigit_iff] at hstart
      refine ⟨c, cs, rfl, ?_⟩
      obtain hc | ⟨rfl, _⟩ := hstart
      · exact not_isBlank (by omega)
      · rfl
  | character => exact ⟨_, _, rfl, rfl⟩
  | string => exact ⟨_, _, rfl, rfl⟩
  | lineComment => exact ⟨_, _, rfl, rfl⟩
  | blockComment => exact ⟨_, _, rfl, rfl⟩
  | punct p => cases p <;> exact ⟨_, _, rfl, rfl⟩

end MiniC
