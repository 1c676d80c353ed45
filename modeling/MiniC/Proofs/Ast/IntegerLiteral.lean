import MiniC.Proofs.Ast.Climbing
import MiniC.Proofs.Token.Display

/-!
# Integer literals keep their value

A natural number can be written in decimal or in hexadecimal, with zeros in front of it and with hexadecimal
letters of either case (`Numeral`). Whichever way it is written, the scanner gives a token of its value if that
is below `2 ^ 63` and a fault at its first character if not, and the parser makes a literal of that value from
the token. An `intLit` is below `2 ^ 31`, so nothing is lost when the parser narrows it.
-/

set_option autoImplicit false

namespace MiniC

/-! ### Numerals -/

/-- The text is the number `n`, and would go on with the characters of which `more` is true. -/
inductive Numeral (n : Nat) : List Char → (Char → Bool) → Prop
  | decimal {digits : List Char} (zeros : Nat)
      (h : digits = List.replicate zeros '0' ++ Nat.toDigits 10 n) :
      Numeral n digits fun c => isDecimalPart c || (digits == ['0'] && isHexMark c)
  | hex {mark : Char} {digits : List Char} (zeros : Nat) (hmark : mark = 'x' ∨ mark = 'X')
      (h : digits.map Char.toLower = List.replicate zeros '0' ++ Nat.toDigits 16 n) :
      Numeral n ('0' :: mark :: digits) Number.isHexDigit

section Digits

variable {n zeros : Nat} {digits : List Char}

theorem ofDigits_zeros (b zeros : Nat) (digits : List Char) :
    Number.ofDigits b (List.replicate zeros '0' ++ digits) = Number.ofDigits b digits := by
  induction zeros with
  | zero => rfl
  | succ zeros ih =>
    have hzero : 0 * b + Number.digitValue '0' = 0 := by rw [Nat.zero_mul]; rfl
    rw [List.replicate_succ, List.cons_append, Number.ofDigits, List.foldl_cons, hzero]
    exact ih

theorem isDigit_of_decimal (h : digits = List.replicate zeros '0' ++ Nat.toDigits 10 n) :
    ∀ d ∈ digits, Number.isDigit d = true := by
  intro d hd
  rw [h] at hd
  rcases List.mem_append.mp hd with hd | hd
  · rw [List.eq_of_mem_replicate hd]
    rfl
  · exact isDigit_of_mem_toDigits hd

theorem exists_digit_of_mem_toDigits {b : Nat} (hb : 1 < b) {c : Char} (h : c ∈ Nat.toDigits b n) :
    ∃ d < b, c = d.digitChar := by
  induction n using Nat.strongRecOn with
  | ind n ih =>
    rw [Nat.toDigits_eq_if hb] at h
    split at h
    · exact ⟨n, ‹_›, List.mem_singleton.mp h⟩
    · rcases List.mem_append.mp h with h | h
      · exact ih (n / b) (Nat.div_lt_self (by omega) hb) h
      · exact ⟨n % b, Nat.mod_lt n (by omega), List.mem_singleton.mp h⟩

/-- A character is a hexadecimal digit if it is one in lower case, and of the same value. -/
theorem hexDigit_of_toLower {c : Char} {d : Nat} (hd : d < 16) (h : c.toLower = d.digitChar) :
    Number.isHexDigit c = true ∧ Number.digitValue c = Number.digitValue c.toLower := by
  have hlower : ∀ d < 16, Number.isHexDigit d.digitChar = true := by decide
  have hupper : ∀ n < 91, 65 ≤ n → ∀ d < 16, (Char.ofNat n).toLower = Nat.digitChar d →
      Number.isHexDigit (Char.ofNat n) = true ∧
        Number.digitValue (Char.ofNat n) = Number.digitValue (Char.ofNat n).toLower := by decide
  by_cases hc : 65 ≤ c.toNat ∧ c.toNat < 91
  · have heither := hupper c.toNat hc.2 hc.1 d hd
    rw [Char.ofNat_toNat] at heither
    exact heither h
  · have hsame : c.toLower = c := by
      unfold Char.toLower
      refine dif_neg fun hrange => hc ?_
      have hlow : 65 ≤ c.val.toNat := UInt32.le_iff_toNat_le.mp hrange.1
      have hhigh : c.val.toNat ≤ 90 := UInt32.le_iff_toNat_le.mp hrange.2
      exact ⟨hlow, Nat.lt_succ_of_le hhigh⟩
    rw [hsame] at h ⊢
    exact ⟨h ▸ hlower d hd, rfl⟩

theorem hexDigits_of_toLower (h : digits.map Char.toLower = List.replicate zeros '0' ++ Nat.toDigits 16 n) :
    (∀ d ∈ digits, Number.isHexDigit d = true) ∧ Number.ofDigits 16 digits = n := by
  have hdigit : ∀ c ∈ digits,
      Number.isHexDigit c = true ∧ Number.digitValue c = Number.digitValue c.toLower := by
    intro c hc
    have hmem : c.toLower ∈ List.replicate zeros '0' ++ Nat.toDigits 16 n := h ▸ List.mem_map_of_mem hc
    rcases List.mem_append.mp hmem with hzero | hmem
    · exact hexDigit_of_toLower (d := 0) (by decide) (List.eq_of_mem_replicate hzero)
    · obtain ⟨d, hd, heq⟩ := exists_digit_of_mem_toDigits (by decide) hmem
      exact hexDigit_of_toLower hd heq
  refine ⟨fun c hc => (hdigit c hc).1, ?_⟩
  calc Number.ofDigits 16 digits
      = Number.ofDigits 16 (digits.map Char.toLower) := by
        rw [Number.ofDigits, Number.ofDigits, List.foldl_map]
        exact List.foldl_ext _ _ _ fun _ c hc => by rw [(hdigit c hc).2]
    _ = n := by rw [h, ofDigits_zeros, ofDigits_toDigits (by decide) (by decide)]

end Digits

/-! ### The scanner -/

section Scanner

variable {n : Nat} {text suffix rest : List Char} {more : Char → Bool} {kind : TokenKind}

theorem Stops.of_imp {p q : Char → Bool} (h : Stops p rest) (hpq : ∀ c, p c = false → q c = false) :
    Stops q rest := fun c hc => hpq c (h c hc)

theorem Numeral.starts (h : Numeral n text more) : ∃ c cs, text = c :: cs ∧ Number.isDigit c = true := by
  cases h with
  | decimal zeros hdigits =>
    obtain ⟨c, cs, rfl⟩ : ∃ c cs, text = c :: cs :=
      List.exists_cons_of_ne_nil (by simp [hdigits, Nat.toDigits_ne_nil])
    exact ⟨c, cs, rfl, isDigit_of_decimal hdigits c List.mem_cons_self⟩
  | hex => exact ⟨_, _, rfl, rfl⟩

/-- What stands after the digits, a suffix or a character that does not go on them. -/
theorem stops_suffix (hsuffix : suffix = [] ∨ suffix = ['l'] ∨ suffix = ['L'])
    (hrest : suffix = [] → Stops (fun c => more c || isLongMark c) rest) {p : Char → Bool} (hl : p 'l' = false)
    (hL : p 'L' = false) (hp : ∀ c, more c = false → p c = false) : Stops p (suffix ++ rest) := by
  obtain rfl | rfl | rfl := hsuffix
  · exact (hrest rfl).of_imp fun c hc => hp c (Bool.or_eq_false_iff.mp hc).1
  · exact fun c hc => by cases hc; exact hl
  · exact fun c hc => by cases hc; exact hL

/-- The digits of a number are read, and the suffix after them if the number fits; a number that does not is a
fault at its first character. -/
theorem Numeral.readToken (h : Numeral n text more)
    (hmarks : suffix = [] ∨ suffix = ['l'] ∨ suffix = ['L'])
    (hrest : suffix = [] → Stops (fun c => more c || isLongMark c) rest) :
    ∃ f, MiniC.readToken (text ++ (suffix ++ rest)) =
      if 0x8000000000000000 ≤ n then .fault f text (suffix ++ rest)
      else readSuffix n text (suffix ++ rest) := by
  cases h with
  | decimal zeros hdigits =>
    have hall := isDigit_of_decimal hdigits
    have hvalue : Number.ofDigits 10 text = n := by
      rw [hdigits, ofDigits_zeros, ofDigits_toDigits (by decide) (by decide)]
    obtain ⟨c, cs, rfl, hc⟩ := (Numeral.decimal zeros hdigits).starts
    have hpart : Stops isDecimalPart (suffix ++ rest) :=
      stops_suffix hmarks hrest rfl rfl fun c hc => (Bool.or_eq_false_iff.mp hc).1
    have hmark : c :: cs = ['0'] → Stops isHexMark (suffix ++ rest) := fun hzero =>
      stops_suffix hmarks hrest rfl rfl fun c hc => by simpa [hzero] using (Bool.or_eq_false_iff.mp hc).2
    refine ⟨.badInteger (String.ofList (c :: cs)), ?_⟩
    rw [readToken_number (startsNumber_append (by simp [startsNumber, hc]) _),
      readNumber_decimal (splitDecimal_run hall hpart) hmark, readDecimal_run hall hpart, hvalue]
  | @hex mark digits zeros hmark hdigits =>
    obtain ⟨hall, hvalue⟩ := hexDigits_of_toLower hdigits
    have hne : digits ≠ [] := by
      rintro rfl
      simp [Nat.toDigits_ne_nil] at hdigits
    have hstops : Stops Number.isHexDigit (suffix ++ rest) := stops_suffix hmarks hrest rfl rfl fun _ hc => hc
    have hread := fun marks => readHex_run hne hall hstops marks
    rw [hvalue] at hread
    refine ⟨.badHex (String.ofList digits), ?_⟩
    rw [List.cons_append, List.cons_append, readToken_number rfl]
    obtain rfl | rfl := hmark
    · exact hread ['0', 'x']
    · exact hread ['0', 'X']

end Scanner

/-! ### The parser -/

theorem Parser.reads_literal_alone {t : Token} {v : Value} (h : literal? t.kind = some v) {after : List Token}
    (hafter : Token.Stops after) (n : Nat) : Reads (Parser.expr n) (t :: after) (.literal v t.span) after := by
  have hends := hafter.endsExpr
  have hplain : unaryOperator? t.kind = none ∧ t.kind.isPunct .leftParen = false := by
    cases hkind : t.kind with
    | punct p => rw [hkind] at h; cases h
    | _ => exact ⟨rfl, rfl⟩
  have hunary : Reads (Parser.unary n) (t :: after) (.literal v t.span) after := by
    refine Reads.ofSucc (p := Parser.unary) (fun n => ?_) n
    rw [Parser.unary]
    refine .peekCons ?_
    rw [hplain.1]
    refine .peekSecond fun second _ => ?_
    rw [hplain.2, Bool.false_and, if_neg Bool.false_ne_true]
    exact (reads_literal h after _).bind (reads_suffixes_stop _ hends.toEndsOperand _)
  rw [Parser.expr, Parser.binary]
  refine (hunary.bind (reads_climb_stop _ (fun l op hop => ?_) n)).bind
    (reads_assignment_stop _ hends.notAssign n)
  rw [hends.notBinary] at hop
  cases hop

/-! ### From text to tree -/

/-- The token of a number that fits, and the constant that the parser makes of it. -/
inductive IntegerToken (n : Nat) (suffix : List Char) : TokenKind → Value → Prop
  | int {i : Int64} {v : Int32} : suffix = [] → n ≤ 2 ^ 31 - 1 → i.toInt = n → v.toInt = n →
      IntegerToken n suffix (.intLit i) (.int v)
  | long {i : Int64} : ¬ (suffix = [] ∧ n ≤ 2 ^ 31 - 1) → i.toInt = n →
      IntegerToken n suffix (.longLit i) (.long i)

section

variable {n : Nat} {suffix : List Char} {kind : TokenKind} {v : Value}

theorem IntegerToken.literal (h : IntegerToken n suffix kind v) : Parser.literal? kind = some v := by
  cases h with
  | @int i v _ hn hi hv =>
    have hnarrow : i.toInt32 = v := by
      rw [← Int32.toInt_inj, Int64.toInt_toInt32, hi, hv]
      exact Int.bmod_eq_of_le (by omega) (by omega)
    rw [Parser.literal?, hnarrow]
  | long => rfl

theorem exists_integerToken (hmarks : suffix = [] ∨ suffix = ['l'] ∨ suffix = ['L'])
    (hn : n < 0x8000000000000000) :
    ∃ kind v, IntegerSuffix n kind suffix ∧ IntegerToken n suffix kind v := by
  have hlong : (Int64.ofNat n).toInt = n := Int64.toInt_ofNat_of_lt hn
  by_cases hint : suffix = [] ∧ n ≤ 2 ^ 31 - 1
  · obtain ⟨rfl, hle⟩ := hint
    have hlt : n < 0x80000000 := by omega
    exact ⟨_, _, .narrow hlt, .int rfl hle hlong (Int32.toInt_ofNat_of_lt hlt)⟩
  · refine ⟨.longLit (Int64.ofNat n), .long (Int64.ofNat n), ?_, .long hint hlong⟩
    obtain rfl | rfl | rfl := hmarks
    · exact .wide fun hlt => hint ⟨rfl, by omega⟩
    · exact .lower
    · exact .upper

end

/-- A number written in decimal or hexadecimal, with or without a suffix, is scanned to a token of its value that
is parsed to a literal of the same value, as an `int` if there is no suffix and it is below `2 ^ 31` and as a
`long` otherwise; from `2 ^ 63` on it is a fault at its first character. -/
theorem integerLiteral_keeps_value {n : Nat} {gap text suffix rest : List Char} {more : Char → Bool}
    {s : Scanner} (htext : Numeral n text more) (hmarks : suffix = [] ∨ suffix = ['l'] ∨ suffix = ['L'])
    (hrest : suffix = [] → Stops (fun c => more c || isLongMark c) rest)
    (hgap : ∀ c ∈ gap, Text.isBlank c = true) (hs : s.rest = gap ++ (text ++ (suffix ++ rest))) :
    (n ≤ 2 ^ 63 - 1 → ∃ kind v, IntegerToken n suffix kind v ∧
      s.next = (.ok (s.met gap (text ++ suffix) kind), s.past gap (text ++ suffix) rest kind) ∧
      ∀ (t : Token) (after : List Token) (bound : Nat), t.kind = kind →
        Parser.Reads (Parser.primary bound) (t :: after) (.literal v t.span) after ∧
        (Token.Stops after → Parser.Reads (Parser.expr bound) (t :: after) (.literal v t.span) after)) ∧
    (2 ^ 63 - 1 < n → ∃ fault, s.next.1 = .error ⟨fault, s.place.advanceBy gap⟩) := by
  obtain ⟨fault, hread⟩ := htext.readToken hmarks hrest
  have hskip : s.skipBlanks = ⟨text ++ (suffix ++ rest), s.place.advanceBy gap, s.pool⟩ := by
    refine Scanner.skipBlanks_eq hs hgap fun c hc => ?_
    obtain ⟨d, ds, rfl, hd⟩ := htext.starts
    cases hc
    rw [isDigit_iff] at hd
    exact not_isBlank (by omega)
  constructor
  · intro hn
    obtain ⟨kind, v, hsuffix, htoken⟩ := exists_integerToken (n := n) hmarks (by omega)
    rw [if_neg (by omega), hsuffix.readSuffix fun hnone => (hrest hnone).of_imp fun c hc =>
      (Bool.or_eq_false_iff.mp hc).2] at hread
    refine ⟨kind, v, htoken, ?_, fun t after bound ht => ?_⟩
    · unfold Scanner.next
      simp only [hskip, hread, Reading.ok, Scanner.met, Scanner.past, Location.advanceBy_append]
    · have hliteral : Parser.literal? t.kind = some v := ht ▸ htoken.literal
      exact ⟨Parser.reads_literal hliteral after bound,
        fun hafter => Parser.reads_literal_alone hliteral hafter bound⟩
  · intro hn
    rw [if_pos (by omega)] at hread
    refine ⟨fault, ?_⟩
    unfold Scanner.next
    simp only [hskip, hread, Reading.fault, Location.advanceBy_nil]

/-- Letters of both cases, a zero in front, and a value that is too large for an `int`. -/
theorem integerLiteral_keeps_mixedCase :
    let s := Scanner.start " 0X0fFfFfFfF;" "t.c" {}
    let text := "0X0fFfFfFfF".toList
    ∃ kind v, IntegerToken 0xffffffff [] kind v ∧
      s.next = (.ok (s.met [' '] text kind), s.past [' '] text [';'] kind) ∧
      ∀ (t : Token) (after : List Token) (bound : Nat), t.kind = kind →
        Parser.Reads (Parser.primary bound) (t :: after) (.literal v t.span) after ∧
        (Token.Stops after → Parser.Reads (Parser.expr bound) (t :: after) (.literal v t.span) after) := by
  have hnumeral : Numeral 0xffffffff "0X0fFfFfFfF".toList Number.isHexDigit :=
    .hex 1 (.inr rfl) (by decide)
  have hstops : Stops (fun c => Number.isHexDigit c || isLongMark c) [';'] := by
    intro c hc
    cases hc
    rfl
  have hmarks : ([] : List Char) = [] ∨ [] = ['l'] ∨ [] = ['L'] := .inl rfl
  exact (integerLiteral_keeps_value hnumeral hmarks (fun _ => hstops) (by simp; rfl) rfl).1 (by decide)

end MiniC
