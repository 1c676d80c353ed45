import MiniC.X86.Listing
import Mathlib

/-!
# String constants read back

What the assembler makes of a string constant, written down for itself: the constant ends at the first quote
that no backslash stands before (`splitConstant`), and between the quotes a backslash begins an escape, of which
an octal one takes as many digits as it finds, up to three (`assemble`). The written form of a string is
printable, has no quote but escaped ones, and is assembled to the bytes of the string whatever stands after it.
-/

set_option autoImplicit false

namespace MiniC.Text

/-! ### How the assembler reads -/

/-- Whether a character is printable ASCII. -/
def isPrintable (c : Char) : Bool := 0x20 ≤ c.toNat && c.toNat ≤ 0x7e

/-- Whether a character is an octal digit. -/
def isOctalDigit (c : Char) : Bool := '0' ≤ c && c ≤ '7'

/-- The number that octal digits stand for. -/
def octalValue (digits : List Char) : Nat := digits.foldl (fun n c => 8 * n + (c.toNat - '0'.toNat)) 0

/-- The text before the first quote that is not escaped, and the text after that quote. A backslash takes the
character after it along, whatever it is. -/
def splitConstant : List Char → Option (List Char × List Char)
  | [] => none
  | '"' :: rest => some ([], rest)
  | ['\\'] => none
  | '\\' :: c :: rest => (splitConstant rest).map fun (text, after) => ('\\' :: c :: text, after)
  | c :: rest => (splitConstant rest).map fun (text, after) => (c :: text, after)

/-- The byte of an escape, given the text after its backslash, and the text after the escape. -/
def escaped? : List Char → Option (UInt8 × List Char)
  | 'n' :: rest => some (0x0a, rest)
  | 't' :: rest => some (0x09, rest)
  | '"' :: rest => some (0x22, rest)
  | '\\' :: rest => some (0x5c, rest)
  | text =>
    let digits := (text.take 3).takeWhile isOctalDigit
    if digits = [] then none else some (UInt8.ofNat (octalValue digits), text.drop digits.length)

theorem length_escaped? {text rest : List Char} {b : UInt8} (h : escaped? text = some (b, rest)) :
    rest.length < text.length := by
  unfold escaped? at h
  split at h
  case h_5 =>
    simp only [Option.ite_none_left_eq_some, Option.some.injEq, Prod.mk.injEq] at h
    obtain ⟨hne, -, rfl⟩ := h
    have hpos : 0 < ((text.take 3).takeWhile isOctalDigit).length := List.length_pos_iff.mpr hne
    have hlen : 0 < text.length := by
      cases text with
      | nil => simp at hpos
      | cons c cs => simp
    rw [List.length_drop]
    omega
  all_goals
    cases h
    simp

/-- The bytes of the text between the quotes of a constant; none if an escape is not one the assembler has. -/
def assemble (text : List Char) : Option (List UInt8) :=
  match text with
  | [] => some []
  | c :: rest =>
    if c = '\\' then
      match _eq : escaped? rest with
      | none => none
      | some (b, rest') => (assemble rest').map (b :: ·)
    else (assemble rest).map (String.utf8EncodeChar c ++ ·)
termination_by text.length
decreasing_by
  · have := length_escaped? _eq
    simp only [List.length_cons]
    omega
  · simp

theorem assemble_escape {text rest : List Char} {b : UInt8} (h : escaped? text = some (b, rest)) :
    assemble ('\\' :: text) = (assemble rest).map (b :: ·) := by
  rw [assemble, if_pos rfl]
  split
  · rename_i hnone
    rw [h] at hnone
    cases hnone
  · rename_i hsome
    rw [h] at hsome
    cases hsome
    rfl

/-! ### One byte -/

theorem octalDigit_spec {n : Nat} (h : n < 8) :
    isOctalDigit (octalDigit n) = true ∧ (octalDigit n).toNat - '0'.toNat = n ∧
      isPrintable (octalDigit n) = true ∧ octalDigit n ≠ '"' ∧ octalDigit n ≠ '\\' ∧ octalDigit n ≠ 'n' ∧
      octalDigit n ≠ 't' := by
  have hall : ∀ n < 8, isOctalDigit (octalDigit n) = true ∧ (octalDigit n).toNat - '0'.toNat = n ∧
      isPrintable (octalDigit n) = true ∧ octalDigit n ≠ '"' ∧ octalDigit n ≠ '\\' ∧ octalDigit n ≠ 'n' ∧
      octalDigit n ≠ 't' := by decide
  exact hall n h

/-- Three digits end an octal escape, so that a digit after them is no part of it. -/
theorem escaped?_octal (b : UInt8) (after : List Char) :
    escaped? (octalDigit (b.toNat / 64) :: octalDigit (b.toNat / 8 % 8) :: octalDigit (b.toNat % 8) :: after) =
      some (b, after) := by
  have hb := b.toNat_lt
  obtain ⟨h1, hv1, -, hquote, hslash, hn, ht⟩ := octalDigit_spec (n := b.toNat / 64) (by omega)
  obtain ⟨h2, hv2, -⟩ := octalDigit_spec (n := b.toNat / 8 % 8) (by omega)
  obtain ⟨h3, hv3, -⟩ := octalDigit_spec (n := b.toNat % 8) (by omega)
  have hvalue : octalValue [octalDigit (b.toNat / 64), octalDigit (b.toNat / 8 % 8), octalDigit (b.toNat % 8)] =
      b.toNat := by
    simp only [octalValue, List.foldl_cons, List.foldl_nil, hv1, hv2, hv3]
    omega
  rw [escaped?.eq_5 _ (by simp [hn]) (by simp [ht]) (by simp [hquote]) (by simp [hslash])]
  simp [h1, h2, h3, hvalue]

/-- The character of a printable byte is written to the file as that byte. -/
theorem utf8EncodeChar_of_printable {b : UInt8} (h : 0x20 ≤ b ∧ b ≤ 0x7e) :
    String.utf8EncodeChar (Char.ofNat b.toNat) = [b] ∧ isPrintable (Char.ofNat b.toNat) = true ∧
      (Char.ofNat b.toNat).toNat = b.toNat := by
  have hall : ∀ n < 0x7f, 0x20 ≤ n → String.utf8EncodeChar (Char.ofNat n) = [UInt8.ofNat n] ∧
      isPrintable (Char.ofNat n) = true ∧ (Char.ofNat n).toNat = n := by decide
  have hlow : 0x20 ≤ b.toNat := UInt8.le_iff_toNat_le.mp h.1
  have hhigh : b.toNat ≤ 0x7e := UInt8.le_iff_toNat_le.mp h.2
  have hchar := hall b.toNat (by omega) hlow
  rwa [UInt8.ofNat_toNat] at hchar

/-- The written form of a byte: one printable character that is neither a quote nor a backslash, or an escape. -/
inductive WrittenByte (b : UInt8) : List Char → Prop
  | plain {c : Char} : String.utf8EncodeChar c = [b] → isPrintable c = true → c ≠ '"' → c ≠ '\\' →
      WrittenByte b [c]
  | escape {c : Char} {more : List Char} : (∀ after, escaped? (c :: more ++ after) = some (b, after)) →
      (∀ d ∈ c :: more, isPrintable d = true) → (∀ d ∈ more, d ≠ '"' ∧ d ≠ '\\') → WrittenByte b ('\\' :: c :: more)

theorem writtenByte_escapeByte (b : UInt8) : WrittenByte b (escapeByte b) := by
  unfold escapeByte
  split_ifs with hquote hslash hline htab hplain
  · exact .escape (fun _ => hquote ▸ rfl) (by simp [isPrintable]) (by simp)
  · exact .escape (fun _ => hslash ▸ rfl) (by simp [isPrintable]) (by simp)
  · exact .escape (fun _ => hline ▸ rfl) (by simp [isPrintable]) (by simp)
  · exact .escape (fun _ => htab ▸ rfl) (by simp [isPrintable]) (by simp)
  · obtain ⟨hbytes, hprintable, hnat⟩ := utf8EncodeChar_of_printable hplain
    refine .plain hbytes hprintable ?_ ?_
    · intro hc
      rw [hc] at hnat
      exact hquote (UInt8.toNat_inj.mp hnat.symm)
    · intro hc
      rw [hc] at hnat
      exact hslash (UInt8.toNat_inj.mp hnat.symm)
  · have hb := b.toNat_lt
    obtain ⟨-, -, hp1, -⟩ := octalDigit_spec (n := b.toNat / 64) (by omega)
    obtain ⟨-, -, hp2, hq2, hs2, -⟩ := octalDigit_spec (n := b.toNat / 8 % 8) (by omega)
    obtain ⟨-, -, hp3, hq3, hs3, -⟩ := octalDigit_spec (n := b.toNat % 8) (by omega)
    exact .escape (escaped?_octal b) (by simp [hp1, hp2, hp3]) (by simp [hq2, hs2, hq3, hs3])

section WrittenByte

variable {b : UInt8} {text : List Char}

theorem WrittenByte.printable (h : WrittenByte b text) : ∀ c ∈ text, isPrintable c = true := by
  cases h with
  | plain _ hc => simpa using hc
  | escape _ hall => exact List.forall_mem_cons.mpr ⟨rfl, hall⟩

theorem WrittenByte.assemble (h : WrittenByte b text) (after : List Char) :
    assemble (text ++ after) = (assemble after).map (b :: ·) := by
  cases h with
  | plain hbytes _ _ hslash => rw [List.singleton_append, Text.assemble, if_neg hslash, hbytes]; rfl
  | escape hescape => exact assemble_escape (hescape after)

theorem splitConstant_cons {c : Char} (hquote : c ≠ '"') (hslash : c ≠ '\\') (rest : List Char) :
    splitConstant (c :: rest) = (splitConstant rest).map fun (text, after) => (c :: text, after) :=
  splitConstant.eq_5 c rest hquote (by simp [hslash]) (by simp [hslash])

theorem splitConstant_append (h : ∀ c ∈ text, c ≠ '"' ∧ c ≠ '\\') (rest : List Char) :
    splitConstant (text ++ rest) = (splitConstant rest).map fun (more, after) => (text ++ more, after) := by
  induction text with
  | nil => simp
  | cons c text ih =>
    obtain ⟨⟨hquote, hslash⟩, hothers⟩ := List.forall_mem_cons.mp h
    rw [List.cons_append, splitConstant_cons hquote hslash, ih hothers, Option.map_map]
    rfl

theorem WrittenByte.splitConstant (h : WrittenByte b text) (rest : List Char) :
    splitConstant (text ++ rest) = (splitConstant rest).map fun (more, after) => (text ++ more, after) := by
  cases h with
  | plain _ _ hquote hslash => exact splitConstant_append (by simp [hquote, hslash]) rest
  | @escape c more _ _ hmore =>
    rw [List.cons_append, List.cons_append, Text.splitConstant, splitConstant_append hmore, Option.map_map]
    rfl

end WrittenByte

/-! ### A whole string -/

theorem isPrintable_of_mem_escapeBytes {bytes : List UInt8} {c : Char} (h : c ∈ escapeBytes bytes) :
    isPrintable c = true := by
  obtain ⟨b, -, hc⟩ := List.mem_flatMap.mp h
  exact (writtenByte_escapeByte b).printable c hc

theorem splitConstant_escapeBytes (bytes : List UInt8) (rest : List Char) :
    splitConstant (escapeBytes bytes ++ '"' :: rest) = some (escapeBytes bytes, rest) := by
  induction bytes with
  | nil => rfl
  | cons b bytes ih =>
    rw [escapeBytes, List.flatMap_cons, List.append_assoc, (writtenByte_escapeByte b).splitConstant]
    rw [escapeBytes] at ih
    rw [ih]
    rfl

theorem assemble_escapeBytes (bytes : List UInt8) (after : List Char) :
    assemble (escapeBytes bytes ++ after) = (assemble after).map (bytes ++ ·) := by
  induction bytes with
  | nil => simp [escapeBytes]
  | cons b bytes ih =>
    rw [escapeBytes, List.flatMap_cons, List.append_assoc, (writtenByte_escapeByte b).assemble]
    rw [escapeBytes] at ih
    rw [ih, Option.map_map]
    rfl

/-- The directive of a string constant is one line of printable characters whose second quote that is not
escaped is the last character, and what stands between the quotes is assembled to the bytes of the string. -/
theorem string_assembles (s : String) :
    (∀ c ∈ (escapeString s).toList, isPrintable c = true) ∧
    (X86.Directive.string s).write.toList = ".string \"".toList ++ ((escapeString s).toList ++ ['"']) ∧
    '\n' ∉ (X86.Directive.string s).write.toList ∧
    (∀ rest, splitConstant ((escapeString s).toList ++ '"' :: rest) = some ((escapeString s).toList, rest)) ∧
    assemble (escapeString s).toList = some s.toUTF8.data.toList ∧
    ∀ after, assemble ((escapeString s).toList ++ after) =
      (assemble after).map (s.toUTF8.data.toList ++ ·) := by
  have htext : (escapeString s).toList = escapeBytes s.toUTF8.data.toList := String.toList_ofList
  have hwrite : (X86.Directive.string s).write.toList =
      ".string \"".toList ++ ((escapeString s).toList ++ ['"']) := by
    simp [X86.Directive.write]
  have hprintable : ∀ c ∈ (escapeString s).toList, isPrintable c = true := by
    rw [htext]
    exact fun c hc => isPrintable_of_mem_escapeBytes hc
  refine ⟨hprintable, hwrite, ?_, ?_, ?_, ?_⟩
  · rw [hwrite]
    intro hline
    rcases List.mem_append.mp hline with hline | hline
    · exact absurd hline (by decide)
    · rcases List.mem_append.mp hline with hline | hline
      · exact absurd (hprintable _ hline) (by decide)
      · exact absurd hline (by decide)
  · rw [htext]
    exact splitConstant_escapeBytes _
  · rw [htext]
    simpa [assemble] using assemble_escapeBytes s.toUTF8.data.toList []
  · rw [htext]
    exact assemble_escapeBytes _

end MiniC.Text
