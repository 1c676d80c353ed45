import MiniC.Number.Read
import MiniC.Token

/-!
# Reading one token

Each reader looks at the front of a text that starts with its kind of token and splits off the
characters the token takes. A reader that gives up has taken the characters up to where it gave
up, and says at which of them the fault lies. Nothing is ever lost: `Reading.Tiles` says that what
was taken, followed by the rest, is the text, and it holds of every reader
(`readToken_tiles`). A token takes at least one character, which is why reading a whole text ends
(`readToken_rest_lt`).
-/

set_option autoImplicit false

namespace MiniC

/-- Why the text does not continue with a token. -/
inductive LexFault where
  | badHex (digits : String)
  | badFloat (text : String)
  | badInteger (text : String)
  | unterminatedString
  | unterminatedChar
  | emptyChar
  | badEscape (c : Char)
  | notAscii (c : Char)
  | unexpected (c : Char)
  | unterminatedComment
deriving DecidableEq, Repr, Inhabited

def LexFault.message : LexFault → String
  | badHex digits => "Invalid hex literal: 0x" ++ digits
  | badFloat text => "Invalid float literal: " ++ text
  | badInteger text => "Invalid integer literal: " ++ text
  | unterminatedString => "Unterminated string literal"
  | unterminatedChar => "Unterminated character literal"
  | emptyChar => "Empty character literal"
  | badEscape c => "Invalid escape sequence: \\" ++ c.toString
  | notAscii c => "Character " ++ Text.quoteChar c ++ " is not ASCII"
  | unexpected c => "Unexpected character: " ++ Text.quoteChar c
  | unterminatedComment => "Unterminated block comment"

/-- A reading from the front of a text. -/
structure Reading (α : Type) where
  /-- What was found, or a fault with the characters that stand before it. -/
  found : Except (LexFault × List Char) α
  /-- The characters the reading took. -/
  taken : List Char
  /-- The text after them. -/
  rest : List Char

namespace Reading

variable {α β : Type}

def ok (a : α) (taken rest : List Char) : Reading α := ⟨.ok a, taken, rest⟩

/-- Give up over a fault at the start of the text. -/
def fault (f : LexFault) (taken rest : List Char) : Reading α := ⟨.error (f, []), taken, rest⟩

/-- A reading that began after some characters of the same token. -/
def after (skipped : List Char) (r : Reading α) : Reading α where
  found := r.found.mapError fun (f, before) => (f, skipped ++ before)
  taken := skipped ++ r.taken
  rest := r.rest

def map (f : α → β) (r : Reading α) : Reading β where
  found := r.found.map f
  taken := r.taken
  rest := r.rest

/-- What the reading took, followed by the rest, is the text. -/
def Tiles (r : Reading α) (text : List Char) : Prop := r.taken ++ r.rest = text

@[simp] theorem tiles_ok (a : α) (taken rest text : List Char) :
    (ok a taken rest).Tiles text ↔ taken ++ rest = text := Iff.rfl

@[simp] theorem tiles_fault (f : LexFault) (taken rest text : List Char) :
    (fault f taken rest : Reading α).Tiles text ↔ taken ++ rest = text := Iff.rfl

@[simp] theorem tiles_map (f : α → β) (r : Reading α) (text : List Char) :
    (r.map f).Tiles text ↔ r.Tiles text := Iff.rfl

theorem Tiles.after {r : Reading α} {text : List Char} (h : r.Tiles text) (skipped : List Char) :
    (r.after skipped).Tiles (skipped ++ text) := by
  rw [Tiles] at h
  rw [← h]
  exact List.append_assoc ..

end Reading

/-! ### Words -/

/-- Whether a character can begin a word. -/
def isWordStart (c : Char) : Bool := c.isAlpha || c == '_'

/-- Whether a character can go on a word. -/
def isWordPart (c : Char) : Bool := c.isAlphanum || c == '_'

/-- A word is a reserved word or an identifier. -/
def wordKind (word : String) : TokenKind :=
  match Keyword.ofText? word with
  | some k => .keyword k
  | none => .identifier word

def readWord (cs : List Char) : Reading TokenKind :=
  let word := cs.takeWhile isWordPart
  .ok (wordKind (String.ofList word)) word (cs.dropWhile isWordPart)

/-! ### Numbers -/

/-- An integer of known value, with its suffix if one follows. -/
def readSuffix (n : Nat) (digits : List Char) : List Char → Reading TokenKind
  | 'l' :: rest => .ok (.longLit (Int64.ofNat n)) (digits ++ ['l']) rest
  | 'L' :: rest => .ok (.longLit (Int64.ofNat n)) (digits ++ ['L']) rest
  | rest =>
    if n < 0x80000000 then .ok (.intLit (Int64.ofNat n)) digits rest
    else .ok (.longLit (Int64.ofNat n)) digits rest

/-- A hexadecimal literal, given its two marks and the text after them. It has at least one digit
and fits in 63 bits. -/
def readHex (marks cs : List Char) : Reading TokenKind :=
  let digits := cs.takeWhile Number.isHexDigit
  let rest := cs.dropWhile Number.isHexDigit
  let n := Number.ofDigits 16 digits
  if digits = [] ∨ 0x8000000000000000 ≤ n then
    .fault (.badHex (String.ofList digits)) (marks ++ digits) rest
  else readSuffix n (marks ++ digits) rest

/-- The text of a decimal literal and whether it has a point or an exponent. Further exponents are
taken along, which makes the literal invalid rather than two tokens; a further point is not. -/
def splitDecimal (float : Bool) : List Char → Bool × List Char × List Char
  | [] => (float, [], [])
  | c :: cs =>
    if Number.isDigit c then
      let (float, text, rest) := splitDecimal float cs
      (float, c :: text, rest)
    else if c = '.' ∧ float = false then
      let (float, text, rest) := splitDecimal true cs
      (float, c :: text, rest)
    else if c = 'e' ∨ c = 'E' then
      match cs with
      | [] => (true, [c], [])
      | sign :: ds =>
        if sign = '+' ∨ sign = '-' then
          let (float, text, rest) := splitDecimal true ds
          (float, c :: sign :: text, rest)
        else
          let (float, text, rest) := splitDecimal true (sign :: ds)
          (float, c :: text, rest)
    else (float, [], c :: cs)

/-- A decimal literal: a float if it has a point or an exponent, else an integer of at most 63
bits. -/
def readDecimal (cs : List Char) : Reading TokenKind :=
  match splitDecimal false cs with
  | (true, text, rest) =>
    match Number.readDecimal? text with
    | some x => .ok (.floatLit x) text rest
    | none => .fault (.badFloat (String.ofList text)) text rest
  | (false, text, rest) =>
    let n := Number.ofDigits 10 text
    if 0x8000000000000000 ≤ n then .fault (.badInteger (String.ofList text)) text rest
    else readSuffix n text rest

def readNumber : List Char → Reading TokenKind
  | '0' :: 'x' :: cs => readHex ['0', 'x'] cs
  | '0' :: 'X' :: cs => readHex ['0', 'X'] cs
  | cs => readDecimal cs

/-! ### Quoted literals -/

/-- The character that an escape stands for. -/
def unescape? : Char → Option Char
  | 'n' => some '\n'
  | 't' => some '\t'
  | 'r' => some '\r'
  | '0' => some '\x00'
  | '\\' => some '\\'
  | '\'' => some '\''
  | '"' => some '"'
  | _ => none

/-- The text of a string literal after its opening quote, through the closing one. A line end is
taken before the literal is given up. -/
def readStringBody : List Char → Reading (List Char)
  | [] => .fault .unterminatedString [] []
  | c :: cs =>
    if c = '"' then .ok [] [c] cs
    else if c = '\n' then .fault .unterminatedString [c] cs
    else if c = '\\' then
      match cs with
      | [] => .fault .unterminatedString [c] []
      | e :: ds =>
        match unescape? e with
        | some d => ((readStringBody ds).map (d :: ·)).after [c, e]
        | none => .fault (.badEscape e) [c, e] ds
    else ((readStringBody cs).map (c :: ·)).after [c]

/-- One character of a character literal, escapes resolved. -/
def readQuotedChar : List Char → Reading Char
  | [] => .fault .unterminatedChar [] []
  | '\n' :: cs => .fault .unterminatedChar ['\n'] cs
  | ['\\'] => .fault .unterminatedChar ['\\'] []
  | '\\' :: e :: cs =>
    match unescape? e with
    | some d => .ok d ['\\', e] cs
    | none => .fault (.badEscape e) ['\\', e] cs
  | c :: cs => .ok c [c] cs

/-- The text of a character literal after its opening quote. The closing quote is looked for before
the character is found to be outside ASCII. -/
def readCharBody (cs : List Char) : Reading TokenKind :=
  let quoted := (readQuotedChar cs).after ['\'']
  match quoted.found, quoted.rest with
  | .error e, rest => ⟨.error e, quoted.taken, rest⟩
  | .ok c, '\'' :: rest =>
    if c.toNat < 128 then .ok (.charLit c.toUInt8) (quoted.taken ++ ['\'']) rest
    else .fault (.notAscii c) (quoted.taken ++ ['\'']) rest
  | .ok _, rest => .fault .unterminatedChar quoted.taken rest

def readCharLiteral : List Char → Reading TokenKind
  | '\'' :: cs => .fault .emptyChar ['\''] ('\'' :: cs)
  | cs => readCharBody cs

def readStringLiteral (cs : List Char) : Reading TokenKind :=
  ((readStringBody cs).map fun s => TokenKind.stringLit (String.ofList s)).after ['"']

/-! ### Comments and punctuation -/

/-- A comment to the end of the line, given the text after its two slashes. -/
def readLineComment (cs : List Char) : Reading TokenKind :=
  let text := cs.takeWhile (· != '\n')
  (Reading.ok (.lineComment (String.ofList text)) text (cs.dropWhile (· != '\n'))).after ['/', '/']

/-- The text of a block comment up to its end mark, which is not part of it. -/
def splitComment : List Char → Option (List Char × List Char)
  | [] => none
  | '*' :: '/' :: rest => some ([], rest)
  | c :: cs => (splitComment cs).map fun (text, rest) => (c :: text, rest)

/-- A block comment, given the text after its opening mark. -/
def readBlockComment (cs : List Char) : Reading TokenKind :=
  match splitComment cs with
  | some (text, rest) =>
    .ok (.blockComment (String.ofList text)) (['/', '*'] ++ text ++ ['*', '/']) rest
  | none => .fault .unterminatedComment (['/', '*'] ++ cs) []

/-- The longest operator or delimiter at the front of a text. -/
def punctAt? : List Char → Option (Punct × List Char)
  | '+' :: '+' :: rest => some (.plusPlus, rest)
  | '+' :: '=' :: rest => some (.plusEqual, rest)
  | '+' :: rest => some (.plus, rest)
  | '-' :: '-' :: rest => some (.minusMinus, rest)
  | '-' :: '=' :: rest => some (.minusEqual, rest)
  | '-' :: rest => some (.minus, rest)
  | '*' :: '=' :: rest => some (.starEqual, rest)
  | '*' :: rest => some (.star, rest)
  | '/' :: '=' :: rest => some (.slashEqual, rest)
  | '/' :: rest => some (.slash, rest)
  | '%' :: '=' :: rest => some (.percentEqual, rest)
  | '%' :: rest => some (.percent, rest)
  | '&' :: '&' :: rest => some (.ampersandAmpersand, rest)
  | '&' :: rest => some (.ampersand, rest)
  | '|' :: '|' :: rest => some (.pipePipe, rest)
  | '|' :: rest => some (.pipe, rest)
  | '^' :: rest => some (.caret, rest)
  | '~' :: rest => some (.tilde, rest)
  | '!' :: '=' :: rest => some (.bangEqual, rest)
  | '!' :: rest => some (.bang, rest)
  | '=' :: '=' :: rest => some (.equalEqual, rest)
  | '=' :: rest => some (.equal, rest)
  | '<' :: '<' :: rest => some (.leftShift, rest)
  | '<' :: '=' :: rest => some (.lessEqual, rest)
  | '<' :: rest => some (.less, rest)
  | '>' :: '>' :: rest => some (.rightShift, rest)
  | '>' :: '=' :: rest => some (.greaterEqual, rest)
  | '>' :: rest => some (.greater, rest)
  | '(' :: rest => some (.leftParen, rest)
  | ')' :: rest => some (.rightParen, rest)
  | '\x7b' :: rest => some (.leftBrace, rest)
  | '\x7d' :: rest => some (.rightBrace, rest)
  | '[' :: rest => some (.leftBracket, rest)
  | ']' :: rest => some (.rightBracket, rest)
  | ';' :: rest => some (.semicolon, rest)
  | ',' :: rest => some (.comma, rest)
  | _ => none

/-- An operator or delimiter; any other character is a fault, and is taken. -/
def readPunct (c : Char) (cs : List Char) : Reading TokenKind :=
  match punctAt? (c :: cs) with
  | some (p, rest) => .ok (.punct p) p.text.toList rest
  | none => .fault (.unexpected c) [c] cs

/-! ### Any token -/

/-- Whether a text starts with a decimal digit. -/
def startsWithDigit : List Char → Bool
  | d :: _ => Number.isDigit d
  | [] => false

/-- The token at the front of a text that starts with no blank. A point begins a number when a
digit follows it. -/
def readToken : List Char → Reading TokenKind
  | [] => .ok .endOfFile [] []
  | '\'' :: cs => readCharLiteral cs
  | '"' :: cs => readStringLiteral cs
  | '/' :: '/' :: cs => readLineComment cs
  | '/' :: '*' :: cs => readBlockComment cs
  | c :: cs =>
    if isWordStart c then readWord (c :: cs)
    else if Number.isDigit c || (c == '.' && startsWithDigit cs) then readNumber (c :: cs)
    else readPunct c cs

end MiniC
