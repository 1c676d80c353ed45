import MiniC.Diagnostic
import MiniC.Token

/-!
# Parsing from a bounded cursor

A `Cursor n` stands in a stream of which at most `n` tokens are left, and a `Parser n` works on such
a cursor. A grammar rule that refers to itself does so after it has taken a token, through `take`,
which goes on with a parser of the next smaller bound; so every rule is defined by recursion on the
bound and there is no way to run out of it. Once the stream is drained the end-of-file token is
seen again and again.

A parser that fails leaves the cursor where the failure was noticed. Beside faults of the source
there is one failure of another kind: the depth of a pointer is counted in a byte, and a count that
would overflow stops the compiler (`ParseError.overflow`).
-/

set_option autoImplicit false

namespace MiniC

/-- What a parser was looking for. -/
inductive Expected where
  | punct (p : Punct) (context : String)
  | identifier (context : String)
  | expression
  | typeName
deriving DecidableEq, Repr, Inhabited

def Expected.text : Expected → String
  | punct p context => "'" ++ p.text ++ "' in " ++ context
  | identifier context => "identifier in " ++ context
  | expression => "expression"
  | typeName => "type name"

/-- Why a stream of tokens is not read as a program. -/
inductive ParseError where
  | unexpectedToken (expected : Expected) (found : Token)
  | unexpectedEnd (expected : Expected) (place : Location)
  | badArrayLength (found : TokenKind) (place : Location)
  /-- A count does not fit its byte. This is no fault that is reported: the compiler stops. -/
  | overflow
deriving Repr, Inhabited

namespace ParseError

def place : ParseError → Location
  | unexpectedToken _ found => found.span.start
  | unexpectedEnd _ place => place
  | badArrayLength _ place => place
  | overflow => .unknown

def message : ParseError → String
  | unexpectedToken expected found =>
    "Expected " ++ expected.text ++ ", found " ++ found.kind.text
  | unexpectedEnd expected _ => "Unexpected end of file, expected " ++ expected.text
  | badArrayLength found _ =>
    "Array length must be a positive integer constant, found " ++ found.text
  | overflow => Diagnostic.overflow.text

def diagnostic : ParseError → Diagnostic
  | overflow => .overflow
  | e => .parsing e.place e.message

end ParseError

/-- A place in a token stream with at most `n` tokens to go. -/
structure Cursor (n : Nat) where
  tokens : List Token
  /-- The range of the end-of-file token. -/
  endSpan : Span
  bounded : tokens.length ≤ n

namespace Cursor

variable {n : Nat}

/-- The current token. -/
def peek (c : Cursor n) : Token :=
  c.tokens.head?.getD ⟨.endOfFile, c.endSpan⟩

/-- The token after the current one. -/
def peekSecond (c : Cursor n) : Token :=
  (c.tokens.drop 1).head?.getD ⟨.endOfFile, c.endSpan⟩

/-- The cursor past the current token, with one less to go. -/
def drop (c : Cursor (n + 1)) : Cursor n where
  tokens := c.tokens.tail
  endSpan := c.endSpan
  bounded := by
    have bounded := c.bounded
    rw [List.length_tail]
    omega

/-- The cursor past the current token. -/
def advance (c : Cursor n) : Cursor n where
  tokens := c.tokens.tail
  endSpan := c.endSpan
  bounded := by
    have bounded := c.bounded
    rw [List.length_tail]
    omega

/-- The same place under a larger bound. -/
def widen (c : Cursor n) : Cursor (n + 1) where
  tokens := c.tokens
  endSpan := c.endSpan
  bounded := Nat.le_succ_of_le c.bounded

end Cursor

/-- Whether a token ends the stream. -/
def TokenKind.isEnd : TokenKind → Bool
  | .endOfFile => true
  | _ => false

/-- The stream of a token list: comments are dropped, and the last token is set apart if it is the
end-of-file token. -/
def Cursor.ofTokens (tokens : List Token) : (n : Nat) × Cursor n :=
  let visible := tokens.filter fun t => !t.kind.isComment
  match visible.getLast? with
  | some last =>
    if last.kind.isEnd then
      ⟨visible.dropLast.length, visible.dropLast, last.span, Nat.le_refl _⟩
    else ⟨visible.length, visible, Span.unknown, Nat.le_refl _⟩
  | none => ⟨0, [], Span.unknown, Nat.le_refl _⟩

/-- A parser of streams with at most `n` tokens to go. -/
abbrev Parser (n : Nat) (α : Type) := ExceptT ParseError (StateM (Cursor n)) α

namespace Parser

variable {n : Nat} {α : Type}

/-- Run a parser; the cursor that comes back is where it stopped, failed or not. -/
def run (p : Parser n α) (c : Cursor n) : Except ParseError α × Cursor n :=
  p c

/-- The current token. -/
def peek : Parser n Token := fun c => (.ok c.peek, c)

/-- The token after the current one. -/
def peekSecond : Parser n Token := fun c => (.ok c.peekSecond, c)

/-- Take the current token. -/
def advance : Parser n Token := fun c => (.ok c.peek, c.advance)

/-- Take the current token and go on with one less to go. -/
def take (next : Token → Parser n α) : Parser (n + 1) α := fun c =>
  let (result, c') := next c.peek c.drop
  (result, c'.widen)

/-- Go on with one less to go if a token has been taken, and end with `otherwise` if none has. -/
def afterProgress (next : Parser n α) (otherwise : α) : Parser (n + 1) α := fun c =>
  if h : c.tokens.length ≤ n then
    let (result, c') := next ⟨c.tokens, c.endSpan, h⟩
    (result, c'.widen)
  else (.ok otherwise, c)

/-- Fail over the current token. -/
def unexpected (expected : Expected) : Parser n α := fun c =>
  let found := c.peek
  let error :=
    if found.kind.isEnd then .unexpectedEnd expected found.span.start
    else .unexpectedToken expected found
  (.error error, c)

end Parser

/-- Whether a token is the given operator or delimiter. -/
def TokenKind.isPunct (k : TokenKind) (p : Punct) : Bool :=
  match k with
  | .punct q => q == p
  | _ => false

/-- Whether a token is the given reserved word. -/
def TokenKind.isKeyword (k : TokenKind) (w : Keyword) : Bool :=
  match k with
  | .keyword v => v == w
  | _ => false

namespace Parser

variable {n : Nat}

/-- Whether the current token is the given operator or delimiter. -/
def at? (p : Punct) : Parser n Bool := do
  return (← peek).kind.isPunct p

/-- Take the given operator or delimiter if it comes next. -/
def accept (p : Punct) : Parser n Bool := do
  if ← at? p then
    let _ ← advance
    return true
  else return false

/-- Take the given operator or delimiter, which must come next. -/
def expect (p : Punct) (context : String) : Parser n Token := do
  if ← at? p then advance else unexpected (.punct p context)

/-- Take an identifier, which must come next. -/
def identifier (context : String) : Parser n (String × Span) := do
  let t ← peek
  match t.kind with
  | .identifier name =>
    let _ ← advance
    return (name, t.span)
  | _ => unexpected (.identifier context)

end Parser

end MiniC
