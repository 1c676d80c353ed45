import MiniC.Diagnostic
import MiniC.Pool
import MiniC.Text.Blank
import MiniC.Token.Tiling

/-!
# From text to tokens

A `Scanner` stands somewhere in a source text and gives one token after the other. It pools the
float and string constants as it meets them, so the pools are complete when the text is. A scanner
that met a fault stands where the reading stopped and can go on from there.
-/

set_option autoImplicit false

namespace MiniC

/-- A fault in the source text and its place. -/
structure LexError where
  fault : LexFault
  place : Location
deriving DecidableEq, Repr, Inhabited

def LexError.diagnostic (e : LexError) : Diagnostic :=
  .lexical e.place e.fault.message

/-- A position in a source text, and the constants met before it. -/
structure Scanner where
  rest : List Char
  place : Location
  pool : Pool
deriving Repr, Inhabited

namespace Scanner

/-- The start of a source text. -/
def start (source file : String) (pool : Pool) : Scanner :=
  ⟨source.toList, Location.first file, pool⟩

/-- Skip the blanks in front of the next token. -/
def skipBlanks (s : Scanner) : Scanner :=
  { s with
    rest := s.rest.dropWhile Text.isBlank
    place := s.place.advanceBy (s.rest.takeWhile Text.isBlank) }

/-- Pool the constant of a token that has one. -/
def poolConstant (pool : Pool) : TokenKind → Pool
  | .floatLit x => (pool.internFloat x).2
  | .stringLit s => (pool.internString s).2
  | _ => pool

/-- The next token. At the end of the text this is the end-of-file token, however often it is
asked for. -/
def next (s : Scanner) : Except LexError Token × Scanner :=
  let here := s.skipBlanks
  let reading := readToken here.rest
  let stop := here.place.advanceBy reading.taken
  match reading.found with
  | .ok kind =>
    (.ok ⟨kind, here.place, stop⟩, ⟨reading.rest, stop, poolConstant s.pool kind⟩)
  | .error (fault, before) =>
    (.error ⟨fault, here.place.advanceBy before⟩, ⟨reading.rest, stop, s.pool⟩)

/-- The scanner after the next token, or after the fault met instead. -/
theorem next_rest (s : Scanner) : s.next.2.rest = (readToken s.skipBlanks.rest).rest := by
  unfold next
  dsimp only
  split <;> rfl

theorem skipBlanks_rest_le (s : Scanner) : s.skipBlanks.rest.length ≤ s.rest.length :=
  (List.dropWhile_suffix Text.isBlank).length_le

/-- Only the end-of-file token leaves nothing to read less. -/
theorem next_rest_lt {s : Scanner} (h : s.skipBlanks.rest ≠ []) :
    s.next.2.rest.length < s.rest.length := by
  rw [next_rest]
  exact Nat.lt_of_lt_of_le (readToken_rest_lt h) s.skipBlanks_rest_le

/-- All tokens of the rest of the text, the end-of-file token last, and the pool as it is filled
then; or the first fault, and the pool as filled before it. -/
def tokens (s : Scanner) : Except LexError (List Token) × Pool :=
  if _more : s.skipBlanks.rest = [] then
    let (last, s') := s.next
    (last.map fun t => [t], s'.pool)
  else
    match _eq : s.next with
    | (.error e, s') => (.error e, s'.pool)
    | (.ok t, s') =>
      let (others, pool) := tokens s'
      (others.map (t :: ·), pool)
termination_by s.rest.length
decreasing_by
  have shorter := next_rest_lt _more
  rw [_eq] at shorter
  exact shorter

end Scanner

/-- All tokens of a source text. -/
def tokenize (source file : String) (pool : Pool) : Except LexError (List Token) × Pool :=
  (Scanner.start source file pool).tokens

end MiniC
