import MiniC.Location
import MiniC.Number.Written
import MiniC.Text.Quoted

/-!
# Tokens

The words of a program. Comments are tokens too, so that a listing of the tokens shows the whole
text; the parser drops them.
-/

set_option autoImplicit false

namespace MiniC

/-- The reserved words. -/
inductive Keyword where
  | char
  | int
  | long
  | float
  | double
  | void
  | if_
  | else_
  | while_
  | for_
  | return_
  | print
deriving DecidableEq, Repr, Inhabited

namespace Keyword

def all : List Keyword :=
  [char, int, long, float, double, void, if_, else_, while_, for_, return_, print]

def text : Keyword → String
  | char => "char"
  | int => "int"
  | long => "long"
  | float => "float"
  | double => "double"
  | void => "void"
  | if_ => "if"
  | else_ => "else"
  | while_ => "while"
  | for_ => "for"
  | return_ => "return"
  | print => "print"

/-- The reserved word with this spelling. -/
def ofText? (word : String) : Option Keyword :=
  all.find? fun k => k.text == word

/-- Whether the word names a type, and so begins a declaration or a cast. -/
def isType : Keyword → Bool
  | char | int | long | float | double | void => true
  | _ => false

end Keyword

/-- Operators and delimiters. -/
inductive Punct where
  | plus
  | minus
  | star
  | slash
  | percent
  | ampersand
  | pipe
  | caret
  | tilde
  | bang
  | equal
  | less
  | greater
  | plusPlus
  | minusMinus
  | leftShift
  | rightShift
  | lessEqual
  | greaterEqual
  | equalEqual
  | bangEqual
  | ampersandAmpersand
  | pipePipe
  | plusEqual
  | minusEqual
  | starEqual
  | slashEqual
  | percentEqual
  | leftParen
  | rightParen
  | leftBrace
  | rightBrace
  | leftBracket
  | rightBracket
  | semicolon
  | comma
deriving DecidableEq, Repr, Inhabited

namespace Punct

def text : Punct → String
  | plus => "+"
  | minus => "-"
  | star => "*"
  | slash => "/"
  | percent => "%"
  | ampersand => "&"
  | pipe => "|"
  | caret => "^"
  | tilde => "~"
  | bang => "!"
  | equal => "="
  | less => "<"
  | greater => ">"
  | plusPlus => "++"
  | minusMinus => "--"
  | leftShift => "<<"
  | rightShift => ">>"
  | lessEqual => "<="
  | greaterEqual => ">="
  | equalEqual => "=="
  | bangEqual => "!="
  | ampersandAmpersand => "&&"
  | pipePipe => "||"
  | plusEqual => "+="
  | minusEqual => "-="
  | starEqual => "*="
  | slashEqual => "/="
  | percentEqual => "%="
  | leftParen => "("
  | rightParen => ")"
  | leftBrace => "\x7b"
  | rightBrace => "\x7d"
  | leftBracket => "["
  | rightBracket => "]"
  | semicolon => ";"
  | comma => ","

end Punct

/-- What a token says. An integer literal is `longLit` if it has the suffix `L` or is too large for
an `int`. -/
inductive TokenKind where
  | intLit (n : Int64)
  | longLit (n : Int64)
  | floatLit (x : Float)
  | charLit (c : UInt8)
  | stringLit (s : String)
  | identifier (name : String)
  | keyword (k : Keyword)
  | punct (p : Punct)
  | endOfFile
  | lineComment (text : String)
  | blockComment (text : String)
deriving Repr, Inhabited

namespace TokenKind

def isTypeKeyword : TokenKind → Bool
  | keyword k => k.isType
  | _ => false

def isComment : TokenKind → Bool
  | lineComment _ => true
  | blockComment _ => true
  | _ => false

/-- The token in words of the language: literals by their value, so that `0x1F` shows as `31`. -/
def text : TokenKind → String
  | intLit n => toString n.toInt
  | longLit n => toString n.toInt ++ "L"
  | floatLit x => Number.FloatStyle.listing.write x
  | charLit c => String.ofList (['\''] ++ Text.asciiEscape (Char.ofUInt8 c) ++ ['\''])
  | stringLit s => String.ofList (['"'] ++ s.toList.flatMap Text.asciiEscape ++ ['"'])
  | identifier name => name
  | keyword k => k.text
  | punct p => p.text
  | endOfFile => "end of file"
  | lineComment s => "//" ++ s
  | blockComment s => "/*" ++ s ++ "*/"

end TokenKind

/-- A token and where it stands. -/
structure Token where
  kind : TokenKind
  span : Span
deriving Repr, Inhabited

/-- The token and its place, as listings show it. -/
def Token.text (t : Token) : String :=
  t.kind.text ++ " at " ++ t.span.start.text

end MiniC
