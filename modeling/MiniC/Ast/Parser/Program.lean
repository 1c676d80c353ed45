import MiniC.Ast.Parser.Stmt
import MiniC.Token.Scanner

/-!
# Parsing whole files

At the top level stand declarations and functions; both begin with a type and a name, and a
parenthesis after the name tells them apart.
-/

set_option autoImplicit false

namespace MiniC.Parser

open Ast

variable {n : Nat}

/-- One parameter. An array parameter is a pointer, whatever length is written. -/
def parameter (n : Nat) : Parser n Parameter := do
  let start := (← peek).span
  let base ← baseType
  let depth ← stars n
  let (name, span) ← identifier "parameter list"
  if ← accept .leftBracket then
    match (← peek).kind with
    | .intLit _ => let _ ← advance
    | _ => pure ()
    let _ ← expect .rightBracket "parameter list"
    let depth ← deepen depth
    return ⟨name, ⟨base, depth, none⟩, start.extend span⟩
  else return ⟨name, ⟨base, depth, none⟩, start.extend span⟩

mutual

/-- One or more parameters. -/
def parameters (n : Nat) : Parser n (List Parameter) := do
  let first ← parameter n
  moreParameters n first
termination_by (n, 1)

/-- The parameters after one that has been read. -/
def moreParameters : (n : Nat) → Parameter → Parser n (List Parameter)
  | 0, first => return [first]
  | n + 1, first => do
    if ← at? .comma then
      take fun _ => do
        let others ← parameters n
        return first :: others
    else return [first]
termination_by n => (n, 0)

end

/-- The parameters of a function with their parentheses; `void` alone stands for none. -/
def parameterList (n : Nat) : Parser n (List Parameter) := do
  let _ ← expect .leftParen "parameter list"
  if (← peek).kind.isKeyword .void && (← peekSecond).kind.isPunct .rightParen then
    let _ ← advance
  let ps ← if ← at? .rightParen then pure [] else parameters n
  let _ ← expect .rightParen "parameter list"
  return ps

/-- A declaration or a function. The range of the first declarator begins at the type. -/
def item (n : Nat) : Parser n Item := do
  let start := (← peek).span
  let base ← baseType
  let depth ← stars n
  let (name, nameSpan) ← identifier "top-level declaration"
  if ← at? .leftParen then
    let ps ← parameterList n
    let result : TypeName := ⟨base, depth, none⟩
    if ← at? .semicolon then
      let close ← advance
      return .function ⟨name, result, ps, none, start.extend close.span⟩
    else
      let body ← block n
      return .function ⟨name, result, ps, some body, start.extend body.span⟩
  else
    let first ← declaratorTail n base depth name (start.extend nameSpan)
    return .declare (← declarationTail n base first)

/-- The items up to the end of the file. -/
def items : (n : Nat) → Parser n (List Item)
  | 0 => return []
  | n + 1 => do
    if (← peek).kind.isEnd then return []
    else
      let first ← item (n + 1)
      let others ← afterProgress (items n) []
      return first :: others

/-- A whole file. -/
def program (n : Nat) : Parser n Program := do
  let start := (← peek).span
  let items ← items n
  return ⟨items, start.extend (← peek).span⟩

end MiniC.Parser

namespace MiniC

/-- The program that a list of tokens spells. -/
def Ast.Program.ofTokens (tokens : List Token) : Except ParseError Ast.Program :=
  let ⟨n, cursor⟩ := Cursor.ofTokens tokens
  ((Parser.program n).run cursor).1

/-- Read a source text into a program, and its constants into the pool. -/
def parse (source file : String) (pool : Pool) : Except Diagnostic Ast.Program × Pool :=
  match tokenize source file pool with
  | (.error e, pool) => (.error e.diagnostic, pool)
  | (.ok tokens, pool) => ((Ast.Program.ofTokens tokens).mapError ParseError.diagnostic, pool)

end MiniC
