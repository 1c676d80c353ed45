import MiniC.Ast.Parser.Expr

/-!
# Parsing declarations

A declaration is a type keyword followed by declarators, each with stars of its own, a name, an
optional array length and an optional initializer.
-/

set_option autoImplicit false

namespace MiniC.Parser

open Ast

variable {n : Nat}

/-- The length of an array in brackets, if there is one. It must be a positive `int` literal; the
token that stands in its place is taken even if it is not. -/
def arrayLength : Parser n (Option Nat) := do
  if ← accept .leftBracket then
    let length ← advance
    match length.kind with
    | .intLit v =>
      if 0 < v.toInt then
        let _ ← expect .rightBracket "array declarator"
        return some v.toInt.toNat
      else throw (.badArrayLength length.kind length.span.start)
    | kind => throw (.badArrayLength kind length.span.start)
  else return none

mutual

/-- An initializer: an expression or a list in braces. -/
def initializer : (n : Nat) → Parser n Initializer
  | 0 => unexpected .expression
  | n + 1 => do
    if ← at? .leftBrace then
      take fun openBrace => do
        let items ← initializers n
        let close ← expect .rightBrace "initializer list"
        return .list items (openBrace.span.extend close.span)
    else return .expr (← expr (n + 1))
termination_by n => (n, 1)

/-- The items of a list up to its closing brace; a comma may follow the last one. -/
def initializers (n : Nat) : Parser n (List Initializer) := do
  if ← at? .rightBrace then return []
  else
    let first ← initializer n
    moreInitializers n first
termination_by (n, 2)

/-- The items after one that has been read. -/
def moreInitializers : (n : Nat) → Initializer → Parser n (List Initializer)
  | 0, first => return [first]
  | n + 1, first => do
    if ← at? .comma then
      take fun _ => do
        let others ← initializers n
        return first :: others
    else return [first]
termination_by n => (n, 0)

end

/-- The rest of a declarator once its stars and its name are read. -/
def declaratorTail (n : Nat) (base : BaseType) (depth : Nat) (name : String) (span : Span) :
    Parser n Declaration := do
  let length ← arrayLength
  if ← accept .equal then
    let init ← initializer n
    return ⟨name, ⟨base, depth, length⟩, some init, span.extend init.span⟩
  else return ⟨name, ⟨base, depth, length⟩, none, span⟩

/-- A declarator with everything that follows the type keyword. -/
def declarator (n : Nat) (base : BaseType) : Parser n Declaration := do
  let depth ← stars n
  let (name, span) ← identifier "declaration"
  declaratorTail n base depth name span

/-- The declarators after one that has been read, each behind a comma. -/
def moreDeclarators (base : BaseType) : (n : Nat) → Parser n (List Declaration)
  | 0 => return []
  | n + 1 => do
    if ← at? .comma then
      take fun _ => do
        let next ← declarator n base
        let others ← moreDeclarators base n
        return next :: others
    else return []

/-- The rest of a declaration once its first declarator is read. -/
def declarationTail (n : Nat) (base : BaseType) (first : Declaration) :
    Parser n (List Declaration) := do
  let others ← moreDeclarators base n
  let _ ← expect .semicolon "declaration"
  return first :: others

/-- A declaration inside a function. -/
def declaration (n : Nat) : Parser n (List Declaration) := do
  let base ← baseType
  let first ← declarator n base
  declarationTail n base first

end MiniC.Parser
