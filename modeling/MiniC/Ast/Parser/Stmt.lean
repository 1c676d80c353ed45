import MiniC.Ast.Parser.Declaration

/-!
# Parsing statements

An `else` belongs to the nearest `if` without one.
-/

set_option autoImplicit false

namespace MiniC.Parser

open Ast

variable {n : Nat}

/-- An expression as a statement, with its semicolon. -/
def exprStmt (n : Nat) : Parser n Stmt := do
  let e ← expr n
  let close ← expect .semicolon "expression statement"
  return .expr e (e.span.extend close.span)

/-- The condition of an `if` or a `while`, with its parentheses. -/
def condition (n : Nat) (context : String) : Parser n Expr := do
  let _ ← expect .leftParen context
  let e ← expr n
  let _ ← expect .rightParen context
  return e

/-- An expression, or nothing if `stop` comes next. -/
def exprUnless (n : Nat) (stop : Punct) : Parser n (Option Expr) := do
  if ← at? stop then return none else return some (← expr n)

/-- The range of a declaration statement: its semicolon does not belong to it. -/
def declarationSpan (start : Span) (declarations : List Declaration) : Span :=
  match declarations.getLast? with
  | some last => start.extend last.span
  | none => start

mutual

/-- A statement. -/
def stmt : (n : Nat) → Parser n Stmt
  | 0 => unexpected .expression
  | n + 1 => do
    let first ← peek
    if first.kind.isTypeKeyword then
      let declarations ← declaration (n + 1)
      return .declare declarations (declarationSpan first.span declarations)
    else
      match first.kind with
      | .punct .leftBrace => take fun openBrace => blockTail n openBrace.span
      | .keyword .if_ =>
        take fun _ => do
          let cond ← condition n "if statement"
          let thenBranch ← stmt n
          let elseBranch ← elseTail n
          let last := (elseBranch.getD thenBranch).span
          return .cond cond thenBranch elseBranch (first.span.extend last)
      | .keyword .while_ =>
        take fun _ => do
          let cond ← condition n "while statement"
          let body ← stmt n
          return .whileLoop cond body (first.span.extend body.span)
      | .keyword .for_ =>
        take fun _ => do
          let _ ← expect .leftParen "for statement"
          let init ← forInit n
          let cond ← exprUnless n .semicolon
          let _ ← expect .semicolon "for statement"
          let update ← exprUnless n .rightParen
          let _ ← expect .rightParen "for statement"
          let body ← stmt n
          return .forLoop init cond update body (first.span.extend body.span)
      | .keyword .return_ =>
        take fun _ => do
          let value ← exprUnless n .semicolon
          let close ← expect .semicolon "return statement"
          return .ret value (first.span.extend close.span)
      | .keyword .print =>
        take fun _ => do
          let value ← expr n
          let close ← expect .semicolon "print statement"
          return .print value (first.span.extend close.span)
      | .punct .semicolon => take fun semicolon => return .empty semicolon.span
      | _ => exprStmt (n + 1)
termination_by n => (n, 2)

/-- The first clause of a `for`, with its semicolon. -/
def forInit (n : Nat) : Parser n (Option Stmt) := do
  if ← accept .semicolon then return none
  else if (← peek).kind.isTypeKeyword then return some (← stmt n)
  else return some (← exprStmt n)
termination_by (n, 3)

/-- The `else` branch, if there is one. -/
def elseTail : (n : Nat) → Parser n (Option Stmt)
  | 0 => return none
  | n + 1 => do
    if (← peek).kind.isKeyword .else_ then take fun _ => some <$> stmt n
    else return none
termination_by n => (n, 0)

/-- The rest of a block once its opening brace is taken. -/
def blockTail (n : Nat) (start : Span) : Parser n Stmt := do
  let body ← stmts n
  let close ← expect .rightBrace "block"
  return .block body (start.extend close.span)
termination_by (n, 4)

/-- Statements up to a closing brace or the end of the file. -/
def stmts : (n : Nat) → Parser n (List Stmt)
  | 0 => return []
  | n + 1 => do
    let next := (← peek).kind
    if next.isPunct .rightBrace || next.isEnd then return []
    else
      let first ← stmt (n + 1)
      let others ← afterProgress (stmts n) []
      return first :: others
termination_by n => (n, 3)

end

/-- A block with its braces. -/
def block : (n : Nat) → Parser n Stmt
  | 0 => unexpected (.punct .leftBrace "block")
  | n + 1 => do
    if ← at? .leftBrace then take fun openBrace => blockTail n openBrace.span
    else unexpected (.punct .leftBrace "block")

end MiniC.Parser
