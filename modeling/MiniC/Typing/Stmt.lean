import MiniC.Typing.Expr
import MiniC.Typing.Frame

/-!
# Checking statements

Checking a function's statements in order adds objects to the innermost scope and to the frame. An
object is not in scope in its own initializer. A loop or branch has a scope of its own only if it
has braces; a `for` always has one, for its first clause.
-/

set_option autoImplicit false

namespace MiniC.Typing

/-- What stays the same while a function is checked. -/
structure Context where
  functions : Signatures
  /-- The type that the function returns. -/
  result : CType

/-- What grows while a function is checked. -/
structure Locals where
  scopes : Scopes
  frame : Frame := {}

/-- Checking with the objects declared so far; what was declared before a refusal stays. -/
abbrev Check := ExceptT Error (StateM Locals)

namespace Check

variable {α : Type}

/-- Check from a state, and give the outcome and the state after it. -/
def exec (m : Check α) (locals : Locals) : Except Error α × Locals := m locals

/-- Look names up among what is declared so far. -/
def withEnv (ctx : Context) (f : Env → Except Error α) : Check α := fun locals =>
  (f ⟨locals.scopes, ctx.functions⟩, locals)

/-- Check inside a block of its own, which is left also when something in it is refused. -/
def inBlock (body : Check α) : Check α := fun locals =>
  let (a, inner) := body.exec { locals with scopes := locals.scopes.push }
  (a, { inner with scopes := inner.scopes.pop })

/-- Reserve storage for an object. -/
def reserve (name : String) (type : CType) (span : Span) : Check Symbol := fun locals =>
  match locals.frame.allocate name type span with
  | .ok (offset, frame) => (.ok (Symbol.onFrame name type offset), { locals with frame })
  | .error e => (.error e, locals)

/-- Bring an object into scope. -/
def declare (symbol : Symbol) (span : Span) : Check Unit := fun locals =>
  match locals.scopes.declare symbol span with
  | .ok scopes => (.ok (), { locals with scopes })
  | .error e => (.error e, locals)

end Check

/-- Check an expression that is used for its value. -/
def checkValue (ctx : Context) (e : Ast.Expr) : Check Typed.Expr :=
  Check.withEnv ctx fun env => value env e

/-- Check the leading elements of a local array. -/
def arrayElements (env : Env) (name : String) (element : Scalar) (length : Nat)
    (init : Ast.Initializer) : Except Error (List Typed.Expr) := do
  match element, init with
  | .char, .expr (.literal (.str s) _) =>
    withinLength name length init.span ((arrayChars s length).map .literal)
  | _, .expr e =>
    let v ← value env e
    refuse (.typeMismatch (.array element length) v.type) e.span
  | _, .list .. =>
    let values ← init.leaves.mapM fun e => do coerce (← value env e) (.scalar element) e.span
    withinLength name length init.span values

/-- Check the initializer of a local object. -/
def localInit (env : Env) (name : String) (type : CType) (init : Ast.Initializer) :
    Except Error Typed.LocalInit := do
  match type, init with
  | .array element length, init => return .elements (← arrayElements env name element length init)
  | type, .expr e => return .scalar (← coerce (← value env e) type e.span)
  | _, .list _ span => refuse (.unsupported (.listForNonArray name)) span

/-- Check the declaration of a local object. -/
def declaration (ctx : Context) (d : Ast.Declaration) : Check Typed.Stmt := do
  let type ← d.type.resolve d.span
  if type.isVoid then
    throw ⟨.unsupported (.voidVariable d.name), d.span⟩
  let init ← d.init.mapM fun init => Check.withEnv ctx fun env => localInit env d.name type init
  if (← get).scopes.declares d.name then
    throw ⟨.redefined d.name, d.span⟩
  let symbol ← Check.reserve d.name type d.span
  Check.declare symbol d.span
  return .declare symbol init d.span.start

/-- Declarations of one statement: a single one stands alone, several form a block. -/
def declarations (ctx : Context) (ds : List Ast.Declaration) : Check Typed.Stmt := do
  match ← ds.mapM (declaration ctx) with
  | [single] => return single
  | several => return .block several

/-- The value that a function returns, as its type. -/
def returned (env : Env) (result : CType) (e : Ast.Expr) (span : Span) :
    Except Error Typed.Expr := do
  let v ← value env e
  if result.isVoid then refuse (.returnMismatch result v.type) span
  else
    match coerce v result e.span with
    | .ok converted => return converted
    | .error ⟨.typeMismatch _ found, at_⟩ => refuse (.returnMismatch result found) at_
    | .error other => .error other

/-- Check a `return`: it gives a value just when the function returns one. -/
def ret (ctx : Context) (e : Option Ast.Expr) (span : Span) : Check Typed.Stmt := do
  match e with
  | some e =>
    let v ← Check.withEnv ctx fun env => returned env ctx.result e span
    return .ret (some v) span.start
  | none =>
    if ctx.result.isVoid then return .ret none span.start
    else throw ⟨.returnMismatch ctx.result .void, span⟩

mutual

def stmt (ctx : Context) : Ast.Stmt → Check Typed.Stmt
  | .expr e span => do return .expr (← Check.withEnv ctx fun env => expr env e) span.start
  | .block body _ => do return .block (← Check.inBlock (stmts ctx body))
  | .declare ds _ => declarations ctx ds
  | .print e span => do return .print (← checkValue ctx e) span.start
  | .cond condition thenBranch elseBranch span => do
    let condition ← checkValue ctx condition
    let thenBranch ← stmt ctx thenBranch
    let elseBranch ← optionalStmt ctx elseBranch
    return .cond condition thenBranch elseBranch span.start
  | .whileLoop condition body span => do
    let condition ← checkValue ctx condition
    let body ← stmt ctx body
    return .whileLoop condition body span.start
  | .forLoop init condition update body span =>
    Check.inBlock do
      let init ← optionalStmt ctx init
      let condition ← condition.mapM (checkValue ctx)
      let update ← update.mapM fun e => Check.withEnv ctx fun env => expr env e
      let body ← stmt ctx body
      return .forLoop init condition update body span.start
  | .ret value span => ret ctx value span
  | .empty _ => return .empty

def stmts (ctx : Context) : List Ast.Stmt → Check (List Typed.Stmt)
  | [] => return []
  | s :: rest => do
    let s ← stmt ctx s
    let rest ← stmts ctx rest
    return s :: rest

def optionalStmt (ctx : Context) : Option Ast.Stmt → Check (Option Typed.Stmt)
  | none => return none
  | some s => do return some (← stmt ctx s)

end

end MiniC.Typing
