import MiniC.Typing.Stmt

/-!
# Checking programs

A program is checked in two passes: the first collects the functions and the global objects, so
that a function may be called before it is defined, and the second checks the bodies. What the
first pass collects stays known when later files are checked, even if this one is refused. A body is
checked in a block of its own on top of what is known, and the block is left also when the body is
refused.
-/

set_option autoImplicit false

namespace MiniC.Typing

/-- What is known from the files checked so far. -/
structure Known where
  scopes : Scopes := {}
  functions : Signatures := []
deriving Repr, Inhabited

namespace Known

/-- The global objects. -/
def globals (k : Known) : Scope := k.scopes.globals

/-- The signature that a function is declared with. -/
def signature (f : Ast.Function) : Except Error Signature := do
  let result ← f.result.resolve f.span
  if result.isArray then refuse (.unsupported .arrayResult) f.span
  else
    let parameters ← f.parameters.mapM fun p => do
      let type ← p.type.resolve p.span
      if type.isVoid then refuse (.unsupported (.voidParameter p.name)) p.span else return type
    return ⟨result, parameters, f.body.isSome⟩

/-- Whether a function may be declared again: the types agree, and only one has a body. -/
def agrees (old new : Signature) : Bool :=
  old.result == new.result && old.parameters == new.parameters &&
    !(old.isDefined && new.isDefined)

/-- Declare a function. -/
def addFunction (k : Known) (f : Ast.Function) : Except Error Known := do
  let new ← signature f
  if (k.scopes.lookup? f.name).isSome then refuse (.redefined f.name) f.span
  else
    match k.functions.find? f.name with
    | none => return { k with functions := k.functions.put f.name new }
    | some old =>
      if agrees old new then
        let merged := { old with isDefined := old.isDefined || new.isDefined }
        return { k with functions := k.functions.put f.name merged }
      else refuse (.redefined f.name) f.span

/-- Declare a global object. -/
def addGlobal (k : Known) (d : Ast.Declaration) : Except Error (Typed.Global × Known) := do
  let type ← d.type.resolve d.span
  if type.isVoid then refuse (.unsupported (.voidVariable d.name)) d.span
  else if (k.functions.find? d.name).isSome then refuse (.redefined d.name) d.span
  else
    let symbol := Symbol.inData d.name type
    let init ← d.init.mapM (globalInit d.name type)
    let scopes ← k.scopes.declare symbol d.span
    return (⟨symbol, init, d.span.start⟩, { k with scopes })

/-- Declare global objects until one is refused. -/
def addGlobals (k : Known) : List Ast.Declaration → Except Error (List Typed.Global) × Known
  | [] => (.ok [], k)
  | d :: ds =>
    match k.addGlobal d with
    | .error e => (.error e, k)
    | .ok (g, k) =>
      let (gs, k) := addGlobals k ds
      (gs.map (g :: ·), k)

/-- Declare what an item declares. -/
def addItem (k : Known) : Ast.Item → Except Error (List Typed.Global) × Known
  | .function f =>
    match k.addFunction f with
    | .error e => (.error e, k)
    | .ok k => (.ok [], k)
  | .declare ds => k.addGlobals ds

/-- Declare what a file declares, until an item is refused. -/
def addItems (k : Known) : List Ast.Item → Except Error (List Typed.Global) × Known
  | [] => (.ok [], k)
  | item :: items =>
    match k.addItem item with
    | (.error e, k) => (.error e, k)
    | (.ok gs, k) =>
      let (others, k) := addItems k items
      (others.map (gs ++ ·), k)

end Known

/-- Declare the parameters of a function. -/
def parameters : List Ast.Parameter → List CType → Check (List Symbol)
  | p :: ps, type :: types => do
    let symbol ← Check.reserve p.name type p.span
    Check.declare symbol p.span
    let others ← parameters ps types
    return symbol :: others
  | _, _ => return []

/-- The statements of a body: its outermost block has no scope apart from the parameters'. -/
def bodyStmts : Ast.Stmt → List Ast.Stmt
  | .block body _ => body
  | s => [s]

/-- Check a function's parameters and body. -/
def functionBody (ctx : Context) (f : Ast.Function) (types : List CType) (body : Ast.Stmt) :
    Check (List Symbol × List Typed.Stmt) := do
  let ps ← parameters f.parameters types
  let body ← stmts ctx (bodyStmts body)
  return (ps, body)

/-- Check a function that has a body. -/
def function (k : Known) (f : Ast.Function) (body : Ast.Stmt) :
    Except Error Typed.Function × Known :=
  match k.functions.find? f.name with
  | none => (refuse (.undefinedFunction f.name) f.span, k)
  | some signature =>
    let ctx : Context := ⟨k.functions, signature.result⟩
    let checked := Check.inBlock (functionBody ctx f signature.parameters body)
    let (found, locals) := checked.exec { scopes := k.scopes }
    let routine : Routine := ⟨f.name, signature.result, signature.parameters, locals.frame.size⟩
    (found.map fun (ps, body) => ⟨routine, ps, body, f.span.start⟩, { k with scopes := locals.scopes })

/-- Check the functions of a file that have bodies, until one is refused. -/
def functions (k : Known) : List Ast.Item → Except Error (List Typed.Function) × Known
  | [] => (.ok [], k)
  | .function ⟨name, result, ps, some body, span⟩ :: items =>
    match function k ⟨name, result, ps, some body, span⟩ body with
    | (.error e, k) => (.error e, k)
    | (.ok f, k) =>
      let (others, k) := functions k items
      (others.map (f :: ·), k)
  | _ :: items => functions k items

/-- Check a file against what is known, and learn what it declares. -/
def program (k : Known) (p : Ast.Program) : Except Error Typed.Program × Known :=
  match k.addItems p.items with
  | (.error e, k) => (.error e, k)
  | (.ok globals, k) =>
    let (fs, k) := functions k p.items
    (fs.map fun fs => ⟨globals, fs⟩, k)

/-- Check a program by itself. -/
def check (p : Ast.Program) : Except Error Typed.Program := (program {} p).1

end MiniC.Typing
