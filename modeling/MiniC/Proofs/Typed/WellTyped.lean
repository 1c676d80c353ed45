import MiniC.Typed
import MiniC.Typing.Scope
import Mathlib

/-!
# Well-typed programs

The typing rules of the tree that code is generated from: which operands a node may have, and which
type it has then. The rules are those of the language after checking, where every conversion is a
node of its own, so an operation never has operands of different types, and there is no rule for a
node that checking does not build.

A `Vocabulary` is what a tree may mention: the functions with their signatures, the objects, and the
floats and strings. Generating code needs the constants to be in a pool; the layout of a frame needs
the objects to be declared; the rules speak of both at once.

The trees nest through lists and through places. `Expr.induct` and `Stmt.induct` are the induction
principles that proofs about them use.
-/

set_option autoImplicit false

namespace MiniC.Typed

/-! ### Induction -/

section Induction

variable {motive : Expr → Prop}
  (literal : ∀ v, motive (.literal v))
  (object : ∀ s, motive (.load (.object s)))
  (pointee : ∀ a pointer, motive a → motive (.load (.pointee a pointer)))
  (addressOf : ∀ s type, motive (.addressOf s type))
  (unary : ∀ op e type, motive e → motive (.unary op e type))
  (binary : ∀ op l r type, motive l → motive r → motive (.binary op l r type))
  (logical : ∀ op l r, motive l → motive r → motive (.logical op l r))
  (assignObject : ∀ s v, motive v → motive (.assign (.object s) v))
  (assignPointee : ∀ a pointer v, motive a → motive v → motive (.assign (.pointee a pointer) v))
  (step : ∀ s increment after, motive (.step s increment after))
  (call : ∀ name args type, (∀ a ∈ args, motive a) → motive (.call name args type))
  (convert : ∀ e source target, motive e → motive (.convert e source target))
  (offset : ∀ p c element subtract, motive p → motive c → motive (.offset p c element subtract))

include literal object pointee addressOf unary binary logical assignObject assignPointee step call
  convert offset

/-- Induction over expressions. Places are taken apart, and of a call's arguments the hypothesis
holds one by one. -/
@[elab_as_elim]
theorem Expr.induct (e : Expr) : motive e := by
  refine @Expr.rec (fun p => ∀ a pointer, p = .pointee a pointer → motive a) motive
    (fun es => ∀ e ∈ es, motive e) ?_ ?_ literal ?_ addressOf unary binary logical ?_ step ?_
    convert offset ?_ ?_ e
  · intro s a pointer hp
    cases hp
  · intro a pointer ha a' pointer' hp
    cases hp
    exact ha
  · intro p hp
    cases p with
    | object s => exact object s
    | pointee a pointer => exact pointee a pointer (hp a pointer rfl)
  · intro p v hp hv
    cases p with
    | object s => exact assignObject s v hv
    | pointee a pointer => exact assignPointee a pointer v (hp a pointer rfl) hv
  · intro name args type hargs
    exact call name args type hargs
  · simp
  · intro e es he hes
    exact List.forall_mem_cons.mpr ⟨he, hes⟩

end Induction

section Induction

variable {motive : Stmt → Prop}
  (block : ∀ body, (∀ s ∈ body, motive s) → motive (.block body))
  (print : ∀ e place, motive (.print e place))
  (declare : ∀ s init place, motive (.declare s init place))
  (expr : ∀ e place, motive (.expr e place))
  (cond : ∀ c thenBranch elseBranch place, motive thenBranch → (∀ s ∈ elseBranch, motive s) →
    motive (.cond c thenBranch elseBranch place))
  (whileLoop : ∀ c body place, motive body → motive (.whileLoop c body place))
  (forLoop : ∀ init c update body place, (∀ s ∈ init, motive s) → motive body →
    motive (.forLoop init c update body place))
  (ret : ∀ value place, motive (.ret value place))
  (empty : motive .empty)

include block print declare expr cond whileLoop forLoop ret empty

@[elab_as_elim]
theorem Stmt.induct (s : Stmt) : motive s := by
  refine @Stmt.rec motive (fun body => ∀ s ∈ body, motive s) (fun branch => ∀ s ∈ branch, motive s)
    block print declare expr cond whileLoop forLoop ret empty ?_ ?_ ?_ ?_ s
  · simp
  · intro s body hs hbody
    exact List.forall_mem_cons.mpr ⟨hs, hbody⟩
  · simp
  · intro s hs
    simpa using hs

end Induction

/-! ### Typing rules -/

/-- What a program may mention. -/
structure Vocabulary where
  functions : Typing.Signatures
  objects : Symbol → Prop
  floats : Float → Prop
  strings : String → Prop

/-- The constants of a vocabulary; there is no question of integers. -/
def Vocabulary.Constant (V : Vocabulary) : Value → Prop
  | .float x => V.floats x
  | .str s => V.strings s
  | _ => True

/-- The null pointer. -/
abbrev null : Expr := .literal (.long 0)

/-- Values that an object of a type can be given. -/
def Expr.Fits (e : Expr) (target : CType) : Prop :=
  (e.valueType = target ∧ target.isVoid = false) ∨ (target.isPointer = true ∧ e = null)

/-- Operands that can be compared. -/
inductive Comparable : Expr → Expr → Prop
  | scalars {l r : Expr} {s : Scalar} (hl : l.valueType = .scalar s) (hr : r.valueType = .scalar s) :
    Comparable l r
  | pointers {l r : Expr} {s : Scalar} (hl : l.valueType = .pointer s)
    (hr : r.valueType = .pointer s) : Comparable l r
  | pointerNull {l : Expr} {s : Scalar} (hl : l.valueType = .pointer s) : Comparable l null
  | nullPointer {r : Expr} {s : Scalar} (hr : r.valueType = .pointer s) : Comparable null r

/-- The typing rules of expressions. -/
inductive Expr.WellTyped (V : Vocabulary) : Expr → Prop
  | literal {v : Value} (hv : V.Constant v) : WellTyped V (.literal v)
  | object {s : Symbol} (hs : V.objects s) (ht : s.type.isVoid = false) :
    WellTyped V (.load (.object s))
  | pointee {a : Expr} {element : Scalar} (ha : WellTyped V a)
    (ht : a.valueType = .pointer element) : WellTyped V (.load (.pointee a (.pointer element)))
  | addressOf {s : Symbol} {element : Scalar} (hs : V.objects s)
    (ht : s.type = .scalar element ∨ ∃ length, s.type = .array element length) :
    WellTyped V (.addressOf s (.pointer element))
  | negate {e : Expr} {s : Scalar} (he : WellTyped V e) (ht : e.valueType = .scalar s)
    (hs : s ≠ .char) : WellTyped V (.unary .minus e (.scalar s))
  | invert {e : Expr} {s : Scalar} (he : WellTyped V e) (ht : e.valueType = .scalar s)
    (hs : s = .int ∨ s = .long) : WellTyped V (.unary .bitNot e (.scalar s))
  | not {e : Expr} (he : WellTyped V e) (ht : e.type.isVoid = false) :
    WellTyped V (.unary .logicalNot e .long)
  | arithmetic {op : BinaryOp} {l r : Expr} {s : Scalar} (hop : op.arith?.isSome = true)
    (hl : WellTyped V l) (hr : WellTyped V r) (hlt : l.valueType = .scalar s)
    (hrt : r.valueType = .scalar s) (hs : s ≠ .char) (hf : s = .float → op.isIntegerOnly = false) :
    WellTyped V (.binary op l r (.scalar s))
  | distance {l r : Expr} {element : Scalar} (hl : WellTyped V l) (hr : WellTyped V r)
    (hlt : l.valueType = .pointer element) (hrt : r.valueType = .pointer element) :
    WellTyped V (.binary .sub l r .long)
  | compare {op : BinaryOp} {l r : Expr} (hop : op.relation?.isSome = true) (hl : WellTyped V l)
    (hr : WellTyped V r) (ht : Comparable l r) : WellTyped V (.binary op l r .long)
  | logical {op : BinaryOp} {l r : Expr} (hop : op.isLogical = true) (hl : WellTyped V l)
    (hr : WellTyped V r) (hlt : l.type.isVoid = false) (hrt : r.type.isVoid = false) :
    WellTyped V (.logical op l r)
  | assignObject {s : Symbol} {v : Expr} (hs : V.objects s) (ha : s.type.isArray = false)
    (hv : WellTyped V v) (ht : v.Fits s.type) : WellTyped V (.assign (.object s) v)
  | assignPointee {a v : Expr} {element : Scalar} (ha : WellTyped V a)
    (ht : a.valueType = .pointer element) (hv : WellTyped V v) (hvt : v.valueType = .scalar element) :
    WellTyped V (.assign (.pointee a (.pointer element)) v)
  | step {s : Symbol} {increment after : Bool} (hs : V.objects s)
    (ht : s.type.isInteger = true ∨ s.type.isPointer = true) :
    WellTyped V (.step s increment after)
  | call {name : String} {args : List Expr} {signature : Typing.Signature}
    (hf : V.functions.find? name = some signature) (ha : ∀ a ∈ args, WellTyped V a)
    (ht : List.Forall₂ Expr.Fits args signature.parameters) :
    WellTyped V (.call name args signature.result)
  | convert {e : Expr} {source target : Scalar} (he : WellTyped V e)
    (ht : e.type = .scalar source) (hne : source ≠ target) :
    WellTyped V (.convert e source target)
  | offset {p c : Expr} {element : Scalar} {subtract : Bool} (hp : WellTyped V p)
    (hc : WellTyped V c) (hpt : p.valueType = .pointer element) (hct : c.type = .long) :
    WellTyped V (.offset p c element subtract)

/-- What a local object of a type is initialized with. -/
inductive LocalInit.WellTyped (V : Vocabulary) (type : CType) : LocalInit → Prop
  | scalar {e : Expr} (ha : type.isArray = false) (he : e.WellTyped V) (ht : e.Fits type) :
    WellTyped V type (.scalar e)
  | elements {es : List Expr} {element : Scalar} {length : Nat} (ht : type = .array element length)
    (hlen : es.length ≤ length) (he : ∀ e ∈ es, e.WellTyped V)
    (het : ∀ e ∈ es, e.valueType = .scalar element) : WellTyped V type (.elements es)

/-- The typing rules of statements in a function that returns `result`. -/
inductive Stmt.WellTyped (V : Vocabulary) (result : CType) : Stmt → Prop
  | block {body : List Stmt} (hb : ∀ s ∈ body, WellTyped V result s) :
    WellTyped V result (.block body)
  | print {e : Expr} {place : Location} (he : e.WellTyped V) (ht : e.type.isVoid = false) :
    WellTyped V result (.print e place)
  | declare {s : Symbol} {init : Option LocalInit} {place : Location} (hs : V.objects s)
    (ht : s.type.isVoid = false) (hsize : s.type.size < 2 ^ 31)
    (hi : ∀ i ∈ init, i.WellTyped V s.type) : WellTyped V result (.declare s init place)
  | expr {e : Expr} {place : Location} (he : e.WellTyped V) : WellTyped V result (.expr e place)
  | cond {c : Expr} {thenBranch : Stmt} {elseBranch : Option Stmt} {place : Location}
    (hc : c.WellTyped V) (ht : c.type.isVoid = false) (hthen : WellTyped V result thenBranch)
    (helse : ∀ s ∈ elseBranch, WellTyped V result s) :
    WellTyped V result (.cond c thenBranch elseBranch place)
  | whileLoop {c : Expr} {body : Stmt} {place : Location} (hc : c.WellTyped V)
    (ht : c.type.isVoid = false) (hb : WellTyped V result body) :
    WellTyped V result (.whileLoop c body place)
  | forLoop {init : Option Stmt} {c update : Option Expr} {body : Stmt} {place : Location}
    (hi : ∀ s ∈ init, WellTyped V result s)
    (hc : ∀ e ∈ c, e.WellTyped V ∧ e.type.isVoid = false) (hu : ∀ e ∈ update, e.WellTyped V)
    (hb : WellTyped V result body) : WellTyped V result (.forLoop init c update body place)
  | retValue {e : Expr} {place : Location} (he : e.WellTyped V) (ht : e.Fits result) :
    WellTyped V result (.ret (some e) place)
  | ret {place : Location} (ht : result = .void) : WellTyped V result (.ret none place)
  | empty : WellTyped V result .empty

/-- The rules of a function: its parameters are single values in its frame. -/
structure Function.WellTyped (V : Vocabulary) (f : Function) : Prop where
  parameters : ∀ p ∈ f.parameters, V.objects p ∧ p.type.isVoid = false ∧ p.type.isArray = false
  frame : f.routine.frameSize < 2 ^ 31
  body : ∀ s ∈ f.body, s.WellTyped V f.routine.result

/-- Constants that an object of the data section can be given. -/
inductive DataFits (V : Vocabulary) : CType → Constant → Prop
  | scalar {s : Scalar} {v : Value} (hv : v.type = .scalar s) :
    DataFits V (.scalar s) (.value v)
  | null {element : Scalar} : DataFits V (.pointer element) (.value (.long 0))
  | string {text : String} (hs : V.strings text) :
    DataFits V (.pointer .char) (.value (.str text))
  | elements {element : Scalar} {length : Nat} {vs : List Value} (hlen : vs.length ≤ length)
    (hv : ∀ v ∈ vs, v.type = .scalar element) :
    DataFits V (.array element length) (.list (vs.map .value))

/-- The rules of a global object. -/
structure Global.WellTyped (V : Vocabulary) (g : Global) : Prop where
  inData : g.symbol.isGlobal = true
  type : g.symbol.type.isVoid = false
  init : ∀ c ∈ g.init, DataFits V g.symbol.type c

end MiniC.Typed
