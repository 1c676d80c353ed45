import MiniC.Emit.Storage
import MiniC.Proofs.Emit.Linkage

/-!
# Operands of the wrong type are refused at once

An operation compares the types of its operands before it does anything else, so that one which is refused for
them leaves the emitter as it was (`Atomic`). Three facts about the parts of an operation are enough for that:
some only look at the state (`Looks`), some are never refused for types (`Tame`), and an operation is atomic if
it looks first and is tame afterwards.

An operation that stores what it has just taken a register for is tame as well, since the register is of the type
of the object: this is so where a variable is counted up or down and where parameters are stored.
-/

set_option autoImplicit false

namespace MiniC.Emit

open MiniC.X86 (Gpr Register Operand Instr Line Directive)

/-- A refusal for the types of operands. -/
@[grind] def Error.IsMismatch : Error → Prop
  | typeMismatch _ _ _ => True
  | _ => False

section Judgements

variable {α β : Type}

/-- The computation does not fail for types. -/
def Mild (x : Except Error α) : Prop := ∀ err, x = .error err → ¬ err.IsMismatch

/-- The operation changes nothing, however it ends. -/
def Looks (m : Emit α) : Prop := ∀ s e, (exec m s e).2 = e

/-- The operation is never refused for types. -/
def Tame (m : Emit α) : Prop := ∀ s e x e', exec m s e = (.error x, e') → ¬ x.IsMismatch

/-- The operation changes nothing if it is refused for types. -/
def Atomic (m : Emit α) : Prop := ∀ s e x e', exec m s e = (.error x, e') → x.IsMismatch → e' = e

variable {x : Except Error α} {m : Emit α} {f : α → Emit β}

/-! ### Operations put together -/

@[grind ←] theorem mild_ok (a : α) : Mild (.ok a) := fun _ h => by cases h

@[grind ←] theorem mild_pure (a : α) : Mild (pure a) := mild_ok a

theorem mild_error {err : Error} (h : ¬ err.IsMismatch) : Mild (.error err : Except Error α) := fun _ heq => by
  cases heq
  exact h

theorem Mild.bind {g : α → Except Error β} (hx : Mild x) (hg : ∀ a, Mild (g a)) : Mild (x >>= g) := by
  cases x with
  | ok a => exact hg a
  | error err => exact mild_error (hx err rfl)

@[grind ←] theorem looks_pure (a : α) : Looks (pure a : Emit α) := fun _ _ => rfl

@[grind ←] theorem looks_throw (x : Error) : Looks (throw x : Emit α) := fun _ _ => rfl

@[grind ←] theorem looks_get : Looks (get : Emit Emitter) := fun _ _ => rfl

@[grind ←] theorem looks_read : Looks (read : Emit Setting) := fun _ _ => rfl

@[grind ←] theorem looks_ofExcept (x : Except Error α) : Looks (ofExcept x) := by
  cases x <;> exact fun _ _ => rfl

@[grind ←] theorem Looks.bind (hm : Looks m) (hf : ∀ a, Looks (f a)) : Looks (m >>= f) := by
  intro s e
  have hsame := hm s e
  rw [exec_bind]
  split
  · rename_i heq
    rw [heq] at hsame
    exact (hf _ s _).trans hsame
  · rename_i heq
    rw [heq] at hsame
    exact hsame

@[grind ←] theorem tame_pure (a : α) : Tame (pure a : Emit α) := fun _ _ _ _ h => by cases h

@[grind ←] theorem tame_modify (g : Emitter → Emitter) : Tame (modify g : Emit PUnit) := fun _ _ _ _ h => by
  cases h

@[grind ←] theorem tame_get : Tame (get : Emit Emitter) := fun _ _ _ _ h => by cases h

@[grind ←] theorem tame_read : Tame (read : Emit Setting) := fun _ _ _ _ h => by cases h

@[grind ←] theorem tame_throw {x : Error} (hx : ¬ x.IsMismatch) : Tame (throw x : Emit α) := fun _ _ _ _ h => by
  cases h
  exact hx

@[grind ←] theorem tame_ofExcept (hx : Mild x) : Tame (ofExcept x) := by
  cases x with
  | ok a => exact tame_pure a
  | error err => exact tame_throw (hx err rfl)

/-- What follows an operation may count on how that one succeeded. -/
theorem Tame.bind_ok (hm : Tame m) (hf : ∀ s e a e', exec m s e = (.ok a, e') → Tame (f a)) :
    Tame (m >>= f) := by
  intro s e x e' h
  rw [exec_bind] at h
  split at h
  · rename_i a e1 hok
    exact hf s e a e1 hok s e1 x e' h
  · rename_i herror
    cases h
    exact hm s e x e' herror

@[grind ←] theorem Tame.bind (hm : Tame m) (hf : ∀ a, Tame (f a)) : Tame (m >>= f) :=
  hm.bind_ok fun _ _ a _ _ => hf a

@[grind ←] theorem Tame.map (hm : Tame m) (g : α → β) : Tame (g <$> m) :=
  hm.bind fun a => tame_pure (g a)

@[grind ←] theorem Tame.atomic (hm : Tame m) : Atomic m := fun s e x e' h hx => absurd hx (hm s e x e' h)

@[grind ←] theorem Looks.atomic (hm : Looks m) : Atomic m := by
  intro s e x e' h _
  have hsame := hm s e
  rw [h] at hsame
  exact hsame

/-- An atomic operation may come after others that only look. -/
@[grind ←] theorem Atomic.after (hm : Looks m) (hf : ∀ a, Atomic (f a)) : Atomic (m >>= f) := by
  intro s e x e' h hx
  have hsame := hm s e
  rw [exec_bind] at h
  split at h
  · rename_i heq
    rw [heq] at hsame
    exact (hf _ s _ x e' h hx).trans hsame
  · rename_i heq
    cases h
    rw [heq] at hsame
    exact hsame

/-- An atomic operation may come before others that are tame. -/
@[grind ←] theorem Atomic.before (hm : Atomic m) (hf : ∀ a, Tame (f a)) : Atomic (m >>= f) := by
  intro s e x e' h hx
  rw [exec_bind] at h
  split at h
  · exact absurd hx (hf _ _ _ _ _ h)
  · rename_i heq
    cases h
    exact hm s e _ _ heq hx

theorem Atomic.map (hm : Atomic m) (g : α → β) : Atomic (g <$> m) :=
  hm.before fun a => tame_pure (g a)

end Judgements

/-! ### Primitives -/

section Primitives

variable (r : Reg)

@[grind ←] theorem tame_line (l : Line) : Tame (line l) := tame_modify _

@[grind ←] theorem tame_instr (i : Instr) : Tame (instr i) := tame_line _

@[grind ←] theorem tame_instrs (is : List Instr) : Tame (instrs is) := by
  induction is with
  | nil => exact tame_pure ()
  | cons i is ih => exact (tame_instr i).bind fun _ => ih

@[grind ←] theorem tame_label (name : String) : Tame (label name) := tame_line _

@[grind ←] theorem tame_directive (d : Directive) : Tame (directive d) := tame_line _

@[grind ←] theorem tame_dataLines (lines : List Line) : Tame (dataLines lines) := tame_modify _

@[grind ←] theorem tame_freeAll : Tame freeAll := tame_modify _

@[grind ←] theorem tame_allocate (view : Scalar) : Tame (allocate view) := by
  intro s e x e' h
  rw [exec_allocate] at h
  split at h <;> cases h
  exact id

theorem mild_check (b : Bank registerFile) : Mild (b.check r) := by
  unfold Bank.check
  split_ifs
  · exact mild_error id
  · exact mild_ok ()
  · exact mild_error id

theorem mild_nameOf (b : Bank registerFile) : Mild (b.nameOf r) := by
  refine (mild_check r b).bind fun _ => ?_
  split
  · exact mild_pure _
  · exact mild_error id

theorem mild_byteNameOf (b : Bank registerFile) : Mild (b.byteNameOf r) := by
  refine (mild_check r b).bind fun _ => ?_
  split
  · split
    · exact mild_pure _
    · exact mild_error id
  · exact mild_error id

theorem mild_as (view : Scalar) : Mild (r.as view) := by
  unfold Reg.as
  split
  · exact mild_ok _
  · exact mild_error id

theorem mild_held (type : CType) : Mild (held type) := by
  cases type with
  | void => exact mild_error id
  | _ => exact mild_ok _

theorem mild_assignArguments (views : List Scalar) : Mild (assignArguments views) := by
  intro err h
  obtain ⟨index, view, rfl⟩ := error_of_assignFrom h
  exact id

@[grind ←] theorem tame_check : Tame (check r) := tame_get.bind fun _ => tame_ofExcept (mild_check r _)

@[grind ←] theorem tame_free : Tame (free r) := by
  refine tame_get.bind fun e => ?_
  split
  · rename_i err h
    exact tame_throw (((mild_check r _).bind fun _ => mild_pure _) err h)
  · exact fun _ _ _ _ h => by cases h

@[grind ←] theorem tame_as (view : Scalar) : Tame (ofExcept (r.as view)) := tame_ofExcept (mild_as r view)

@[grind ←] theorem tame_held (type : CType) : Tame (ofExcept (held type)) := tame_ofExcept (mild_held type)

@[grind ←] theorem tame_assignArguments (views : List Scalar) : Tame (ofExcept (assignArguments views)) :=
  tame_ofExcept (mild_assignArguments views)

@[grind ←] theorem tame_operand : Tame (operand r) :=
  tame_get.bind fun _ => (tame_ofExcept (mild_nameOf r _)).bind fun _ => tame_pure _

@[grind ←] theorem tame_quad : Tame (quad r) := (tame_as r .long).bind tame_operand

@[grind ←] theorem tame_long : Tame (long r) := (tame_as r .int).bind tame_operand

@[grind ←] theorem tame_byte : Tame (byte r) :=
  tame_get.bind fun _ => (tame_ofExcept (mild_byteNameOf r _)).bind fun _ => tame_pure _

@[grind ←] theorem tame_pointer : Tame (pointer r) := by
  refine (tame_check r).bind fun _ => ?_
  split
  · exact tame_pure _
  · exact tame_throw id

@[grind ←] theorem looks_check : Looks (check r) := by
  unfold check
  grind

@[grind ←] theorem looks_pointer : Looks (pointer r) := by
  unfold pointer
  grind

@[grind ←] theorem looks_sameView (operation : String) (left right : Reg) :
    Looks (sameView operation left right) := by
  unfold sameView
  grind

@[grind ←] theorem looks_expectView (operation : String) (view : Scalar) :
    Looks (expectView operation r view) := by
  unfold expectView
  grind

theorem tame_expectView {view : Scalar} (h : r.view = view) (operation : String) :
    Tame (expectView operation r view) := by
  unfold expectView
  rw [if_neg (not_not_intro h)]
  grind

@[grind ←] theorem tame_releaseLeaks (scope : String) : Tame (releaseLeaks scope) := by
  refine tame_get.bind fun e => ?_
  dsimp only
  split_ifs
  · refine tame_read.bind fun s => ?_
    split_ifs
    · exact tame_throw id
    · exact (tame_modify _).bind fun _ => tame_freeAll
  · exact tame_pure _

@[grind ←] theorem tame_normalize : Tame (normalize r) := by
  unfold normalize
  grind

end Primitives

/-! ### Operations -/

section Operations

variable (r : Reg) (o : Symbol)

@[grind ←] theorem tame_moveImmediate (value : Int64) : Tame (moveImmediate r value) := by
  unfold moveImmediate
  grind

@[grind ←] theorem tame_loadInteger (view : Scalar) (value : Int64) : Tame (loadInteger view value) := by
  unfold loadInteger
  grind

@[grind ←] theorem tame_loadImmediate (value : Value) : Tame (loadImmediate value) := by
  cases value with
  | float x =>
    refine tame_read.bind fun s => ?_
    split <;> grind
  | str text =>
    refine tame_read.bind fun s => ?_
    split <;> grind
  | _ => exact tame_loadInteger _ _

@[grind ←] theorem tame_loadInto (type : CType) (src : Operand) : Tame (loadInto r type src) := by
  unfold loadInto
  split <;> grind

theorem atomic_storeTo (type : CType) (dst : Operand) : Atomic (storeTo r type dst) := by
  unfold storeTo
  split <;> grind

theorem tame_storeTo {type : CType} (h : held type = .ok r.view) (dst : Operand) : Tame (storeTo r type dst) := by
  unfold storeTo
  split <;> first | exact tame_throw id | have := tame_expectView r (Except.ok.inj h).symm "store"; grind

@[grind ←] theorem tame_addressOf : Tame (addressOf o) := by
  unfold addressOf
  grind

@[grind ←] theorem tame_loadSymbol : Tame (loadSymbol o) := by
  unfold loadSymbol
  grind

theorem view_of_allocate {view : Scalar} {s : Setting} {e e' : Emitter} {r : Reg}
    (h : exec (allocate view) s e = (.ok r, e')) : r.view = view := by
  rw [exec_allocate] at h
  split at h <;> cases h
  exact (Emitter.of_fresh? ‹_›).1

theorem atomic_storeElement (index : Nat) : Atomic (storeElement r o index) := by
  unfold storeElement
  split
  · have := atomic_storeTo r
    grind
  · grind

theorem atomic_dereference (type : CType) : Atomic (dereference r type) := by
  unfold dereference
  grind

theorem atomic_storeIndirect (value address : Reg) (type : CType) :
    Atomic (storeIndirect value address type) := by
  have hstore := atomic_storeTo value
  unfold storeIndirect
  grind

theorem atomic_elementAddress (base index : Reg) (element : Scalar) :
    Atomic (elementAddress base index element) := by
  unfold elementAddress
  grind

/-- The register of a value that is loaded is of the type of the object. -/
theorem held_of_loadSymbol {o : Symbol} {s : Setting} {e e' : Emitter} {r : Reg} (ha : o.type.isArray = false)
    (h : exec (loadSymbol o) s e = (.ok r, e')) : held o.type = .ok r.view := by
  unfold loadSymbol at h
  rw [ha, if_neg Bool.false_ne_true] at h
  obtain ⟨view, e1, hheld, h⟩ := exec_bind_eq_ok h
  obtain ⟨r', e2, hallocate, h⟩ := exec_bind_eq_ok h
  obtain ⟨u, e3, -, h⟩ := exec_bind_eq_ok h
  cases h
  rw [view_of_allocate hallocate]
  cases hv : held o.type with
  | ok v => rw [hv] at hheld; cases hheld; rfl
  | error x => rw [hv] at hheld; cases hheld

theorem tame_step (increment after : Bool) : Tame (step o increment after) := by
  unfold step
  split
  · exact tame_throw id
  · rename_i amount hamount
    have ha : o.type.isArray = false := by
      cases ht : o.type with
      | array => rw [ht] at hamount; cases hamount
      | _ => rfl
    refine (tame_loadSymbol o).bind_ok fun s e value e' hload => ?_
    have hheld := held_of_loadSymbol ha hload
    cases after with
    | false =>
      have hstore : Tame (storeSymbol value o) := tame_storeTo value hheld _
      simp only [Bool.false_eq_true, if_false, pure_bind]
      grind
    | true =>
      simp only [if_true, pure_bind]
      refine (tame_allocate value.view).bind_ok fun s e copy e' hcopy => ?_
      have hstore : Tame (storeSymbol copy o) := tame_storeTo copy (view_of_allocate hcopy ▸ hheld) _
      refine (tame_quad value).bind fun _ => (tame_quad copy).bind fun _ => (tame_instr _).bind fun _ => ?_
      grind

theorem atomic_binary (op : ArithOp) (left right : Reg) : Atomic (binary op left right) := by
  unfold binary
  grind

@[grind ←] theorem tame_floatZero : Tame floatZero := by
  unfold floatZero
  grind

@[grind ←] theorem tame_testFloat : Tame (testFloat r) := by
  unfold testFloat
  grind

@[grind ←] theorem tame_setInto (c : X86.Cond) : Tame (setInto r c) := by
  unfold setInto
  grind

@[grind ←] theorem tame_setFloatInto (relation : Relation) : Tame (setFloatInto r relation) := by
  unfold setFloatInto
  grind

@[grind ←] theorem tame_floatJump (relation : Relation) (target : String) : Tame (floatJump relation target) := by
  unfold floatJump
  grind

@[grind ←] theorem tame_compareIntegers (left right : Reg) : Tame (compareIntegers left right) := by
  unfold compareIntegers
  grind

@[grind ←] theorem tame_compareFloats (relation : Relation) (left right : Reg) :
    Tame (compareFloats relation left right) := by
  unfold compareFloats
  cases relation <;> grind

theorem tame_unary (op : ValueOp) : Tame (unary op r) := by
  unfold unary negate invert logicalNot
  cases op <;> grind

theorem atomic_compare (relation : Relation) (left right : Reg) : Atomic (compare relation left right) := by
  unfold compare
  grind

theorem atomic_compareAndJump (relation : Relation) (left right : Reg) (target : String) :
    Atomic (compareAndJump relation left right target) := by
  unfold compareAndJump
  grind

theorem tame_testAndJump (relation : Relation) (target : String) : Tame (testAndJump relation r target) := by
  unfold testAndJump
  grind

theorem atomic_convert (source target : Scalar) : Atomic (convert r source target) := by
  unfold convert
  grind

/-! ### Functions and calls -/

@[grind ←] theorem tame_growStack (bytes : Nat) : Tame (growStack bytes) := tame_instr _

@[grind ←] theorem tame_shrinkStack (bytes : Nat) : Tame (shrinkStack bytes) := tame_instr _

@[grind ←] theorem tame_countPush : Tame countPush := tame_modify _

@[grind ←] theorem tame_countPop : Tame countPop := tame_modify _

@[grind ←] theorem tame_pushFloat : Tame (pushFloat r) := by
  unfold pushFloat
  grind

@[grind ←] theorem tame_popFloat : Tame (popFloat r) := by
  unfold popFloat
  grind

@[grind ←] theorem tame_moveOut (target : Register) : Tame (moveOut r target) := by
  unfold moveOut
  grind

@[grind ←] theorem tame_moveIn (source : Register) : Tame (moveIn r source) := by
  unfold moveIn
  grind

/-- A parameter is stored from a register of its own type. -/
theorem tame_storeParameters (ps : List Symbol) (sources : List Register) : Tame (storeParameters ps sources) := by
  induction ps generalizing sources with
  | nil => exact tame_pure ()
  | cons p ps ih =>
    cases sources with
    | nil => exact tame_pure ()
    | cons source sources =>
      have hrest := ih sources
      rw [storeParameters]
      refine (tame_held p.type).bind_ok fun s e view e' hview => ?_
      refine (tame_allocate view).bind_ok fun s e r e' hr => ?_
      have hheld : held p.type = .ok r.view := by
        rw [view_of_allocate hr]
        cases hv : held p.type with
        | ok v => rw [hv] at hview; cases hview; rfl
        | error x => rw [hv] at hview; cases hview
      have hstore : Tame (storeSymbol r p) := tame_storeTo r hheld _
      grind

theorem tame_prologue (f : Routine) (parameters : List Symbol) : Tame (prologue f parameters) := by
  have hstore := tame_storeParameters parameters
  have hviews : Mild (parameters.mapM fun p => held p.type) := by
    induction parameters with
    | nil => exact mild_pure []
    | cons p ps ih =>
      rw [List.mapM_cons]
      exact (mild_held p.type).bind fun _ => (ih (tame_storeParameters ps)).bind fun _ => mild_pure _
  unfold prologue
  grind

theorem tame_epilogue (f : Routine) : Tame (epilogue f) := by
  unfold epilogue
  grind

theorem atomic_returnValue (type : CType) : Atomic (returnValue r type) := by
  unfold returnValue
  grind

@[grind ←] theorem tame_takeResult (type : CType) : Tame (takeResult type) := by
  unfold takeResult
  grind

@[grind ←] theorem tame_pushFloats (rs : List Reg) : Tame (pushFloats rs) := by
  induction rs with
  | nil => exact tame_pure ()
  | cons r rs ih => exact (tame_pushFloat r).bind fun _ => ih

@[grind ←] theorem tame_popFloats (rs : List Reg) : Tame (popFloats rs) := by
  induction rs with
  | nil => exact tame_pure ()
  | cons r rs ih => exact ih.bind fun _ => tame_popFloat r

@[grind ←] theorem tame_callAligned (name : String) (type : CType) : Tame (callAligned name type) := by
  unfold callAligned
  grind

theorem tame_callFunction (name : String) (argument : Option Reg) (type : CType) :
    Tame (callFunction name argument type) := by
  unfold callFunction
  cases argument with
  | none => exact tame_callAligned name type
  | some r =>
    refine (tame_check r).bind fun _ => (tame_assignArguments _).bind fun targets => ?_
    cases targets <;> grind

theorem tame_pushArgument : Tame (pushArgument r) := by
  unfold pushArgument
  grind

@[grind ←] theorem tame_popArguments (targets : List Register) : Tame (popArguments targets) := by
  induction targets with
  | nil => exact tame_pure ()
  | cons target targets ih =>
    rw [popArguments]
    grind

theorem tame_callPushed (name : String) (views : List Scalar) (type : CType) :
    Tame (callPushed name views type) := by
  unfold callPushed
  grind

theorem atomic_printArray (address : Reg) (routine : String) (length : Nat) :
    Atomic (printArray address routine length) := by
  unfold printArray
  grind

/-! ### Files -/

theorem tame_preamble : Tame preamble := by
  unfold preamble
  grind

theorem atomic_declareGlobal (init : Option Constant) : Atomic (declareGlobal o init) := by
  unfold declareGlobal
  grind

theorem tame_postamble : Tame postamble := by
  unfold postamble
  grind

end Operations

/-! ### All operations -/

/-- The operations by which code is generated, with their operands. -/
inductive Operation where
  | preamble
  | declareGlobal (o : Symbol) (init : Option Constant)
  | postamble
  | reclaim (scope : String)
  | free (r : Reg)
  | loadImmediate (value : Value)
  | moveImmediate (r : Reg) (value : Int64)
  | loadSymbol (o : Symbol)
  | storeSymbol (r : Reg) (o : Symbol)
  | storeElement (r : Reg) (o : Symbol) (index : Nat)
  | addressOf (o : Symbol)
  | dereference (r : Reg) (type : CType)
  | storeIndirect (value address : Reg) (type : CType)
  | elementAddress (base index : Reg) (element : Scalar)
  | step (o : Symbol) (increment after : Bool)
  | binary (op : ArithOp) (left right : Reg)
  | unary (op : ValueOp) (r : Reg)
  | compare (relation : Relation) (left right : Reg)
  | compareAndJump (relation : Relation) (left right : Reg) (target : String)
  | jumpIfZero (r : Reg) (target : String)
  | jumpIfNotZero (r : Reg) (target : String)
  | jump (target : String)
  | label (name : String)
  | convert (r : Reg) (source target : Scalar)
  | prologue (f : Routine) (parameters : List Symbol)
  | epilogue (f : Routine)
  | returnValue (r : Reg) (type : CType)
  | callFunction (name : String) (argument : Option Reg) (type : CType)
  | pushArgument (r : Reg)
  | callPushed (name : String) (views : List Scalar) (type : CType)
  | printArray (address : Reg) (routine : String) (length : Nat)

/-- Do an operation; some give a register. -/
def Operation.perform : Operation → Emit (Option Reg)
  | preamble => (fun _ => none) <$> Emit.preamble
  | declareGlobal o init => (fun _ => none) <$> Emit.declareGlobal o init
  | postamble => (fun _ => none) <$> Emit.postamble
  | reclaim scope => (fun _ => none) <$> releaseLeaks scope
  | free r => (fun _ => none) <$> Emit.free r
  | loadImmediate value => some <$> Emit.loadImmediate value
  | moveImmediate r value => (fun _ => none) <$> Emit.moveImmediate r value
  | loadSymbol o => some <$> Emit.loadSymbol o
  | storeSymbol r o => (fun _ => none) <$> Emit.storeSymbol r o
  | storeElement r o index => (fun _ => none) <$> Emit.storeElement r o index
  | addressOf o => some <$> Emit.addressOf o
  | dereference r type => some <$> Emit.dereference r type
  | storeIndirect value address type => (fun _ => none) <$> Emit.storeIndirect value address type
  | elementAddress base index element => some <$> Emit.elementAddress base index element
  | step o increment after => some <$> Emit.step o increment after
  | binary op left right => some <$> Emit.binary op left right
  | unary op r => some <$> Emit.unary op r
  | compare relation left right => some <$> Emit.compare relation left right
  | compareAndJump relation left right target => (fun _ => none) <$> Emit.compareAndJump relation left right target
  | jumpIfZero r target => (fun _ => none) <$> Emit.jumpIfZero r target
  | jumpIfNotZero r target => (fun _ => none) <$> Emit.jumpIfNotZero r target
  | jump target => (fun _ => none) <$> Emit.jump target
  | label name => (fun _ => none) <$> Emit.label name
  | convert r source target => some <$> Emit.convert r source target
  | prologue f parameters => (fun _ => none) <$> Emit.prologue f parameters
  | epilogue f => (fun _ => none) <$> Emit.epilogue f
  | returnValue r type => (fun _ => none) <$> Emit.returnValue r type
  | callFunction name argument type => Emit.callFunction name argument type
  | pushArgument r => (fun _ => none) <$> Emit.pushArgument r
  | callPushed name views type => Emit.callPushed name views type
  | printArray address routine length => (fun _ => none) <$> Emit.printArray address routine length

theorem Operation.atomic (op : Operation) : Atomic op.perform := by
  cases op with
  | preamble => exact tame_preamble.atomic.map _
  | declareGlobal o init => exact (atomic_declareGlobal o init).map _
  | postamble => exact tame_postamble.atomic.map _
  | reclaim scope => exact (tame_releaseLeaks scope).atomic.map _
  | free r => exact (tame_free r).atomic.map _
  | loadImmediate value => exact (tame_loadImmediate value).atomic.map _
  | moveImmediate r value => exact (tame_moveImmediate r value).atomic.map _
  | loadSymbol o => exact (tame_loadSymbol o).atomic.map _
  | storeSymbol r o => exact (atomic_storeTo r _ _).map _
  | storeElement r o index => exact (atomic_storeElement r o index).map _
  | addressOf o => exact (tame_addressOf o).atomic.map _
  | dereference r type => exact (atomic_dereference r type).map _
  | storeIndirect value address type => exact (atomic_storeIndirect value address type).map _
  | elementAddress base index element => exact (atomic_elementAddress base index element).map _
  | step o increment after => exact (tame_step o increment after).atomic.map _
  | binary op left right => exact (atomic_binary op left right).map _
  | unary op r => exact (tame_unary r op).atomic.map _
  | compare relation left right => exact (atomic_compare relation left right).map _
  | compareAndJump relation left right target => exact (atomic_compareAndJump relation left right target).map _
  | jumpIfZero r target => exact (tame_testAndJump r .eq target).atomic.map _
  | jumpIfNotZero r target => exact (tame_testAndJump r .ne target).atomic.map _
  | jump target => exact (tame_instr _).atomic.map _
  | label name => exact (tame_label name).atomic.map _
  | convert r source target => exact (atomic_convert r source target).map _
  | prologue f parameters => exact (tame_prologue f parameters).atomic.map _
  | epilogue f => exact (tame_epilogue f).atomic.map _
  | returnValue r type => exact (atomic_returnValue r type).map _
  | callFunction name argument type => exact (tame_callFunction name argument type).atomic
  | pushArgument r => exact (tame_pushArgument r).atomic.map _
  | callPushed name views type => exact (tame_callPushed name views type).atomic
  | printArray address routine length => exact (atomic_printArray address routine length).map _

/-! ### Operands of two types -/

/-- The slot of the handle exists and is taken. -/
def Allocated (e : Emitter) (r : Reg) : Prop :=
  r.slot < registerFile.slots r.view ∧ e.bank.val.isAllocated r.view r.slot = true

section TwoOperands

variable {α : Type} {s : Setting} {e : Emitter} {l r : Reg}

theorem Allocated.takes (h : Allocated e r) : e.Takes r.cell := by
  refine (e.bank.property.status_eq r).mp ?_
  have htaken := h.2
  unfold Bank.isAllocated at htaken
  cases hstatus : (e.bank.val.status r.view)[r.slot]? with
  | none => simp [hstatus] at htaken
  | some taken => simpa [hstatus] using htaken

/-- An operation that compares the types of its operands and is tame otherwise is refused for types just where
they differ. -/
theorem mismatch_iff (hl : e.Takes l.cell) (hr : e.Takes r.cell) {operation : String} {rest : Unit → Emit α}
    (hrest : Tame (rest ())) (g : α → Option Reg) :
    (∃ x e', exec (g <$> (sameView operation l r >>= rest)) s e = (.error x, e') ∧ x.IsMismatch) ↔
      l.view ≠ r.view := by
  have hsame := exec_sameView (s := s) hl hr operation
  constructor
  · rintro ⟨x, e', hexec, hx⟩ heq
    rw [if_pos heq] at hsame
    have htame : Tame (g <$> rest ()) := hrest.map g
    rw [exec_map, exec_bind_ok hsame, ← exec_map] at hexec
    exact htame s e x e' hexec hx
  · intro hne
    rw [if_neg hne] at hsame
    exact ⟨.typeMismatch operation l.view r.view, e, by rw [exec_map, exec_bind_error hsame]; rfl, trivial⟩

end TwoOperands

/-- An operation that is refused for the types of its operands leaves the emitter as it was, whatever the operation
and whatever its operands; and arithmetic and comparisons of two registers that are taken are refused for types
just where these differ. -/
theorem mismatch_changes_nothing (s : Setting) (e : Emitter) :
    (∀ (op : Operation) (x : Error) (e' : Emitter),
      exec op.perform s e = (.error x, e') → x.IsMismatch → e' = e) ∧
    ∀ l r, Allocated e l → Allocated e r → ∀ (a : ArithOp) (relation : Relation) (target : String),
      ∀ op ∈ [Operation.binary a l r, .compare relation l r, .compareAndJump relation l r target],
        (∃ x e', exec op.perform s e = (.error x, e') ∧ x.IsMismatch) ↔ l.view ≠ r.view := by
  refine ⟨fun op x e' => op.atomic s e x e', fun l r hl hr a relation target op hop => ?_⟩
  simp only [List.mem_cons, List.not_mem_nil, or_false] at hop
  obtain rfl | rfl | rfl := hop
  · exact mismatch_iff hl.takes hr.takes (by grind) _
  · exact mismatch_iff hl.takes hr.takes (by grind) _
  · exact mismatch_iff hl.takes hr.takes (by grind) _

/-- An `int` and a `char` in different registers. -/
def twoTypes : Emitter := (({} : Emitter).take ⟨.int, 0⟩).take ⟨.char, 1⟩

theorem mismatch_changes_nothing_twoTypes :
    Allocated twoTypes ⟨.int, 0⟩ ∧ Allocated twoTypes ⟨.char, 1⟩ ∧
    ∃ x, exec (Operation.binary .add ⟨.int, 0⟩ ⟨.char, 1⟩).perform {} twoTypes = (.error x, twoTypes) ∧
      x.IsMismatch := by
  have hint : Allocated twoTypes ⟨.int, 0⟩ := ⟨by decide, by decide⟩
  have hchar : Allocated twoTypes ⟨.char, 1⟩ := ⟨by decide, by decide⟩
  obtain ⟨hsame, hiff⟩ := mismatch_changes_nothing {} twoTypes
  obtain ⟨x, e', hexec, hx⟩ := (hiff _ _ hint hchar .add .eq "" _ List.mem_cons_self).mpr (by decide)
  obtain rfl := hsame _ _ _ hexec hx
  exact ⟨hint, hchar, x, hexec, hx⟩

end MiniC.Emit
