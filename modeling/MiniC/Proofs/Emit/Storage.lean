import MiniC.Emit.Storage
import MiniC.Proofs.Emit.Exec
import MiniC.Proofs.X86.Machine

/-!
# The bytes of global objects

What a directive puts into the data section is a list of bytes (`Directive.image`), where the bytes of an
address are left to the linker. `Value.imageIn?` says, without directives, which bytes a constant has in an
object of a type: those of the constant converted to it, or the address of a pooled string.

Main statement: a global object is reserved with the bytes of its constants in order and zeros up to its size,
and what cannot be reserved so is refused without a trace (`declareGlobal_reserves`).
-/

set_option autoImplicit false

namespace MiniC

/-! ### Bytes -/

/-- A byte of the data section. -/
inductive Datum where
  | byte (b : BitVec 8)
  /-- A byte of the address of a label, counted from the least one. -/
  | ofAddress (label : String) (index : Nat)
deriving DecidableEq, Repr

/-- The low bytes of a number, the least one first. -/
def Datum.ofNumber (count : Nat) (n : Int) : List Datum :=
  (List.range count).map fun i => .byte (BitVec.ofInt 8 (n >>> (8 * i)))

/-- The bytes of the address of a label. -/
def Datum.address (label : String) : List Datum := (List.range 8).map (.ofAddress label)

@[simp] theorem Datum.length_ofNumber (count : Nat) (n : Int) : (ofNumber count n).length = count := by
  simp [ofNumber]

/-- The bytes that a directive puts into the section it stands in. -/
def X86.Directive.image : X86.Directive → List Datum
  | .integer w n => Datum.ofNumber w.bytes n.toInt
  | .double x => Datum.ofNumber 8 x.toBits.toNat
  | .address label => Datum.address label
  | .string s => (Value.ofStringBytes s).flatMap fun v => Datum.ofNumber 1 ((v.integer?.map Int64.toInt).getD 0)
  | .zero bytes => List.replicate bytes (.byte 0)
  | _ => []

/-- The bytes of a number of a scalar type, as many as the type has. -/
def Value.image? : Value → Option (List Datum)
  | .char v => some (Datum.ofNumber 1 v.toNat)
  | .int v => some (Datum.ofNumber 4 v.toInt)
  | .long v => some (Datum.ofNumber 8 v.toInt)
  | .float x => some (Datum.ofNumber 8 x.toBits.toNat)
  | .str _ => none

/-- The bytes of a constant in an object of a type. Scalars are converted; a pointer is initialized with a
string of the pool, or with an integer as it is. -/
def Value.imageIn? (pool : Pool) (v : Value) : CType → Option (List Datum)
  | .scalar s => (v.convert? s).bind Value.image?
  | .pointer _ =>
    match v with
    | .str s => (pool.stringLabel? s).map Datum.address
    | v => v.integer?.map fun n => Datum.ofNumber 8 n.toInt
  | _ => none

namespace CType

/-- The type of the elements of an object; a single object is its own element. -/
def slot : CType → CType
  | array element _ => scalar element
  | type => type

/-- The number of elements of an object. -/
def slots : CType → Nat
  | void => 0
  | array _ length => length
  | _ => 1

theorem size_eq (type : CType) : type.size = type.slots * type.slot.size := by
  cases type with
  | array element length => exact Nat.mul_comm _ _
  | _ => simp [slot, slots, size]

end CType

theorem Value.length_image {v : Value} {bytes : List Datum} {s : Scalar} (hv : v.type = .scalar s)
    (h : v.image? = some bytes) : bytes.length = s.size := by
  cases v <;> cases hv <;> cases h <;> simp [Scalar.size]

theorem Value.length_imageIn {pool : Pool} {v : Value} {type : CType} {bytes : List Datum}
    (h : v.imageIn? pool type = some bytes) : bytes.length = type.size := by
  cases type with
  | scalar s =>
    obtain ⟨w, hw, hbytes⟩ := Option.bind_eq_some_iff.mp h
    exact Value.length_image (Value.type_convert? hw) hbytes
  | pointer element =>
    cases v with
    | str text =>
      obtain ⟨label, -, rfl⟩ := Option.map_eq_some_iff.mp h
      simp [Datum.address, CType.size]
    | float x => cases h
    | _ => cases h; simp [CType.size]
  | _ => cases h

/-! ### Directives -/

namespace Emit

open MiniC.X86 (Line Directive)

variable {pool : Pool}

/-- An integer constant is stored at the width of its type. -/
theorem image_of_integer {w : Value} {s : Scalar} (hw : w.type = .scalar s) (hs : s ≠ .float) :
    w.image? = w.integer?.map fun n => (Directive.integer (dataWidth s) n).image := by
  cases w with
  | char c =>
    cases hw
    have hc : (Int64.ofNat c.toNat).toInt = c.toNat := Int64.toInt_ofNat_of_lt (by have := c.toNat_lt; omega)
    simp [Value.image?, Value.integer?, Directive.image, dataWidth, X86.Width.bytes, hc]
  | float x => cases hw; exact absurd rfl hs
  | str text => cases hw
  | _ => cases hw; simp [Value.image?, Value.integer?, Directive.image, dataWidth, X86.Width.bytes]

/-- A directive stands for the bytes of the constant, and there is none just when the constant has none. -/
theorem dataDirective_image (slot : CType) (v : Value) :
    (dataDirective pool slot v).toOption.map Directive.image = v.imageIn? pool slot := by
  cases slot with
  | scalar s =>
    rw [Value.imageIn?]
    by_cases hs : s = .float
    · subst hs
      cases hw : v.convert? .float with
      | none => simp [dataDirective, hw, Except.toOption]
      | some w =>
        cases w <;> cases Value.type_convert? hw
        simp [dataDirective, hw, Except.toOption, Value.image?, Directive.image]
    · have hdirective : (dataDirective pool (.scalar s) v).toOption =
          ((v.convert? s).bind Value.integer?).map (.integer (dataWidth s)) := by
        rw [dataDirective.eq_2 _ _ _ hs]
        cases (v.convert? s).bind Value.integer? <;> rfl
      rw [hdirective]
      cases hw : v.convert? s with
      | none => rfl
      | some w =>
        rw [Option.bind_some, Option.bind_some, image_of_integer (Value.type_convert? hw) hs, Option.map_map]
        rfl
  | pointer element =>
    cases v with
    | str text =>
      cases h : pool.stringLabel? text <;>
        simp [dataDirective, Value.imageIn?, h, Except.toOption, Directive.image]
    | _ => rfl
  | _ => rfl

/-- The bytes of constants one after the other in objects of a type. -/
def imageOf (pool : Pool) (slot : CType) (values : List Value) : List Datum :=
  values.flatMap fun v => (v.imageIn? pool slot).getD []

theorem length_imageOf {slot : CType} {values : List Value}
    (h : ∀ v ∈ values, (v.imageIn? pool slot).isSome) :
    (imageOf pool slot values).length = values.length * slot.size := by
  induction values with
  | nil => simp [imageOf]
  | cons v vs ih =>
    obtain ⟨bytes, hbytes⟩ := Option.isSome_iff_exists.mp (h v List.mem_cons_self)
    have hrest := ih fun w hw => h w (List.mem_cons_of_mem _ hw)
    simp only [imageOf] at hrest ⊢
    simp [hbytes, hrest, Value.length_imageIn hbytes, Nat.succ_mul, Nat.add_comm]

/-- Constants that all have bytes have directives for them. -/
theorem dataDirectives_image {slot : CType} {values : List Value}
    (h : ∀ v ∈ values, (v.imageIn? pool slot).isSome) :
    ∃ ds, dataDirectives pool slot values = .ok ds ∧
      ds.flatMap Directive.image = imageOf pool slot values := by
  induction values with
  | nil => exact ⟨[], rfl, rfl⟩
  | cons v vs ih =>
    obtain ⟨ds, hds, himage⟩ := ih fun w hw => h w (List.mem_cons_of_mem _ hw)
    have hv := h v List.mem_cons_self
    rw [← dataDirective_image] at hv
    cases hd : dataDirective pool slot v with
    | error x => simp [hd, Except.toOption] at hv
    | ok d =>
      have hbytes : v.imageIn? pool slot = some d.image := by
        rw [← dataDirective_image, hd]
        rfl
      refine ⟨d :: ds, by simp [dataDirectives, hd, hds, bind, Except.bind, pure, Except.pure], ?_⟩
      rw [List.flatMap_cons, himage]
      simp [imageOf, hbytes]

theorem dataDirectives_refused {slot : CType} {values : List Value}
    (h : ¬ ∀ v ∈ values, (v.imageIn? pool slot).isSome) : ∃ x, dataDirectives pool slot values = .error x := by
  induction values with
  | nil => exact absurd (fun v hv => absurd hv List.not_mem_nil) h
  | cons v vs ih =>
    cases hd : dataDirective pool slot v with
    | error x => exact ⟨x, by simp [dataDirectives, hd, bind, Except.bind]⟩
    | ok d =>
      have hv : (v.imageIn? pool slot).isSome := by simp [← dataDirective_image, hd, Except.toOption]
      obtain ⟨x, hx⟩ := ih fun hvs => h (List.forall_mem_cons.mpr ⟨hv, hvs⟩)
      exact ⟨x, by simp [dataDirectives, hd, hx, bind, Except.bind]⟩

/-! ### Global objects -/

/-- A global object that can be given constants: it has room for them, and each has bytes in its elements. -/
structure Reservable (pool : Pool) (o : Symbol) (values : List Value) : Prop where
  isGlobal : o.isGlobal = true
  notVoid : o.type.isVoid = false
  room : values.length ≤ o.type.slots
  stored : ∀ v ∈ values, (v.imageIn? pool o.type.slot).isSome

/-- The constants that an object is initialized with, in the order they are written. -/
def initialValues (init : Option Constant) : List Value := (init.map Constant.flatten).getD []

theorem elements?_eq {type : CType} (h : type.isVoid = false) : elements? type = some (type.slot, type.slots) := by
  cases type with
  | void => cases h
  | _ => rfl

/-- The zeros after the constants of an object. -/
def zerosFor (type : CType) (count : Nat) : Nat := (type.slots - count) * type.slot.size

theorem globalLines_reserves {o : Symbol} {init : Option Constant} (h : Reservable pool o (initialValues init)) :
    ∃ ds : List Directive, globalLines pool o init =
        .ok ([.directive (.globl o.name), .directive (.balign o.type.align), .label o.name] ++
          ds.map .directive) ∧
      ds.flatMap Directive.image = imageOf pool o.type.slot (initialValues init) ++
        List.replicate (zerosFor o.type (initialValues init).length) (.byte 0) := by
  obtain ⟨ds, hds, himage⟩ := dataDirectives_image h.stored
  have hroom : ¬ o.type.slots < (initialValues init).length := by
    have := h.room
    omega
  simp only [initialValues] at hroom hds himage ⊢
  simp only [globalLines, h.isGlobal, if_true, elements?_eq h.notVoid, if_neg hroom, hds, bind, Except.bind]
  refine ⟨_, rfl, ?_⟩
  rw [List.flatMap_append, himage, zerosFor]
  split
  · simp [Directive.image]
  · rename_i hrest
    simp [Nat.eq_zero_of_not_pos hrest]

theorem globalLines_refused {o : Symbol} {init : Option Constant}
    (h : ¬ Reservable pool o (initialValues init)) : ∃ x, globalLines pool o init = .error x := by
  by_cases hglobal : o.isGlobal = true
  · cases hvoid : o.type.isVoid with
    | true =>
      cases htype : o.type with
      | void =>
        rw [globalLines, if_pos hglobal, htype]
        exact ⟨_, rfl⟩
      | _ => simp [htype, CType.isVoid] at hvoid
    | false =>
      simp only [globalLines, hglobal, if_true, elements?_eq hvoid]
      split
      · exact ⟨_, rfl⟩
      · rename_i hroom
        obtain ⟨x, hx⟩ := dataDirectives_refused fun hstored => h ⟨hglobal, hvoid, Nat.not_lt.mp hroom, hstored⟩
        rw [initialValues] at hx
        exact ⟨x, by simp only [hx, bind, Except.bind]⟩
  · rw [globalLines, if_neg hglobal]
    exact ⟨_, rfl⟩

/-- A global object is reserved under its label and its alignment with exactly as many bytes as its type has:
those of its constants, in order and as its elements hold them, and zeros. It is refused just when it is not a
global object, has no elements or fewer than there are constants, or a constant has no bytes in an element;
then nothing has changed. -/
theorem declareGlobal_reserves (s : Setting) (o : Symbol) (init : Option Constant) (e : Emitter) :
    (Reservable s.pool o (initialValues init) → ∃ ds : List Directive,
      exec (declareGlobal o init) s e = (.ok (), { e with data := e.data ++
        ([.directive (.globl o.name), .directive (.balign o.type.align), .label o.name] ++
          ds.map Line.directive) }) ∧
      ds.flatMap Directive.image = imageOf s.pool o.type.slot (initialValues init) ++
        List.replicate (zerosFor o.type (initialValues init).length) (.byte 0) ∧
      (ds.flatMap Directive.image).length = o.type.size) ∧
    (¬ Reservable s.pool o (initialValues init) → ∃ x, exec (declareGlobal o init) s e = (.error x, e)) := by
  constructor
  · intro h
    obtain ⟨ds, hlines, himage⟩ := globalLines_reserves h
    refine ⟨ds, by simp [declareGlobal, exec_bind, hlines, ofExcept, dataLines], himage, ?_⟩
    rw [himage, List.length_append, length_imageOf h.stored, List.length_replicate, zerosFor, ← Nat.add_mul,
      Nat.add_sub_cancel' h.room, ← CType.size_eq]
  · intro h
    obtain ⟨x, hlines⟩ := globalLines_refused h
    exact ⟨x, by simp [declareGlobal, exec_bind, hlines, ofExcept]⟩

end Emit

end MiniC
