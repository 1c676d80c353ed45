import MiniC.Typing.Error

/-!
# Frames

A function's objects lie below its frame pointer, one after the other. Each is aligned to its type,
and storage is never used again: blocks only make the frame grow.
-/

set_option autoImplicit false

namespace MiniC.Typing

/-- How many bytes of a frame are taken. -/
structure Frame where
  used : Nat := 0
deriving DecidableEq, Repr, Inhabited

namespace Frame

/-- The bytes to reserve: those taken, rounded up to the alignment of the stack at a call. -/
def size (f : Frame) : Nat := roundUp f.used 16

/-- The frame with one more object of a type. -/
def extend (f : Frame) (type : CType) : Frame :=
  ⟨roundUp (f.used + type.size) type.align⟩

/-- Reserve storage for an object and give its offset from the frame pointer. The whole frame has to
stay within reach of a 32-bit displacement. -/
def allocate (f : Frame) (name : String) (type : CType) (span : Span) : Except Error (Int × Frame) :=
  let larger := f.extend type
  if larger.size < 0x80000000 then .ok (-(larger.used : Int), larger)
  else refuse (.unsupported (.frameTooLarge name type)) span

end Frame

end MiniC.Typing
