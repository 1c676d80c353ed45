import MiniC.Proofs.Typed.WellTyped
import MiniC.Typing.Frame

/-!
# The layout of a frame

`Laid f os f'` says that the objects `os` were placed one after the other, from the frame `f` to the
frame `f'`. Each lies below all that were placed before it, so no two of them overlap, and all lie
within the bytes that the function reserves.
-/

set_option autoImplicit false

namespace MiniC.Typing

theorem le_roundUp (n : Nat) {unit : Nat} (h : 0 < unit) : n ≤ roundUp n unit := by
  unfold roundUp
  have hdiv := Nat.div_add_mod (n + unit - 1) unit
  have hmod := Nat.mod_lt (n + unit - 1) h
  rw [Nat.mul_comm] at hdiv
  omega

theorem align_pos (type : CType) : 0 < type.align := by
  cases type with
  | scalar s => cases s <;> simp [CType.align, Scalar.size]
  | array s n => cases s <;> simp [CType.align, Scalar.size]
  | _ => simp [CType.align]

namespace Frame

theorem used_le_size (f : Frame) : f.used ≤ f.size := le_roundUp _ (by decide)

theorem le_extend_used (f : Frame) (type : CType) :
    f.used + type.size ≤ (f.extend type).used :=
  le_roundUp _ (align_pos type)

theorem of_allocate {f f' : Frame} {name : String} {type : CType} {span : Span} {offset : Int}
    (h : f.allocate name type span = .ok (offset, f')) :
    offset = -((f.extend type).used : Int) ∧ f' = f.extend type ∧ f'.size < 2 ^ 31 := by
  unfold allocate at h
  dsimp only at h
  split at h
  · rename_i hsize
    cases h
    exact ⟨rfl, rfl, hsize⟩
  · cases h

end Frame

/-- Objects placed one after the other. -/
inductive Laid : Frame → List Symbol → Frame → Prop
  | nil (f : Frame) : Laid f [] f
  | cons {f f' : Frame} {s : Symbol} {os : List Symbol}
    (ha : s.address = .frame (-((f.extend s.type).used : Int)))
    (hsize : (f.extend s.type).size < 2 ^ 31) (hos : Laid (f.extend s.type) os f') :
    Laid f (s :: os) f'

namespace Laid

variable {f f' f'' : Frame} {os os' : List Symbol}

theorem append (h : Laid f os f') (h' : Laid f' os' f'') : Laid f (os ++ os') f'' := by
  induction h with
  | nil => exact h'
  | cons ha hsize _ ih => exact .cons ha hsize (ih h')

theorem used_le (h : Laid f os f') : f.used ≤ f'.used := by
  induction h with
  | nil => exact Nat.le_refl _
  | cons _ _ _ ih => exact Nat.le_trans (Nat.le_trans (Nat.le_add_right _ _)
      (Frame.le_extend_used _ _)) ih

theorem size_lt (h : Laid f os f') (hf : f.size < 2 ^ 31) : f'.size < 2 ^ 31 := by
  induction h with
  | nil => exact hf
  | cons _ hsize _ ih => exact ih hsize

/-- Each object lies in the part of the frame that was added, and is smaller than the frame. -/
theorem bounds (h : Laid f os f') {s : Symbol} (hs : s ∈ os) :
    ∃ k : Nat, s.address = .frame (-(k : Int)) ∧ f.used + s.type.size ≤ k ∧ k ≤ f'.used ∧
      s.type.size < 2 ^ 31 := by
  induction h with
  | nil => simp at hs
  | cons ha hsize hos ih =>
    rename_i f f' s' os
    have hle := Frame.le_extend_used f s'.type
    rcases List.mem_cons.mp hs with rfl | hs
    · refine ⟨_, ha, hle, hos.used_le, ?_⟩
      have hused := Frame.used_le_size (f.extend s.type)
      omega
    · obtain ⟨k, hk, hlo, hhi, hsz⟩ := ih hs
      exact ⟨k, hk, by omega, hhi, hsz⟩

end Laid

end MiniC.Typing
