import MiniC.Proofs.Emit.CallLevel
import MiniC.Proofs.Lower.StmtOutcome

/-!
# Initializers of local arrays

The code that initializes a local array is made of one piece for each element, in order: code that computes what
is stored, and the store. The elements that are given are computed each in its turn, and the others are all
stored from one register that holds a zero.

Main statement: the stores write every byte of the array once and no other byte of the frame, and the
registers that are taken are the same after them as before (`localInit_fills`).
-/

set_option autoImplicit false

namespace MiniC

namespace X86

/-- The distances from the frame pointer of as many bytes from a distance on. -/
def bytesFrom (start : Int) (count : Nat) : List Int := (List.range count).map fun k : Nat => start + k

theorem bytesFrom_add (start : Int) (a b : Nat) :
    bytesFrom start (a + b) = bytesFrom start a ++ bytesFrom (start + a) b := by
  simp [bytesFrom, List.range_add, Function.comp_def, add_assoc]

/-- The bytes of the frame at which a line names a place. -/
def Line.frameBytes : Line → List Int
  | .instr i => i.places.flatMap fun p => match p.1 with
    | .frame offset => bytesFrom offset p.2
    | _ => []
  | _ => []

end X86

namespace Lower

open Emit
open MiniC.Emitter (Holding)
open MiniC.X86 (Line Instr bytesFrom bytesFrom_add)

/-- The code before the store into an element, and the register that is stored. -/
structure Piece where
  code : List Line
  reg : Reg

section Pieces

variable (base : Int) (element : Scalar)

/-- The store of a register into an element of an array at a distance from the frame pointer. -/
def storeLine (index : Nat) (r : Reg) : Line :=
  .instr (storeInstr r (.mem (.frame (base + (index * element.size : Nat)))))

/-- The lines of pieces for the elements from an index on. -/
def piecesCode : Nat → List Piece → List Line
  | _, [] => []
  | index, p :: ps => p.code ++ storeLine base element index p.reg :: piecesCode (index + 1) ps

/-- The stores of pieces for the elements from an index on. -/
def piecesStores : Nat → List Piece → List Line
  | _, [] => []
  | index, p :: ps => storeLine base element index p.reg :: piecesStores (index + 1) ps

theorem piecesCode_append (index : Nat) (ps qs : List Piece) :
    piecesCode base element index (ps ++ qs) =
      piecesCode base element index ps ++ piecesCode base element (index + ps.length) qs := by
  induction ps generalizing index with
  | nil => rfl
  | cons p ps ih => simp [piecesCode, ih, Nat.add_assoc, Nat.add_comm 1]

theorem frameBytes_storeLine (index : Nat) {r : Reg} (h : r.view = element) :
    (storeLine base element index r).frameBytes = bytesFrom (base + (index * element.size : Nat)) element.size := by
  subst h
  cases hv : r.view <;>
    simp [storeLine, storeInstr, hv, Line.frameBytes, X86.Instr.places, X86.Operand.quad, X86.Width.bytes, Scalar.size]

/-- The stores of elements that follow each other leave out no byte between them, and write none twice. -/
theorem frameBytes_piecesStores (index : Nat) {ps : List Piece} (h : ∀ p ∈ ps, p.reg.view = element) :
    (piecesStores base element index ps).flatMap Line.frameBytes =
      bytesFrom (base + (index * element.size : Nat)) (element.size * ps.length) := by
  induction ps generalizing index with
  | nil => rfl
  | cons p ps ih =>
    rw [piecesStores, List.flatMap_cons, frameBytes_storeLine base element index (h p List.mem_cons_self),
      ih (index + 1) fun q hq => h q (List.mem_cons_of_mem _ hq), List.length_cons, Nat.mul_succ,
      Nat.add_comm (element.size * ps.length), bytesFrom_add]
    congr 2
    push_cast
    ring

end Pieces

variable {o : Symbol} {element : Scalar} {length : Nat} {base : Int} {s : Setting} {e e1 e' : Emitter} {r : Reg}

/-- A piece is computed by an operation where only the lines `before` have been appended. -/
def Computed (s : Setting) (m : Emit Reg) (e : Emitter) (before : List Line) (p : Piece) : Prop :=
  ∃ e1 e2, e1.text.toList = e.text.toList ++ before ∧ (∀ c, e1.Takes c ↔ e.Takes c) ∧
    exec m s e1 = (.ok p.reg, e2) ∧ e2.text.toList = e1.text.toList ++ p.code

theorem Computed.after {m : Emit Reg} {before ls : List Line} {p : Piece} (h : Computed s m e1 before p)
    (htext : e1.text.toList = e.text.toList ++ ls) (hlive : ∀ c, e1.Takes c ↔ e.Takes c) :
    Computed s m e (ls ++ before) p := by
  obtain ⟨e2, e3, hbefore, hlive2, hexec, hcode⟩ := h
  refine ⟨e2, e3, ?_, fun c => (hlive2 c).trans (hlive c), hexec, hcode⟩
  rw [hbefore, htext, List.append_assoc]

theorem live_of_holding (h : Holding [] 0 e e') (c : Cell) : e'.Takes c ↔ e.Takes c := by
  rw [h.takes c]
  simp

theorem code_of_holding {cs : List Cell} {n : Nat} (h : Holding cs n e e') :
    ∃ ls, e'.text.toList = e.text.toList ++ ls := by
  obtain ⟨ls, htext, -⟩ := h.text
  exact ⟨ls, by simp [htext]⟩

/-! ### Stores -/

section Stores

variable (ht : o.type = .array element length) (ha : o.address = .frame base)
include ht ha

theorem exec_storeElement (hr : e.Takes r.cell) {index : Nat} (h : exec (storeElement r o index) s e = (.ok (), e')) :
    r.view = element ∧ e' = e.append [storeLine base element index r] := by
  unfold storeElement at h
  rw [ht, ha] at h
  dsimp only at h
  split at h
  · cases h
  split at h
  · rw [exec_storeTo hr rfl rfl] at h
    split at h
    · cases h
      exact ⟨by assumption, rfl⟩
    · cases h
  · cases h

/-- Each given element is computed where the elements before it have been stored. -/
theorem storeElements_pieces {values : List Typed.Expr} {index : Nat}
    (h : exec (storeElements o index values) s e = (.ok (), e')) :
    ∃ ps : List Piece, ps.length = values.length ∧ (∀ p ∈ ps, p.reg.view = element) ∧ Holding [] 0 e e' ∧
      e'.text.toList = e.text.toList ++ piecesCode base element index ps ∧
      ∀ (i : Nat) v p, values[i]? = some v → ps[i]? = some p →
        Computed s (expr v) e (piecesCode base element index (ps.take i)) p := by
  induction values generalizing index e with
  | nil =>
    cases h
    exact ⟨[], rfl, by simp, .refl _, by simp [piecesCode], by simp⟩
  | cons v values ih =>
    obtain ⟨r, e1, h1, h⟩ := exec_bind_eq_ok h
    obtain ⟨⟨⟩, e2, h2, h⟩ := exec_bind_eq_ok h
    obtain ⟨⟨⟩, e3, h3, h⟩ := exec_bind_eq_ok h
    have hheld := holding_of_expr h1
    have htakes : e1.Takes r.cell := hheld.takes_of_mem List.mem_cons_self
    obtain ⟨hview, rfl⟩ := exec_storeElement ht ha htakes h2
    rw [exec_free (by exact htakes)] at h3
    cases h3
    have hgiven : Holding [] 0 e ((e1.append [storeLine base element index r]).release r) :=
      (hheld.emit [storeInstr r _]).release
    obtain ⟨code, hcode⟩ := code_of_holding hheld
    have htext : ((e1.append [storeLine base element index r]).release r).text.toList =
        e.text.toList ++ (code ++ [storeLine base element index r]) := by
      simp [hcode]
    obtain ⟨ps, hlength, hviews, hrest, hps, hcomputed⟩ := ih h
    refine ⟨⟨code, r⟩ :: ps, by simp [hlength], List.forall_mem_cons.mpr ⟨hview, hviews⟩, hgiven.trans hrest, ?_, ?_⟩
    · rw [hps, htext]
      simp [piecesCode]
    · intro i w p hw hp
      cases i with
      | zero =>
        cases hw
        cases hp
        exact ⟨e, e1, by simp [piecesCode], fun _ => Iff.rfl, h1, hcode⟩
      | succ i =>
        have hafter := (hcomputed i w p hw hp).after htext (live_of_holding hgiven)
        simpa [piecesCode] using hafter

/-- Elements that are stored from one register need no code between the stores. -/
theorem fillElements_pieces (hr : e.Takes r.cell) {index count : Nat}
    (h : exec (fillElements r o index count) s e = (.ok (), e')) :
    e' = e.append (piecesCode base element index (List.replicate count ⟨[], r⟩)) := by
  induction count generalizing index e with
  | zero =>
    cases h
    simp [piecesCode]
  | succ count ih =>
    obtain ⟨⟨⟩, e1, h1, h⟩ := exec_bind_eq_ok h
    obtain ⟨-, rfl⟩ := exec_storeElement ht ha hr h1
    rw [ih (by exact hr) h]
    simp [piecesCode, List.replicate_succ]

end Stores

/-! ### Arrays -/

/-- The code of the initializer of a local array with its leading elements, between two states. -/
structure Initialized (s : Setting) (base : Int) (element : Scalar) (length : Nat) (values : List Typed.Expr)
    (e e' : Emitter) (pieces : List Piece) : Prop where
  length_eq : pieces.length = length
  text : e'.text.toList = e.text.toList ++ piecesCode base element 0 pieces
  /-- What is stored has the type of the elements. -/
  views : ∀ p ∈ pieces, p.reg.view = element
  /-- The leading elements are the given ones. -/
  given : ∀ (i : Nat) v p, values[i]? = some v → pieces[i]? = some p →
    Computed s (expr v) e (piecesCode base element 0 (pieces.take i)) p
  /-- The others are one zero, which is computed before the first of them. -/
  zeros : values.length < length → ∃ p, pieces[values.length]? = some p ∧
    Computed s (zero element) e (piecesCode base element 0 (pieces.take values.length)) p ∧
    ∀ i q, values.length < i → pieces[i]? = some q → q = ⟨[], p.reg⟩
  live : ∀ c, e'.Takes c ↔ e.Takes c

theorem initialized_of_localInit {values : List Typed.Expr} (ht : o.type = .array element length)
    (ha : o.address = .frame base) (hcount : values.length ≤ length)
    (h : exec (localInit o (.elements values)) s e = (.ok (), e')) :
    ∃ pieces, Initialized s base element length values e e' pieces := by
  rw [localInit, ht] at h
  obtain ⟨⟨⟩, e1, h1, h⟩ := exec_bind_eq_ok h
  obtain ⟨ps, hlength, hviews, hheld, htext, hgiven⟩ := storeElements_pieces ht ha h1
  split at h
  · rename_i hfew
    obtain ⟨z, e2, h2, h⟩ := exec_bind_eq_ok h
    obtain ⟨⟨⟩, e3, h3, h⟩ := exec_bind_eq_ok h
    have hzero : Holds element [] 0 e1 z e2 := (zero_outcome (.refl e1) element True).ok_of_exec h2
    have htakes : e2.Takes z.cell := hzero.2.takes_of_mem List.mem_cons_self
    obtain rfl := fillElements_pieces ht ha htakes h3
    rw [exec_free (by exact htakes)] at h
    cases h
    obtain ⟨code, hcode⟩ := code_of_holding hzero.2
    obtain ⟨rest, hrest⟩ : ∃ rest, length - values.length = rest + 1 := ⟨length - values.length - 1, by omega⟩
    obtain ⟨tail, htail⟩ : ∃ tail : List Piece, tail = ⟨code, z⟩ :: List.replicate rest ⟨[], z⟩ := ⟨_, rfl⟩
    refine ⟨ps ++ tail, ?_, ?_, ?_, ?_, ?_, ?_⟩
    · rw [List.length_append, hlength, htail, List.length_cons, List.length_replicate]
      omega
    · rw [piecesCode_append, hlength, hrest, htail]
      simp [hcode, htext, piecesCode, List.replicate_succ]
    · simp only [htail, List.mem_append, List.mem_cons, List.mem_replicate]
      rintro p (hp | rfl | ⟨-, rfl⟩)
      · exact hviews p hp
      · exact hzero.1
      · exact hzero.1
    · intro i v p hv hp
      have hi : i < ps.length := hlength ▸ (List.getElem?_eq_some_iff.mp hv).1
      rw [List.getElem?_append_left hi] at hp
      rw [List.take_append_of_le_length (Nat.le_of_lt hi)]
      exact hgiven i v p hv hp
    · refine fun _ => ⟨⟨code, z⟩, by simp [← hlength, htail], ?_, fun i q hi hq => ?_⟩
      · rw [← hlength, List.take_left]
        exact ⟨e1, e2, htext, live_of_holding hheld, h2, hcode⟩
      · obtain ⟨j, rfl⟩ : ∃ j, i = ps.length + (j + 1) := ⟨i - values.length - 1, by omega⟩
        rw [List.getElem?_append_right (by omega), Nat.add_sub_cancel_left, htail, List.getElem?_cons_succ,
          List.getElem?_replicate] at hq
        split at hq <;> cases hq
        rfl
    · have hback : Holding [] 0 e (e2.release z) := hheld.trans hzero.2.release
      exact fun c => live_of_holding hback c
  · rename_i hfull
    cases h
    exact ⟨ps, by omega, htext, hviews, hgiven, fun hfew => absurd hfew hfull, live_of_holding hheld⟩

/-- A local array whose slot lies below the frame pointer and within 32 bits of it is initialized by one store
for each of its elements in order, at the distance of the element and at its width: first the given
elements, each computed just before it is stored, and then a zero for all the others. Together the stores
write the bytes of the slot, each once, and the same registers are live as before. -/
theorem localInit_fills {values : List Typed.Expr} (ht : o.type = .array element length)
    (ha : o.address = .frame base) (hlow : -2 ^ 31 ≤ base) (hhigh : base + o.type.size ≤ 0)
    (hcount : values.length ≤ length) (h : exec (localInit o (.elements values)) s e = (.ok (), e')) :
    ∃ pieces, Initialized s base element length values e e' pieces ∧
      (piecesStores base element 0 pieces).flatMap Line.frameBytes = bytesFrom base o.type.size ∧
      ∀ i < length, -2 ^ 31 ≤ base + (i * element.size : Nat) ∧ base + (i * element.size : Nat) < 0 := by
  obtain ⟨pieces, hpieces⟩ := initialized_of_localInit ht ha hcount h
  refine ⟨pieces, hpieces, ?_, fun i hi => ⟨by omega, ?_⟩⟩
  · rw [frameBytes_piecesStores base element 0 hpieces.views, hpieces.length_eq, ht]
    simp [CType.size]
  · have hsize : 0 < element.size := by cases element <;> decide
    have hend : i * element.size + element.size ≤ o.type.size := by
      rw [ht, CType.size, ← Nat.succ_mul, Nat.mul_comm]
      exact Nat.mul_le_mul_left _ hi
    omega

/-- Three numbers below the frame pointer. -/
def threeInts : Symbol := ⟨"a", .array .int 3, .frame (-12)⟩

/-- One number is given and two are zero. -/
theorem threeInts_filled :
    ∃ e' pieces, exec (localInit threeInts (.elements [.literal (.int 7)])) ⟨{}, false⟩ {} = (.ok (), e') ∧
      Initialized ⟨{}, false⟩ (-12) .int 3 [.literal (.int 7)] {} e' pieces ∧
      (piecesStores (-12) .int 0 pieces).flatMap Line.frameBytes =
        [-12, -11, -10, -9, -8, -7, -6, -5, -4, -3, -2, -1] := by
  obtain ⟨e', hexec⟩ := exec_eq_ok (m := localInit threeInts (.elements [.literal (.int 7)])) (s := ⟨{}, false⟩)
    (e := {}) (a := ()) (by cbv)
  obtain ⟨pieces, hfilled, hbytes, -⟩ :=
    localInit_fills (o := threeInts) rfl rfl (by decide) (by decide) (by decide) hexec
  exact ⟨e', pieces, hexec, hfilled, hbytes⟩

end Lower

end MiniC
