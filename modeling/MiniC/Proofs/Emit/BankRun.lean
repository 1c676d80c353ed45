import MiniC.Proofs.Emit.Cells

/-!
# What a bank answers

A bank is asked for registers, gets them back, and may be told to forget all of them; any request may
fail. `Session` is a bank with the requests it has answered. Who holds a register can be read off the
answers alone (`Held`): it was given out, and since then neither given back, through whatever view, nor
cleared.

The bank knows no more and no less. `Session.Account` says what that means for each of its functions, and
`Session.after_account` that it is so after any requests, on any machine. One request is gone through in
`Balanced.next`; the rest is an induction over the requests.
-/

set_option autoImplicit false

namespace MiniC.Emit

namespace Bank

variable {ρ : Type} {file : RegisterFile ρ}

/-! ### Requests -/

inductive Request where
  | allocate (view : Scalar)
  | free (r : Reg)
  | freeAll
deriving DecidableEq, Repr

/-- The view that a request is about, if it is about one slot. -/
def Request.view? : Request → Option Scalar
  | allocate view => some view
  | free r => some r.view
  | freeAll => none

/-- Answer a request: a handle if one was asked for, or why there is none. -/
def serve (b : Bank file) : Request → Except Error (Option Reg) × Bank file
  | .allocate view =>
    match b.allocate view with
    | .ok (r, b') => (.ok (some r), b')
    | .error x => (.error x, b)
  | .free r =>
    match b.free r with
    | .ok b' => (.ok none, b')
    | .error x => (.error x, b)
  | .freeAll => (.ok none, b.freeAll)

/-- Whether somebody holds a register, by the answers given so far, the latest one first. -/
def Held : List (Request × Except Error (Option Reg)) → Cell → Prop
  | [], _ => False
  | (.allocate _, .ok (some r)) :: earlier, c => c = r.cell ∨ Held earlier c
  | (.free r, .ok _) :: earlier, c => c ≠ r.cell ∧ Held earlier c
  | (.freeAll, _) :: _, _ => False
  | _ :: earlier, c => Held earlier c

/-- A bank and what it has answered. -/
structure Session (file : RegisterFile ρ) where
  bank : Bank file
  /-- The latest answer comes first. -/
  answered : List (Request × Except Error (Option Reg))
  /-- How many registers were in use when all were freed at once. -/
  cleared : Nat

namespace Session

/-- A new bank. -/
def start (file : RegisterFile ρ) : Session file := ⟨new file, [], 0⟩

/-- The session after one more request. -/
def next (s : Session file) (q : Request) : Session file where
  bank := (s.bank.serve q).2
  answered := (q, (s.bank.serve q).1) :: s.answered
  cleared := if q = .freeAll then s.cleared + s.bank.liveCount else s.cleared

/-- The session after some requests to a new bank. -/
def after (file : RegisterFile ρ) (qs : List Request) : Session file := qs.foldl next (start file)

end Session

/-! ### Slots in use -/

theorem length_live (b : Bank file) (view : Scalar) :
    (b.live view).length = (b.status view).count true := by
  rw [live]
  generalize b.status view = marks
  generalize 0 = k
  induction marks generalizing k with
  | nil => rfl
  | cons mark marks ih => cases mark <;> simp [ih]

theorem mem_live {b : Bank file} {view : Scalar} {r : Reg} :
    r ∈ b.live view ↔ r.view = view ∧ (b.status view)[r.slot]? = some true := by
  simp only [live, List.mem_filterMap, Option.ite_none_right_eq_some, Option.some.injEq]
  constructor
  · rintro ⟨⟨taken, slot⟩, hmem, rfl, rfl⟩
    exact ⟨rfl, List.mem_zipIdx_iff_getElem?.mp hmem⟩
  · rintro ⟨rfl, hslot⟩
    exact ⟨(true, r.slot), List.mem_zipIdx_iff_getElem?.mpr hslot, rfl, rfl⟩

theorem isAllocated_eq_true {b : Bank file} {view : Scalar} {slot : Nat} :
    b.isAllocated view slot = true ↔ (b.status view)[slot]? = some true := by
  rw [isAllocated]
  cases (b.status view)[slot]? <;> simp

/-- Marking a slot of one kind leaves the views of the other kind alone. -/
theorem status_mark_of_ne (b : Bank file) {view other : Scalar} (h : other.isInteger ≠ view.isInteger)
    (slot : Nat) (taken : Bool) : (b.mark view slot taken).status other = b.status other := by
  cases view <;> cases other <;> first | rfl | exact absurd rfl h

theorem status_mark_self (b : Bank file) (view : Scalar) (slot : Nat) (taken : Bool) :
    (b.mark view slot taken).status view = (b.status view).set slot taken := by
  cases view <;> rfl

/-- How many registers are in use, by the views of the two kinds. -/
theorem liveCount_eq {b : Bank file} (h : b.Coherent) (view other : Scalar)
    (hne : other.isInteger ≠ view.isInteger) :
    b.liveCount = (b.status view).count true + (b.status other).count true := by
  have hint : b.liveCount = b.int.count true + b.float.count true := by
    rw [liveCount, length_live, length_live, status, status, h.long_eq]
  rw [hint]
  cases view <;> cases other <;> simp [status, h.char_eq, h.long_eq, Nat.add_comm] <;> exact absurd rfl hne

/-- A kind of register that a view does not belong to. -/
def otherKind (view : Scalar) : Scalar := if view.isInteger then .float else .long

theorem isInteger_otherKind (view : Scalar) : (otherKind view).isInteger ≠ view.isInteger := by
  cases view <;> decide

/-- Marking a slot changes the number of registers in use by what it changes in its own view. -/
theorem liveCount_mark {b : Bank file} (h : b.Coherent) {r : Reg} {old : Bool}
    (hold : (b.status r.view)[r.slot]? = some old) (taken : Bool) :
    (b.mark r.view r.slot taken).liveCount + (if old then 1 else 0) =
      b.liveCount + if taken then 1 else 0 := by
  obtain ⟨hlt, hget⟩ := List.getElem?_eq_some_iff.mp hold
  have hne := isInteger_otherKind r.view
  rw [liveCount_eq (h.mark _ _ _) r.view _ hne, liveCount_eq h r.view _ hne, status_mark_self,
    status_mark_of_ne b hne, List.count_set hlt, hget]
  -- a slot that is in use is one of those counted
  have hpos : old = true → 0 < (b.status r.view).count true := by
    rintro rfl
    exact List.count_pos_iff.mpr (hget ▸ List.getElem_mem hlt)
  cases old with
  | false => cases taken <;> simp; omega
  | true =>
    have hpos := hpos rfl
    cases taken <;> simp <;> omega

/-! ### Single requests -/

/-- What the answer to a request for a register means: the lowest free slot is taken. -/
theorem of_allocate {b b' : Bank file} {view : Scalar} {r : Reg} (h : b.allocate view = .ok (r, b')) :
    r.view = view ∧ (b.status r.view)[r.slot]? = some false ∧
      (∀ slot < r.slot, (b.status view)[slot]? = some true) ∧
      b' = { b.mark r.view r.slot true with allocations := b.allocations + 1 } := by
  unfold allocate at h
  split at h
  · cases h
  · rename_i slot hslot
    cases h
    obtain ⟨hlt, hfree, hlower⟩ := List.findIdx?_eq_some_iff_getElem.mp hslot
    refine ⟨rfl, ?_, fun i hi => ?_, rfl⟩
    · rw [List.getElem?_eq_getElem hlt]
      simpa using hfree
    · rw [List.getElem?_eq_getElem (Nat.lt_trans hi hlt)]
      simpa using hlower i hi

theorem allocate_eq_error {b : Bank file} {view : Scalar} {x : Error} :
    b.allocate view = .error x ↔
      x = .noFreeRegister view ∧ ∀ slot < (b.status view).length, (b.status view)[slot]? = some true := by
  have hfull : (b.status view).findIdx? (!·) = none ↔
      ∀ slot < (b.status view).length, (b.status view)[slot]? = some true := by
    rw [List.findIdx?_eq_none_iff, List.forall_mem_iff_getElem]
    refine forall₂_congr fun slot hslot => ?_
    rw [List.getElem?_eq_getElem hslot]
    simp
  unfold allocate
  split
  · rename_i hnone
    rw [hfull] at hnone
    constructor
    · rintro ⟨rfl⟩
      exact ⟨rfl, hnone⟩
    · rintro ⟨rfl, -⟩
      rfl
  · rename_i slot hslot
    constructor
    · intro h
      cases h
    · rintro ⟨-, htaken⟩
      rw [hfull.mpr htaken] at hslot
      cases hslot

theorem check_eq_error {b : Bank file} {r : Reg} {x : Error} :
    b.check r = .error x ↔
      (file.slots r.view ≤ r.slot ∧ x = .outOfRange r.view r.slot) ∨
        (r.slot < file.slots r.view ∧ b.isAllocated r.view r.slot = false ∧
          x = .misuse (.notAllocated r.view r.slot)) := by
  unfold check
  split
  · rename_i hrange
    simp [hrange, Nat.not_lt.mpr hrange, eq_comm (a := x)]
  · rename_i hrange
    split
    · rename_i htaken
      simp [hrange, htaken]
    · rename_i htaken
      simp [hrange, Nat.not_le.mp hrange, htaken, eq_comm (a := x)]

/-- Giving a register back fails just when its handle is not good. -/
theorem free_eq_error {b : Bank file} {r : Reg} {x : Error} :
    b.free r = .error x ↔ b.check r = .error x := by
  unfold free
  cases b.check r with
  | error y => constructor <;> (intro h; cases h; rfl)
  | ok _ => constructor <;> (intro h; cases h)

theorem of_free {b b' : Bank file} {r : Reg} (h : b.free r = .ok b') :
    b.check r = .ok () ∧ b' = { b.mark r.view r.slot false with frees := b.frees + 1 } := by
  unfold free at h
  cases hcheck : b.check r with
  | error x =>
    rw [hcheck] at h
    cases h
  | ok _ =>
    rw [hcheck] at h
    cases h
    exact ⟨rfl, rfl⟩

/-- So does asking for its name, on a machine that has a name for every slot. -/
theorem nameOf_eq_error {b : Bank file} {r : Reg} {x : Error}
    (hnames : ∀ view slot, slot < file.slots view → (file.name view slot).isSome) :
    b.nameOf r = .error x ↔ b.check r = .error x := by
  unfold nameOf
  cases hcheck : b.check r with
  | error y => constructor <;> (intro h; cases h; rfl)
  | ok _ =>
    have hrange : r.slot < file.slots r.view := by
      by_contra hlt
      rw [check_eq_error.2 (.inl ⟨Nat.not_lt.mp hlt, rfl⟩)] at hcheck
      cases hcheck
    obtain ⟨name, hname⟩ := Option.isSome_iff_exists.mp (hnames _ _ hrange)
    simp [bind, Except.bind, hname, pure, Except.pure]

theorem slot_of_check {b : Bank file} {r : Reg} (h : b.check r = .ok ()) :
    (b.status r.view)[r.slot]? = some true := by
  rw [← isAllocated_eq_true]
  by_contra hfree
  have herror : ∃ x, b.check r = .error x := by
    by_cases hrange : r.slot < file.slots r.view
    · exact ⟨_, check_eq_error.2 (.inr ⟨hrange, Bool.eq_false_iff.mpr hfree, rfl⟩)⟩
    · exact ⟨_, check_eq_error.2 (.inl ⟨Nat.not_lt.mp hrange, rfl⟩)⟩
  obtain ⟨x, hx⟩ := herror
  rw [hx] at h
  cases h

theorem serve_of_error {b : Bank file} {q : Request} {x : Error} (h : (b.serve q).1 = .error x) :
    (b.serve q).2 = b := by
  cases q with
  | allocate view =>
    rw [serve] at h ⊢
    cases hallocate : b.allocate view with
    | error y => rfl
    | ok given =>
      rw [hallocate] at h
      cases h
  | free r =>
    rw [serve] at h ⊢
    cases hfree : b.free r with
    | error y => rfl
    | ok b' =>
      rw [hfree] at h
      cases h
  | freeAll => cases h

/-- A request for a slot of one kind does nothing to the slots of the other kind. -/
theorem status_serve_of_ne (b : Bank file) {q : Request} {view other : Scalar} (hq : q.view? = some view)
    (hne : other.isInteger ≠ view.isInteger) : (b.serve q).2.status other = b.status other := by
  cases q with
  | allocate _ =>
    cases hq
    rw [serve]
    cases hallocate : b.allocate view with
    | error y => rfl
    | ok given =>
      obtain ⟨hview, -, -, hb⟩ := of_allocate hallocate
      dsimp only
      rw [hb, hview]
      exact status_mark_of_ne b hne _ _
  | free r =>
    cases hq
    rw [serve]
    cases hfree : b.free r with
    | error y => rfl
    | ok b' =>
      dsimp only
      rw [(of_free hfree).2]
      exact status_mark_of_ne b hne _ _
  | freeAll => cases hq

theorem takes_freeAll (b : Bank file) (c : Cell) : ¬ b.freeAll.Takes c := by
  cases c <;> simp [freeAll, Takes, List.getElem?_replicate]

theorem liveCount_freeAll (b : Bank file) : b.freeAll.liveCount = 0 := by
  rw [liveCount, length_live, length_live, List.count_eq_zero.mpr (by simp [freeAll, status]),
    List.count_eq_zero.mpr (by simp [freeAll, status])]

/-! ### Sessions -/

namespace Session

/-- The bank takes what the answers say that somebody holds, and the counts add up. -/
structure Balanced (s : Session file) : Prop where
  coherent : s.bank.Coherent
  takes : ∀ c, s.bank.Takes c ↔ Held s.answered c
  net : s.bank.net = s.bank.liveCount + s.cleared

theorem balanced_start : (start file).Balanced where
  coherent := coherent_new
  takes c := by cases c <;> simp [start, new, Takes, Held, List.getElem?_replicate]
  net := by
    rw [liveCount, length_live, length_live]
    simp [start, new, net, status, List.count_replicate]

/-- A request that fails leaves the session as it is, but for the answer. -/
theorem Balanced.failed {s : Session file} (h : s.Balanced) {q : Request} {x : Error}
    (hanswer : (s.bank.serve q).1 = .error x) : (s.next q).Balanced := by
  have hbank : (s.next q).bank = s.bank := serve_of_error hanswer
  have hcleared : (s.next q).cleared = s.cleared := by
    refine if_neg ?_
    rintro rfl
    cases hanswer
  refine ⟨hbank ▸ h.coherent, fun c => ?_, by rw [hbank, hcleared, h.net]⟩
  have hheld : Held (s.next q).answered c ↔ Held s.answered c := by
    show Held ((q, (s.bank.serve q).1) :: s.answered) c ↔ _
    rw [hanswer]
    cases q with
    | freeAll => cases hanswer
    | _ => exact Iff.rfl
  rw [hbank, hheld]
  exact h.takes c

theorem Balanced.allocated {s : Session file} (h : s.Balanced) {view : Scalar} {r : Reg} {b : Bank file}
    (hallocate : s.bank.allocate view = .ok (r, b)) : (s.next (.allocate view)).Balanced := by
  have hserve : s.bank.serve (.allocate view) = (.ok (some r), b) := by rw [serve, hallocate]
  have hcoherent : b.Coherent := h.coherent.allocate hallocate
  obtain ⟨-, hfree, -, rfl⟩ := of_allocate hallocate
  have hlt : r.slot < file.slots r.view := by
    rw [← h.coherent.length_status]
    exact (List.getElem?_eq_some_iff.mp hfree).1
  refine ⟨?_, fun c => ?_, ?_⟩
  · rwa [next, hserve]
  · rw [next, hserve]
    show (s.bank.mark r.view r.slot true).Takes c ↔ c = r.cell ∨ Held s.answered c
    rw [takes_mark_true h.coherent hlt, h.takes]
  · have hcount := liveCount_mark h.coherent hfree true
    have hnet := h.net
    simp only [Bool.false_eq_true, if_false, if_true, Nat.add_zero] at hcount
    rw [next, hserve]
    show ((s.bank.allocations + 1 : Nat) : Int) - (s.bank.mark r.view r.slot true).frees =
      ((s.bank.mark r.view r.slot true).liveCount : Nat) + ((s.cleared : Nat) : Int)
    have hfrees : (s.bank.mark r.view r.slot true).frees = s.bank.frees := by
      unfold mark
      split <;> rfl
    rw [hcount, hfrees]
    unfold Bank.net at hnet
    omega

theorem Balanced.freed {s : Session file} (h : s.Balanced) {r : Reg} {b : Bank file}
    (hfree : s.bank.free r = .ok b) : (s.next (.free r)).Balanced := by
  have hserve : s.bank.serve (.free r) = (.ok none, b) := by rw [serve, hfree]
  have hcoherent : b.Coherent := h.coherent.free hfree
  obtain ⟨hcheck, rfl⟩ := of_free hfree
  refine ⟨?_, fun c => ?_, ?_⟩
  · rwa [next, hserve]
  · rw [next, hserve]
    show (s.bank.mark r.view r.slot false).Takes c ↔ c ≠ r.cell ∧ Held s.answered c
    rw [takes_mark_false, h.takes]
  · have hcount := liveCount_mark h.coherent (slot_of_check hcheck) false
    have hnet := h.net
    simp only [Bool.false_eq_true, if_false, if_true, Nat.add_zero] at hcount
    rw [next, hserve]
    show ((s.bank.mark r.view r.slot false).allocations : Int) - ((s.bank.frees + 1 : Nat) : Int) =
      ((s.bank.mark r.view r.slot false).liveCount : Nat) + ((s.cleared : Nat) : Int)
    have hallocations : (s.bank.mark r.view r.slot false).allocations = s.bank.allocations := by
      unfold mark
      split <;> rfl
    rw [hallocations]
    unfold Bank.net at hnet
    omega

theorem Balanced.clearedAll {s : Session file} (h : s.Balanced) : (s.next .freeAll).Balanced where
  coherent := h.coherent.freeAll
  takes c := iff_of_false (takes_freeAll s.bank c) id
  net := by
    show s.bank.freeAll.net = s.bank.freeAll.liveCount + ((s.cleared + s.bank.liveCount : Nat) : Int)
    have hnet : s.bank.freeAll.net = s.bank.net := rfl
    rw [hnet, liveCount_freeAll, h.net]
    omega

theorem Balanced.next {s : Session file} (h : s.Balanced) (q : Request) : (s.next q).Balanced := by
  cases q with
  | allocate view =>
    cases hallocate : s.bank.allocate view with
    | error x => exact h.failed (by rw [serve, hallocate])
    | ok given => exact h.allocated hallocate
  | free r =>
    cases hfree : s.bank.free r with
    | error x => exact h.failed (by rw [serve, hfree])
    | ok b => exact h.freed hfree
  | freeAll => exact h.clearedAll

theorem balanced_after (qs : List Request) : (after file qs).Balanced := by
  have hrun : ∀ s : Session file, s.Balanced → (qs.foldl Session.next s).Balanced := by
    induction qs with
    | nil => exact fun s h => h
    | cons q qs ih => exact fun s h => ih _ (h.next q)
  exact hrun _ balanced_start

/-! ### The account -/

/-- Why a handle is not good: there is no such slot, or nobody holds it. -/
def Refuses (s : Session file) (r : Reg) (x : Error) : Prop :=
  (file.slots r.view ≤ r.slot ∧ x = .outOfRange r.view r.slot) ∨
    (r.slot < file.slots r.view ∧ ¬ Held s.answered r.cell ∧ x = .misuse (.notAllocated r.view r.slot))

/-- What a bank does after the requests that it has answered. -/
structure Account (s : Session file) : Prop where
  /-- A slot is in use in all its views or in none. -/
  views : ∀ slot, s.bank.isAllocated .char slot = s.bank.isAllocated .int slot ∧
    s.bank.isAllocated .long slot = s.bank.isAllocated .int slot
  /-- A slot is in use just when somebody holds it. -/
  taken : ∀ r : Reg, s.bank.isAllocated r.view r.slot = true ↔ Held s.answered r.cell
  /-- The lists of registers in use are complete. -/
  live : ∀ view r, r ∈ s.bank.live view ↔ r.view = view ∧ Held s.answered r.cell
  /-- The lowest slot is given out that nobody holds. -/
  lowest : ∀ view r b, s.bank.allocate view = .ok (r, b) →
    r.view = view ∧ r.slot < file.slots view ∧ ¬ Held s.answered r.cell ∧
      ∀ slot < r.slot, Held s.answered (⟨view, slot⟩ : Reg).cell
  /-- There is none just when all slots are held. -/
  exhausted : ∀ view x, s.bank.allocate view = .error x ↔
    x = .noFreeRegister view ∧ ∀ slot < file.slots view, Held s.answered (⟨view, slot⟩ : Reg).cell
  checks : ∀ r x, s.bank.check r = .error x ↔ s.Refuses r x
  frees : ∀ r x, s.bank.free r = .error x ↔ s.Refuses r x
  names : ∀ r x, s.bank.nameOf r = .error x ↔ s.Refuses r x
  failures : ∀ q x, (s.bank.serve q).1 = .error x → (s.bank.serve q).2 = s.bank
  /-- The two kinds of registers have nothing to do with each other. -/
  apart : ∀ q view other, q.view? = some view → other.isInteger ≠ view.isInteger →
    (s.bank.serve q).2.status other = s.bank.status other
  net : s.bank.net = s.bank.liveCount + s.cleared

theorem Balanced.held_iff {s : Session file} (h : s.Balanced) (r : Reg) :
    (s.bank.status r.view)[r.slot]? = some true ↔ Held s.answered r.cell := by
  rw [h.coherent.status_eq, h.takes]

theorem Balanced.refuses {s : Session file} (h : s.Balanced) (r : Reg) (x : Error) :
    s.bank.check r = .error x ↔ s.Refuses r x := by
  have hfree : s.bank.isAllocated r.view r.slot = false ↔ ¬ Held s.answered r.cell := by
    rw [← h.held_iff, ← isAllocated_eq_true, Bool.not_eq_true]
  rw [check_eq_error, Refuses, hfree]

/-- After any requests to a new bank, of any machine that names its slots, the bank is right about who
holds which register. -/
theorem after_account (file : RegisterFile ρ)
    (hnames : ∀ view slot, slot < file.slots view → (file.name view slot).isSome) (qs : List Request) :
    (after file qs).Account := by
  have h : (after file qs).Balanced := balanced_after qs
  generalize after file qs = s at h
  have hlength := h.coherent.length_status
  exact {
    views := fun slot => by
      simp only [isAllocated, status, h.coherent.char_eq, h.coherent.long_eq, and_self]
    taken := fun r => by rw [isAllocated_eq_true, h.held_iff]
    live := fun view r => by
      rw [mem_live]
      refine and_congr_right ?_
      rintro rfl
      exact h.held_iff r
    lowest := fun view r b hallocate => by
      obtain ⟨hview, hfree, hlower, -⟩ := of_allocate hallocate
      refine ⟨hview, ?_, ?_, fun slot hslot => (h.held_iff ⟨view, slot⟩).mp (hlower slot hslot)⟩
      · rw [← hview, ← hlength]
        exact (List.getElem?_eq_some_iff.mp hfree).1
      · rw [← h.held_iff, hfree]
        simp
    exhausted := fun view x => by
      rw [allocate_eq_error, hlength]
      refine and_congr_right fun _ => forall₂_congr fun slot _ => ?_
      exact h.held_iff ⟨view, slot⟩
    checks := h.refuses
    frees := fun r x => by rw [free_eq_error, h.refuses]
    names := fun r x => by rw [nameOf_eq_error hnames, h.refuses]
    failures := fun q x => serve_of_error
    apart := fun q view other => status_serve_of_ne s.bank
    net := h.net }

/-- A register is given back through another view, then once too often; all are cleared while a float
register is held. -/
theorem after_account_mixed :
    (∀ view slot, slot < registerFile.slots view → (registerFile.name view slot).isSome) ∧
      (after registerFile [.allocate .int, .free ⟨.char, 0⟩, .free ⟨.long, 0⟩, .allocate .float,
        .freeAll, .allocate .long]).Account := by
  have hnames : ∀ view slot, slot < registerFile.slots view → (registerFile.name view slot).isSome := by
    intro view slot hslot
    have hlt : slot < 4 := by
      cases view <;> exact hslot
    cases view <;> simp [registerFile, valueGprs, valueXmms, hlt]
  exact ⟨hnames, after_account registerFile hnames _⟩

end Session

end Bank

end MiniC.Emit
