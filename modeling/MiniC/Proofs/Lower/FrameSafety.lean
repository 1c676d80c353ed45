import MiniC.Proofs.Lower.FileLines
import MiniC.Proofs.Lower.StackDiscipline
import MiniC.Proofs.Typing.Soundness

/-!
# Code stays inside the slots of declared objects

The objects of a function are its parameters and what is declared anywhere in its body. Each has a
slot of its own below the frame pointer: slots do not overlap, are aligned to their types and lie
within the bytes that the function reserves (`Laid.slot`, `Laid.disjoint`). An accepted function
mentions no other place of its frame, and code that is generated for it names only bytes inside
these slots (`program_frameSafe`).

What the prologue keeps for the caller lies around these bytes. The place to return to and the saved
frame pointer are above them, and the saved registers below, since the prologue moves the stack past
all of them before it pushes those (`frameOpened`). So no operand that names a place in the frame
reaches a word that is kept.
-/

set_option autoImplicit false

namespace MiniC

/-! ### Slots -/

namespace Typing

theorem dvd_roundUp (n unit : Nat) : unit ∣ roundUp n unit := Nat.dvd_mul_left _ _

/-- The frame after some objects. -/
def Frame.after (os : List Symbol) : Frame := os.foldl (fun f o => f.extend o.type) {}

/-- An object lies at an offset that its type allows, with all its bytes in a frame of some size. -/
structure Slot (o : Symbol) (base : Int) (size : Nat) : Prop where
  address : o.address = .frame base
  aligned : (o.type.align : Int) ∣ base
  within : -(size : Int) ≤ base ∧ base + o.type.size ≤ 0

/-- Two slots have no byte in common. -/
def SlotsApart (o o' : Symbol) : Prop :=
  ∀ base base', o.address = .frame base → o'.address = .frame base' →
    base + o.type.size ≤ base' ∨ base' + o'.type.size ≤ base

namespace Laid

variable {f f' : Frame} {os : List Symbol}

theorem slot (h : Laid f os f') {o : Symbol} (ho : o ∈ os) : ∃ base, Slot o base f'.size := by
  have hsize := f'.used_le_size
  induction h with
  | nil => cases ho
  | @cons f f' first os ha _ hos ih =>
    rcases List.mem_cons.mp ho with rfl | ho
    · refine ⟨_, ha, ?_, ?_⟩
      · exact (Int.natCast_dvd_natCast.mpr (dvd_roundUp _ _)).neg_right
      · have hbelow := Frame.le_extend_used f o.type
        have hlast := hos.used_le
        omega
    · exact ih ho hsize

theorem disjoint (h : Laid f os f') : os.Pairwise SlotsApart := by
  induction h with
  | nil => exact .nil
  | @cons f f' first os ha _ hos ih =>
    refine List.pairwise_cons.mpr ⟨fun o ho => ?_, ih⟩
    intro base base' hbase hbase'
    obtain ⟨k, hk, hlo, -, -⟩ := hos.bounds ho
    rw [ha, Address.frame.injEq] at hbase
    rw [hk, Address.frame.injEq] at hbase'
    right
    omega

theorem reached (h : Laid f os f') {before after : List Symbol} {o : Symbol} (hos : os = before ++ o :: after) :
    ∃ f1 : Frame, f1 = before.foldl (fun f o => f.extend o.type) f ∧
      o.address = .frame (-((f1.extend o.type).used : Int)) ∧ (f1.extend o.type).size < 2 ^ 31 := by
  induction h generalizing before with
  | nil => simp at hos
  | @cons f f' first os ha hsize hrest ih =>
    cases before with
    | nil =>
      cases hos
      exact ⟨f, rfl, ha, hsize⟩
    | cons first' before =>
      cases hos
      exact ih rfl

end Laid

end Typing

/-- A stretch of bytes lies in the slot of an object of the function; no bytes at all are meant for the
address of an object. -/
def Typed.Function.Owns (f : Typed.Function) (offset : Int) (bytes : Nat) : Prop :=
  ∃ o ∈ f.objects, ∃ base, o.address = .frame base ∧ base ≤ offset ∧
    offset + bytes ≤ base + o.type.size ∧ (bytes = 0 → offset = base)

namespace Lower

open Emit Typing
open MiniC.X86 (Line Places Depth savedSlots trace track)

/-- The frame of a function is laid out safely. -/
structure FrameSafe (f : Typed.Function) : Prop where
  /-- Every object has a slot in the bytes that are reserved. -/
  slots : ∀ o ∈ f.objects, ∃ base, Slot o base f.routine.frameSize
  /-- No two slots overlap. -/
  disjoint : f.objects.Pairwise SlotsApart
  /-- What is reserved keeps the stack aligned, and fits a 32-bit displacement. -/
  reserved : 16 ∣ f.routine.frameSize ∧ f.routine.frameSize ≤ 2 ^ 31 - 1
  /-- Every number on the way does: the size of the object, the bytes up to its end, the same rounded up to
  its alignment, which is its distance from the frame pointer, and the frame that this would make. -/
  computed : ∀ before o after, f.objects = before ++ o :: after →
    (Frame.after before).used + o.type.size ≤ ((Frame.after before).extend o.type).used ∧
      o.address = .frame (-(((Frame.after before).extend o.type).used : Int)) ∧
      ((Frame.after before).extend o.type).used ≤ ((Frame.after before).extend o.type).size ∧
      ((Frame.after before).extend o.type).size ≤ 2 ^ 31 - 1
  /-- What the function mentions in its frame is one of its objects, with its type. -/
  mentioned : ∀ o ∈ f.symbols, ∀ base, o.address = .frame base → o ∈ f.objects

theorem frameSafe_of_laid {f : Typed.Function} {frame : Frame} (hlaid : Laid {} f.objects frame)
    (hsize : f.routine.frameSize = frame.size)
    (hmentioned : ∀ o ∈ f.symbols, ∀ base, o.address = .frame base → o ∈ f.objects) : FrameSafe f where
  slots o ho := hsize ▸ hlaid.slot ho
  disjoint := hlaid.disjoint
  reserved := by
    have hlt : frame.size < 2 ^ 31 := hlaid.size_lt (by decide)
    rw [hsize]
    exact ⟨dvd_roundUp _ _, by omega⟩
  computed before o after hobjects := by
    obtain ⟨f1, rfl, haddress, hlt⟩ := hlaid.reached hobjects
    refine ⟨Frame.le_extend_used _ _, haddress, Frame.used_le_size _, ?_⟩
    show (Frame.extend (before.foldl (fun f o => f.extend o.type) {}) o.type).size ≤ 2 ^ 31 - 1
    omega
  mentioned := hmentioned

/-! ### What the prologue keeps -/

/-- The words that a prologue keeps, as offsets from a frame pointer that stands at the depth
`base`: the place to return to, and whatever the prologue has pushed. -/
def keptWords (opening : List Line) (base : Int) : List Int :=
  (Depth.entry.top :: (savedSlots (trace opening .entry)).map Prod.snd).map fun depth => base - depth

/-- A stretch of bytes has none in common with the word at an offset. -/
def ClearOf (offset : Int) (bytes : Nat) (word : Int) : Prop :=
  offset + bytes ≤ word ∨ word + 8 ≤ offset

/-- The frame that a prologue opens: between the words that it keeps there is room for the objects
of the function. -/
structure FrameOpened (f : Typed.Function) (opening : List Line) (base : Int) : Prop where
  /-- The registers that it keeps are the frame pointer of the caller and those of the bank. -/
  saved : (savedSlots (trace opening .entry)).map Prod.fst = .quad .rbp :: valueGprs.map .quad
  /-- No byte of the objects is in one of the words, whichever objects there are. -/
  clear : ∀ word ∈ keptWords opening base, ClearOf (-f.routine.frameSize) f.routine.frameSize word
  /-- When it is done, the frame pointer is at `base`, and the stack pointer at or below the objects
  and all the words. -/
  below : ∃ top, track opening .entry = some ⟨top, some base⟩ ∧
    base - top ≤ -f.routine.frameSize ∧ ∀ word ∈ keptWords opening base, base - top ≤ word

theorem le_frameBytes (size : Nat) : size ≤ frameBytes size := by
  unfold frameBytes roundUp stackAlign
  omega

/-- The prologue of a function opens its frame: it moves the stack by as many bytes as the objects
take up, and more, before it pushes the registers of the bank. -/
theorem FunctionCode.frameOpened {s : Setting} {f : Typed.Function} {e0 e1 e2 e3 : Emitter}
    (c : FunctionCode s f e0 e1 e2 e3) : FrameOpened f (prologueLines f e0 e1) 16 := by
  obtain ⟨htrack, hsaved⟩ := c.track_prologue
  have hroom := le_frameBytes f.routine.frameSize
  have hwords : keptWords (prologueLines f e0 e1) 16 =
      [8, 0, 16 - (objectDepth f.routine + 8), 16 - (objectDepth f.routine + 16),
        16 - (objectDepth f.routine + 24), 16 - (objectDepth f.routine + 32)] := by
    rw [keptWords, hsaved]
    rfl
  refine ⟨by rw [hsaved]; rfl, ?_, _, htrack, ?_, ?_⟩
  · rw [hwords]
    simp only [List.forall_mem_cons, List.not_mem_nil, false_implies, implies_true, and_true, ClearOf,
      objectDepth]
    omega
  · rw [frameDepth, objectDepth]
    omega
  · rw [hwords]
    simp only [List.forall_mem_cons, List.not_mem_nil, false_implies, implies_true, and_true,
      frameDepth, objectDepth]
    omega

/-! ### Functions that were accepted -/

/-- Where the code of a function may go: to its own objects, clear of what its prologue keeps, and
anywhere in the data section. -/
def framePlaces (f : Typed.Function) (words : List Int) : Places :=
  ⟨fun offset bytes => f.Owns offset bytes ∧ ∀ word ∈ words, ClearOf offset bytes word, fun _ => True⟩

/-- The objects of a function may be accessed, each inside its slot. -/
theorem admits_framePlaces {f : Typed.Function} (hsafe : FrameSafe f) {words : List Int}
    (hclear : ∀ word ∈ words, ClearOf (-f.routine.frameSize) f.routine.frameSize word) {o : Symbol}
    (ho : o ∈ f.symbols) : (framePlaces f words).Admits o := by
  intro offset bytes hin hzero
  cases haddress : o.address with
  | label name => trivial
  | frame base =>
    have hobject := hsafe.mentioned o ho base haddress
    refine ⟨⟨o, hobject, base, haddress, by omega, by omega, fun hbytes => ?_⟩, fun word hword => ?_⟩
    · rw [hzero hbytes]
      omega
    · -- the slot lies in the bytes that are reserved
      obtain ⟨base', hslot⟩ := hsafe.slots o hobject
      obtain rfl : base = base' := Address.frame.inj (haddress.symm.trans hslot.address)
      have hwithin := hslot.within
      have hword := hclear word hword
      unfold ClearOf at hword ⊢
      omega

/-- Opening and closing a frame names no place, and all else goes to the objects of the function. -/
theorem FunctionCode.confined {s : Setting} {f : Typed.Function} {e0 e1 e2 e3 : Emitter}
    (c : FunctionCode s f e0 e1 e2 e3) {R : Places} (hpool : R.Pooled s.pool)
    (hadmits : ∀ o ∈ f.symbols, R.Admits o) : ∀ l ∈ headLines f.routine ++
      (prologueLines f e0 e1 ++ bodyLines e1 e2 ++ tailLines f.routine), l.Confined R := by
  rw [Typed.Function.symbols, List.forall_mem_append] at hadmits
  obtain ⟨is, his, hadded⟩ := c.stores_within hpool hadmits.1
  have hbody := (c.level_within hpool hadmits.2).keeps.confined
  have hinstrs : ∀ {is : List X86.Instr}, (∀ i ∈ is, ∀ p ∈ i.places, R.Has p.1 p.2) →
      ∀ l ∈ is.map Line.instr, l.Confined R := fun h l hl => by
    obtain ⟨i, hi, rfl⟩ := List.mem_map.mp hl
    exact h i hi
  have hopen : ∀ i ∈ openFrame f.routine.frameSize, ∀ p ∈ i.places, R.Has p.1 p.2 :=
    forall_openFrame (by simp [X86.Instr.places]) (by simp [X86.Instr.places]) (by simp [X86.Instr.places]) _
  have hclose : ∀ i ∈ closeFrame, i.places = [] := by decide
  simp only [headLines, prologueLines, bodyLines, tailLines, hadded, List.forall_mem_append, List.forall_mem_cons]
  refine ⟨by simp [Line.Confined], ⟨⟨hinstrs hopen, hinstrs fun i hi => (his i hi).places⟩, hbody, ?_⟩, trivial, ?_⟩
  · simp [Line.Confined, X86.Instr.places]
  · refine ⟨hinstrs fun i hi p hp => ?_, by simp [Line.Confined]⟩
    rw [hclose i hi] at hp
    exact absurd hp List.not_mem_nil

theorem confined_of_emits {s : Setting} {f : Typed.Function} {part : List Line} (h : Emits s f part)
    {R : Places} (hpool : R.Pooled s.pool) (hadmits : ∀ o ∈ f.symbols, R.Admits o) :
    ∀ l ∈ part, l.Confined R := by
  obtain ⟨e, e', hidle, hperform, htext⟩ := h
  obtain ⟨_, _, c⟩ := functionCode_of_perform hidle hperform
  -- the lines that were appended are the part
  rw [c.text_eq] at htext
  rw [← List.append_cancel_left htext]
  exact c.confined hpool hadmits

/-- What is known is sound, and every function of the file was accepted against it. -/
theorem accepted_of_program {files : List Ast.Program} {p : Ast.Program} {t : Typed.Program} {k : Known}
    (h : Typing.program (.after files) p = (.ok t, k)) :
    k.SoundFor (fun t => t.isVoid = false) ∧
      ∀ f ∈ t.functions, k.AcceptsFor (fun t => t.isVoid = false) .all f := by
  obtain ⟨hitems, hfunctions⟩ := of_program h
  have hsound : k.SoundFor fun t => t.isVoid = false := by
    have hadd := ((Known.soundFor_after files).addItems
      (V := everything) (fun v _ => by cases v <;> trivial)
      fun item (_ : item ∈ p.items) => Known.takes_all item).1
    rwa [hitems] at hadd
  exact ⟨hsound, functions_checked (fun _ ht => ht) hsound (fun _ _ body _ => body.spelled_all) hfunctions⟩

/-- The vocabulary of all constants, what is known, and the objects of a function. -/
theorem names_vocabulary (k : Known) (f : Typed.Function) : k.Names .all (k.vocabulary f) := by
  refine ⟨rfl, fun v _ => ?_, fun o => .inr⟩
  cases v <;> trivial

/-- An accepted function mentions only its own objects and the global ones. -/
theorem mentioned_of_accepted {k : Known} {f : Typed.Function}
    (hf : k.AcceptsFor (fun t => t.isVoid = false) .all f) :
    ∀ o ∈ f.symbols, o ∈ f.objects ∨ o ∈ k.globals := by
  have hover := hf.typed (k.vocabulary f) (names_vocabulary k f) fun o => .inl
  intro o ho
  rw [Typed.Function.symbols, List.mem_append] at ho
  rcases ho with ho | ho
  · exact (hover.parameters o ho).1
  · obtain ⟨st, hst, ho⟩ := Typed.mem_stmtSymbols.1 ho
    exact (hover.body st hst).objects ho

theorem frameSafe_of_program {files : List Ast.Program} {p : Ast.Program} {t : Typed.Program} {k : Known}
    (h : Typing.program (.after files) p = (.ok t, k)) : ∀ f ∈ t.functions, FrameSafe f := by
  intro f hf
  obtain ⟨hsound, haccepted⟩ := accepted_of_program h
  obtain ⟨frame, hlaid, hsize⟩ := (haccepted f hf).laid
  refine frameSafe_of_laid hlaid hsize fun o ho base haddress => ?_
  -- a global object has no address in a frame
  refine (mentioned_of_accepted (haccepted f hf) o ho).resolve_right fun hglobal => ?_
  have hlabel := (hsound.globals o hglobal).1
  rw [Symbol.isGlobal, haddress] at hlabel
  cases hlabel

/-- The code of a function is safe: its prologue opens the frame, and what its lines name in the frame
lies inside the slots of the function's objects, clear of every word that the prologue keeps. -/
def SafelyEmitted (f : Typed.Function) (part : List Line) : Prop :=
  ∃ opening body base, part = headLines f.routine ++ (opening ++ body ++ tailLines f.routine) ∧
    FrameOpened f opening base ∧ ∀ l ∈ part, l.Confined (framePlaces f (keptWords opening base))

theorem safelyEmitted_of_emits {s : Setting} {f : Typed.Function} (hsafe : FrameSafe f)
    {part : List Line} (h : Emits s f part) : SafelyEmitted f part := by
  obtain ⟨e, e', hidle, hperform, htext⟩ := h
  obtain ⟨e1, e2, c⟩ := functionCode_of_perform hidle hperform
  -- the lines that were appended are the part
  rw [c.text_eq] at htext
  have hpart := List.append_cancel_left htext
  have hpool : (framePlaces f (keptWords (FunctionCode.prologueLines f e e1) 16)).Pooled s.pool :=
    ⟨fun _ _ _ => trivial, fun _ _ _ => trivial⟩
  refine ⟨_, _, 16, hpart.symm, c.frameOpened, ?_⟩
  rw [← hpart]
  exact c.confined hpool fun o ho => admits_framePlaces hsafe c.frameOpened.clear ho

/-- Frames of accepted programs, after any files. Every function of the program has a safe frame. If
code is generated for the program, then its text is the code of the functions, one after the other,
and the code of each is safe: it names bytes of the frame only inside the slots of the function's
objects, so that the saved registers, the saved frame pointer and the place to return to are never
named. -/
theorem program_frameSafe {files : List Ast.Program} {p : Ast.Program} {t : Typed.Program}
    {k : Known} (h : Typing.program (.after files) p = (.ok t, k)) :
    (∀ f ∈ t.functions, FrameSafe f) ∧
      ∀ s file, generate s t = .ok file → ∃ e, perform (program t) s {} = (.ok (), e) ∧
        file = e.output ∧ ∃ parts : List (List Line),
          e.text.toList = parts.flatten ++ [.directive .plainStack] ∧
          List.Forall₂ (fun f part => Emits s f part ∧ SafelyEmitted f part) t.functions parts := by
  have hsafe := frameSafe_of_program h
  refine ⟨hsafe, fun s file hgenerate => ?_⟩
  obtain ⟨e, hperform, hfile⟩ := perform_of_generate hgenerate
  obtain ⟨e0, e1, e2, hrun⟩ := fileRun_of_perform hperform
  obtain ⟨parts, htext, hparts⟩ := hrun.text_eq
  refine ⟨e, hperform, hfile, parts, htext, ?_⟩
  refine ((List.forall₂_and_left _ _).mpr ⟨hsafe, hparts⟩).imp fun f part hf => ⟨hf.2, ?_⟩
  exact safelyEmitted_of_emits hf.1 hf.2

/-- `long f(char c, float x) { int a[3] = {c, 2}; for (char c = 'z'; c > a[0]; --c) { long c = a[1]; x = c; }
return x; }` -/
def shadowing : Ast.Program where
  items :=
    [.function {
      name := "f", result := ⟨.long, 0, none⟩,
      parameters := [⟨"c", ⟨.char, 0, none⟩, .unknown⟩, ⟨"x", ⟨.float, 0, none⟩, .unknown⟩],
      body := some (.block
        [.declare [⟨"a", ⟨.int, 0, some 3⟩, some (.list [.expr (.name "c" .unknown),
            .expr (.literal (.int 2) .unknown)] .unknown), .unknown⟩] .unknown,
         .forLoop (some (.declare [⟨"c", ⟨.char, 0, none⟩, some (.expr (.literal (.char 122) .unknown)),
            .unknown⟩] .unknown))
          (some (.binary .greater (.name "c" .unknown)
            (.index (.name "a" .unknown) (.literal (.int 0) .unknown) .unknown) .unknown))
          (some (.unary .preDecrement (.name "c" .unknown) .unknown))
          (.block
            [.declare [⟨"c", ⟨.long, 0, none⟩, some (.expr (.index (.name "a" .unknown)
                (.literal (.int 1) .unknown) .unknown)), .unknown⟩] .unknown,
             .expr (.assign .assign (.name "x" .unknown) (.name "c" .unknown) .unknown) .unknown]
            .unknown) .unknown,
         .ret (some (.name "x" .unknown)) .unknown] .unknown),
      span := .unknown }]
  span := .unknown

/-- One name three times, an array whose last element is filled with zero, and parameters of both kinds. -/
theorem shadowing_frameSafe :
    ∃ t k, Typing.program (.after []) shadowing = (.ok t, k) ∧
      t.functions.map (fun f => (f.objects.map (·.address), f.routine.frameSize)) =
        [([.frame (-1), .frame (-16), .frame (-28), .frame (-29), .frame (-40)], 48)] ∧
      (∀ f ∈ t.functions, FrameSafe f) ∧
      ∃ file e, generate ⟨{}, true⟩ t = .ok file ∧ perform (program t) ⟨{}, true⟩ {} = (.ok (), e) ∧
        file = e.output ∧ ∃ parts : List (List Line),
          e.text.toList = parts.flatten ++ [.directive .plainStack] ∧
          List.Forall₂ (fun f part => Emits ⟨{}, true⟩ f part ∧ SafelyEmitted f part)
            t.functions parts := by
  have haccepted : (Typing.program (.after []) shadowing).1.toOption.any (fun t =>
      t.functions.map (fun f => (f.objects.map (·.address), f.routine.frameSize)) =
        [([.frame (-1), .frame (-16), .frame (-28), .frame (-29), .frame (-40)], 48)] ∧
      (generate ⟨{}, true⟩ t).isOk = true) = true := by decide +kernel
  revert haccepted
  generalize hprogram : Typing.program (.after []) shadowing = r
  intro haccepted
  obtain ⟨outcome, k⟩ := r
  cases outcome with
  | error x => cases haccepted
  | ok t =>
    obtain ⟨hobjects, hok⟩ := of_decide_eq_true haccepted
    obtain ⟨hsafe, hgenerated⟩ := program_frameSafe hprogram
    cases hgenerate : generate ⟨{}, true⟩ t with
    | error x =>
      rw [hgenerate] at hok
      cases hok
    | ok file =>
      obtain ⟨e, hperform, hfile, hparts⟩ := hgenerated ⟨{}, true⟩ file hgenerate
      exact ⟨t, k, rfl, hobjects, hsafe, file, e, hgenerate, hperform, hfile, hparts⟩

end Lower

end MiniC
