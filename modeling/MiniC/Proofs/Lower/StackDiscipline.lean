import MiniC.Proofs.Lower.ProgramCode
import MiniC.Proofs.Lower.StackLevel

/-!
# The stack in the code of a function

A function saves the registers of its caller, computes below them, and reads them back. What holds this
together is that the stack is where the emitter believes it to be, on every way through the code:
`program_disciplined` says so of all functions of a file that was generated.

The code of a function is tracked from its label on, where the stack holds one word more than before the
call, the place to return to. So a call is aligned if the stack was at eight past a multiple of sixteen at
the label.
-/

set_option autoImplicit false

namespace MiniC.Lower

open Emit
open MiniC.Emitter (Level Grows added)
open MiniC.X86 (Line Instr Depth Framed Lands Walks depthAt trace track savedSlots restoredSlots)

/-! ### Opening and closing a frame -/

/-- How far the stack is below the caller's where a function's objects end: the place to return to, the
caller's frame pointer, and the objects. -/
def objectDepth (f : Routine) : Int := 16 + frameBytes f.frameSize

/-- How far it is while the statements run, below the saved registers. -/
def frameDepth (f : Routine) : Int := objectDepth f + 32

theorem sixteen_dvd_frameBytes (size : Nat) : 16 ∣ frameBytes size := by
  unfold frameBytes roundUp stackAlign
  omega

theorem sixteen_dvd_frameDepth (f : Routine) : 16 ∣ frameDepth f := by
  have hbytes := sixteen_dvd_frameBytes f.frameSize
  unfold frameDepth objectDepth
  omega

theorem toInt_frameBytes {size : Nat} (h : size < 2 ^ 31) :
    (Int64.ofNat (frameBytes size)).toInt = frameBytes size := by
  have hlt : frameBytes size < 2 ^ 63 := by
    unfold frameBytes roundUp stackAlign
    omega
  exact Int64.toInt_ofNat_of_lt hlt

/-- The instruction that makes room for objects, if there are any. -/
def roomCode (size : Nat) : List Instr :=
  if 0 < frameBytes size then [.alu .sub .quad (.imm (Int64.ofNat (frameBytes size))) (.quad .rsp)] else []

/-- The registers of the bank that are saved below a depth, with their slots. -/
def slotsBelow (x : Int) : List (X86.Operand × Int) :=
  [(.quad .rbx, x + 8), (.quad .r12, x + 16), (.quad .r13, x + 24), (.quad .r14, x + 32)]

theorem track_pushes (x : Int) (base : Option Int) :
    track (valueGprs.map fun r => .instr (.push (.quad r))) ⟨x, base⟩ = some ⟨x + 32, base⟩ ∧
      savedSlots (trace (valueGprs.map fun r => .instr (.push (.quad r))) ⟨x, base⟩) = slotsBelow x := by
  simp [valueGprs, track, trace, Line.track, savedSlots, slotsBelow, Int.add_assoc]

theorem track_closeFrame (x : Int) :
    track (closeFrame.map .instr) ⟨x + 32, some 16⟩ = some .entry ∧
      restoredSlots (trace (closeFrame.map .instr) ⟨x + 32, some 16⟩) =
        (slotsBelow x).reverse ++ [(.quad .rbp, 16)] ∧
      (.instr .ret, .entry) ∈ trace (closeFrame.map .instr) ⟨x + 32, some 16⟩ := by
  simp [closeFrame, valueGprs, track, trace, Line.track, restoredSlots, slotsBelow, Int.add_sub_assoc,
    X86.Operand.isFree, X86.Operand.quad, X86.Register.quad, Depth.entry]

theorem forall_openFrame {P : Instr → Prop} (hpush : ∀ g, P (.push (.quad g)))
    (hbase : P (.mov .quad (.quad .rsp) (.quad .rbp)))
    (hroom : ∀ n, P (.alu .sub .quad (.imm n) (.quad .rsp))) (size : Nat) : ∀ i ∈ openFrame size, P i := by
  intro i hi
  simp only [openFrame, List.mem_append, List.mem_cons, List.not_mem_nil, or_false, List.mem_map] at hi
  rcases hi with ((rfl | rfl) | hi) | ⟨g, -, rfl⟩
  · exact hpush _
  · exact hbase
  · split at hi
    · rw [List.mem_singleton.mp hi]
      exact hroom _
    · exact absurd hi List.not_mem_nil
  · exact hpush _

section Opening

variable {f : Routine} (h : f.frameSize < 2 ^ 31)
include h

theorem track_room (base : Option Int) :
    track ((roomCode f.frameSize).map .instr) ⟨16, base⟩ = some ⟨objectDepth f, base⟩ ∧
      savedSlots (trace ((roomCode f.frameSize).map .instr) ⟨16, base⟩) = [] := by
  unfold roomCode objectDepth
  split
  · refine ⟨?_, rfl⟩
    show some (Depth.mk (16 + (Int64.ofNat (frameBytes f.frameSize)).toInt) base) = _
    rw [toInt_frameBytes h]
  · rename_i hnone
    have hzero : frameBytes f.frameSize = 0 := by omega
    rw [hzero]
    exact ⟨rfl, rfl⟩

/-- Where the registers go: the frame pointer next to the place to return to, the others below the
objects. -/
theorem track_openFrame :
    track ((openFrame f.frameSize).map .instr) .entry = some ⟨frameDepth f, some 16⟩ ∧
      savedSlots (trace ((openFrame f.frameSize).map .instr) .entry) =
        (.quad .rbp, 16) :: slotsBelow (objectDepth f) := by
  obtain ⟨hroom, hnoSlots⟩ := track_room h (some 16)
  obtain ⟨hpushes, hslots⟩ := track_pushes (objectDepth f) (some 16)
  have hcode : (openFrame f.frameSize).map Line.instr =
      [.instr (.push (.quad .rbp)), .instr (.mov .quad (.quad .rsp) (.quad .rbp))] ++
        ((roomCode f.frameSize).map .instr ++ valueGprs.map fun r => .instr (.push (.quad r))) := by
    simp [openFrame, roomCode]
  have hbase : track [.instr (.push (.quad .rbp)), .instr (.mov .quad (.quad .rsp) (.quad .rbp))] .entry =
    some ⟨16, some 16⟩ := rfl
  rw [hcode, X86.track_append hbase, X86.track_append hroom, X86.trace_append hbase, X86.trace_append hroom]
  refine ⟨hpushes, ?_⟩
  rw [savedSlots] at hnoSlots hslots ⊢
  rw [List.filterMap_append, List.filterMap_append, hnoSlots, hslots]
  rfl

end Opening

/-! ### Functions -/

/-- The lines that a function begins with, up to its label. -/
def headLines (f : Routine) : List Line :=
  [.directive (.globl f.name), .directive (.functionType f.name), .label f.name]

/-- The lines that a function ends with, from the label on where its `return`s meet. -/
def tailLines (f : Routine) : List Line :=
  .label (returnLabel f.name) :: (closeFrame.map .instr ++ [.directive (.functionSize f.name)])

/-- The lines that the prologue of a function appends after its label. -/
def Opens (s : Setting) (f : Typed.Function) (opening : List Line) : Prop :=
  ∃ e0 e1, exec (prologue f.routine f.parameters) s e0 = (.ok (), e1) ∧
    e1.text.toList = e0.text.toList ++ headLines f.routine ++ opening

/-- The code of a function from its label on keeps the stack in order: `opening` is its prologue, `body`
what follows up to the label where its `return`s meet. -/
structure Disciplined (f : Routine) (opening body : List Line) : Prop where
  /-- Reading from the top, the depth is known before every line. -/
  tracked : ∀ i, ∃ d, depthAt (opening ++ body ++ tailLines f) i = some d
  /-- Every jump is to one label of the function, and the depth there is the one it starts from. -/
  jumps : ∀ i l target, (opening ++ body ++ tailLines f)[i]? = some l → l.jump? = some target →
    ∃ j, Lands (opening ++ body ++ tailLines f) i target j ∧
      (∀ j', Lands (opening ++ body ++ tailLines f) i target j' → j' = j) ∧
      depthAt (opening ++ body ++ tailLines f) j = depthAt (opening ++ body ++ tailLines f) i
  /-- So every way to a line, over jumps or not, comes there at its depth. -/
  ways : ∀ i d, Walks (opening ++ body ++ tailLines f) (0, .entry) (i, d) →
    depthAt (opening ++ body ++ tailLines f) i = some d
  /-- A call is made at a multiple of sixteen, if the stack was at `sp` at the label. -/
  calls : ∀ (sp : Int) i name d, sp % 16 = 8 →
    (opening ++ body ++ tailLines f)[i]? = some (.instr (.call name)) →
    depthAt (opening ++ body ++ tailLines f) i = some d → 16 ∣ sp - (d.top - Depth.entry.top)
  /-- The prologue saves the frame pointer and the registers of the bank. -/
  saved : (savedSlots (trace opening .entry)).map Prod.fst = .quad .rbp :: valueGprs.map .quad
  /-- Where `return`s meet the stack is as after the prologue. -/
  level : ∃ d, track opening .entry = some d ∧ track body d = some d
  /-- There the registers are read back from the slots they were saved in, the last one first, and the
  place to return to is on top. -/
  restored : ∀ d, track opening .entry = some d →
    restoredSlots (trace (tailLines f) d) = (savedSlots (trace opening .entry)).reverse ∧
      (.instr .ret, .entry) ∈ trace (tailLines f) d

namespace FunctionCode

variable {s : Setting} {f : Typed.Function} {e0 e1 e2 e3 : Emitter}

theorem frameSize_lt (c : FunctionCode s f e0 e1 e2 e3) : f.routine.frameSize < 2 ^ 31 := by
  have hopening := c.opening
  rw [prologue] at hopening
  split at hopening
  · cases hopening
  · omega

/-- Parameters are stored without moving the stack, and nowhere but in their slots. -/
theorem stores_within (c : FunctionCode s f e0 e1 e2 e3) {R : X86.Places} (hpool : R.Pooled s.pool)
    (hps : ∀ p ∈ f.parameters, R.Admits p) : ∃ is : List Instr,
      (∀ i ∈ is, (Bounds.within R).Allows i) ∧ added (entered e0 f.routine) e1 = is.map .instr := by
  have hopening := c.opening
  rw [exec_prologue c.frameSize_lt] at hopening
  have hquiet : Still (.within R) (do
      let views ← Emit.ofExcept (f.parameters.mapM fun p => held p.type)
      let sources ← Emit.ofExcept (assignArguments views)
      storeParameters f.parameters sources) := by
    refine (still_ofExcept _).andThen fun views => ?_
    refine (still_ofExcept _).andThen fun sources => ?_
    exact quiet_storeParameters hps sources
  obtain ⟨-, -, is, his, htext, -, -⟩ := hquiet ⟨fun _ => False.elim, hpool⟩ hopening
  exact ⟨is, his, Emitter.added_of_text htext⟩

theorem stores (c : FunctionCode s f e0 e1 e2 e3) :
    ∃ is : List Instr, (∀ i ∈ is, i.isQuiet = true) ∧ added (entered e0 f.routine) e1 = is.map .instr := by
  obtain ⟨is, his, hadded⟩ := c.stores_within (X86.pooled_anywhere _) fun p _ => X86.admits_anywhere p
  exact ⟨is, fun i hi => (his i hi).quiet, hadded⟩

/-- The lines of the prologue after the label. -/
def prologueLines (f : Typed.Function) (e0 e1 : Emitter) : List Line :=
  (openFrame f.routine.frameSize).map .instr ++ added (entered e0 f.routine) e1

/-- The statements, and the result of a function whose end is reached. -/
def bodyLines (e1 e2 : Emitter) : List Line :=
  added e1 e2 ++ [.instr (.alu .xor .long (.reg (.long .rax)) (.reg (.long .rax)))]

theorem text_eq (c : FunctionCode s f e0 e1 e2 e3) :
    e3.text.toList = e0.text.toList ++ (headLines f.routine ++
      (prologueLines f e0 e1 ++ bodyLines e1 e2 ++ tailLines f.routine)) := by
  rw [c.text_closing, c.text_opening]
  simp [entryLines, exitLines, headLines, prologueLines, bodyLines, tailLines]

theorem opens (c : FunctionCode s f e0 e1 e2 e3) : Opens s f (prologueLines f e0 e1) := by
  refine ⟨e0, e1, c.opening, ?_⟩
  rw [c.text_opening]
  simp [entryLines, headLines, prologueLines]

/-- The prologue leads to the depth of the frame, with the registers in their slots. -/
theorem track_prologue (c : FunctionCode s f e0 e1 e2 e3) :
    track (prologueLines f e0 e1) .entry = some ⟨frameDepth f.routine, some 16⟩ ∧
      savedSlots (trace (prologueLines f e0 e1) .entry) =
        (.quad .rbp, 16) :: slotsBelow (objectDepth f.routine) := by
  obtain ⟨htrack, hslots⟩ := track_openFrame c.frameSize_lt
  obtain ⟨is, his, hadded⟩ := c.stores
  have hstores : track (is.map .instr) ⟨frameDepth f.routine, some 16⟩ =
      some ⟨frameDepth f.routine, some 16⟩ := by
    have hmoves := (X86.Moves.quiet his (fun _ => False) 0).track (frameDepth f.routine) (some 16)
    rwa [Int.add_zero] at hmoves
  rw [prologueLines, hadded, X86.track_append htrack, X86.trace_append htrack]
  refine ⟨hstores, ?_⟩
  have hnone := X86.savedSlots_quiet his ⟨frameDepth f.routine, some 16⟩
  rw [savedSlots] at hslots hnone ⊢
  rw [List.filterMap_append, hslots, hnone, List.append_nil]

theorem returnLabel_ne_unorderedLabel (name : String) : returnLabel name ≠ unorderedLabel := by
  intro heq
  have hlist := congrArg String.toList heq
  rw [toList_returnLabel] at hlist
  cases hlist

/-- The statements leave the stack where it was, and go to the objects that they mention. -/
theorem level_within (c : FunctionCode s f e0 e1 e2 e3) {R : X86.Places} (hpool : R.Pooled s.pool)
    (h : ∀ o ∈ Typed.stmtSymbols f.body, R.Admits o) :
    Level (.within R) (fun l => False ∨ l = returnLabel f.routine.name) e1 e2 := by
  refine levelsAt_stmts (fun st hst => ?_) (.inr rfl) hpool c.body
  exact balancedStmt f.routine st fun o ho => h o (Typed.mem_stmtSymbols.2 ⟨st, hst, ho⟩)

theorem level_body (c : FunctionCode s f e0 e1 e2 e3) :
    Level .anywhere (fun l => False ∨ l = returnLabel f.routine.name) e1 e2 :=
  c.level_within (X86.pooled_anywhere _) fun o _ => X86.admits_anywhere o

/-- The statements move the stack and back, and jump out only to where their `return`s meet. -/
theorem moves_body (c : FunctionCode s f e0 e1 e2 e3) :
    X86.Moves (fun l => False ∨ l = returnLabel f.routine.name) 0 0 (bodyLines e1 e2) := by
  have hpushed : e1.pushed = 0 := c.holding_opening.pushed
  have hmoves := c.level_body.moves
  rw [c.level_body.pushed, hpushed] at hmoves
  exact hmoves.append (moves_quiet (fun _ => False) 0 rfl) (Int.min_le_left 0 0) fun _ => False.elim

/-- The labels of statements are numbered, and the one where `return`s meet is not. -/
theorem unique_body (c : FunctionCode s f e0 e1 e2 e3) :
    (X86.labelNames (bodyLines e1 e2 ++ [.label (returnLabel f.routine.name)])).Nodup := by
  have hnames : X86.labelNames (bodyLines e1 e2) = X86.labelNames (added e1 e2) := by
    rw [bodyLines, X86.labelNames_append]
    exact List.append_nil _
  rw [X86.labelNames_append, X86.labelNames_single (returnLabel_ne_unorderedLabel _), hnames]
  refine List.nodup_append.mpr ⟨c.level_body.unique, List.pairwise_singleton _ _, ?_⟩
  rintro name hname _ hlabel rfl
  obtain rfl := List.mem_singleton.mp hlabel
  obtain ⟨hmem, hne⟩ := X86.mem_labelNames.1 hname
  have hbetween := (c.level_body.grows.labelled _ hmem).resolve_left hne
  exact LabelCounter.not_from_returnLabel _ _ hbetween.from

theorem framed (c : FunctionCode s f e0 e1 e2 e3) :
    Framed (prologueLines f e0 e1) (bodyLines e1 e2 ++ [.label (returnLabel f.routine.name)])
      (closeFrame.map .instr ++ [.directive (.functionSize f.routine.name)])
      (frameDepth f.routine) (some 16) := by
  have hmoves := c.moves_body.upTo (returnLabel_ne_unorderedLabel _)
  refine ⟨c.track_prologue.1, sixteen_dvd_frameDepth f.routine, hmoves, c.unique_body, ?_, ?_⟩
  · rw [frameDepth, X86.track_append (track_closeFrame _).1]
    rfl
  · obtain ⟨is, his, hadded⟩ := c.stores
    have hopen : ∀ i ∈ openFrame f.routine.frameSize, (Line.instr i).isStraight = true :=
      forall_openFrame (P := fun i => (Line.instr i).isStraight = true) (fun _ => rfl) rfl (fun _ => rfl) _
    intro l hl
    rw [prologueLines, hadded] at hl
    simp only [List.mem_append, List.mem_map, List.mem_singleton] at hl
    rcases hl with (⟨i, hi, rfl⟩ | ⟨i, hi, rfl⟩) | ⟨i, hi, rfl⟩ | rfl
    · exact hopen i hi
    · exact Line.isStraight_of_isQuiet (his i hi)
    · have hclose : ∀ i ∈ closeFrame, (Line.instr i).isStraight = true := by decide
      exact hclose i hi
    · rfl

/-- The code of a function keeps the stack in order. -/
theorem disciplined (c : FunctionCode s f e0 e1 e2 e3) :
    Disciplined f.routine (prologueLines f e0 e1) (bodyLines e1 e2) := by
  have hframed := c.framed
  obtain ⟨hopens, hsaved⟩ := c.track_prologue
  obtain ⟨hcloses, hrestored, hreturns⟩ := track_closeFrame (objectDepth f.routine)
  -- the label where `return`s meet ends the body, so that what is left has no labels
  have hcode : prologueLines f e0 e1 ++ bodyLines e1 e2 ++ tailLines f.routine =
      prologueLines f e0 e1 ++ (bodyLines e1 e2 ++ [.label (returnLabel f.routine.name)]) ++
        (closeFrame.map .instr ++ [.directive (.functionSize f.routine.name)]) := by
    simp [tailLines]
  refine ⟨fun i => ?_, fun i l target hi hjump => ?_, fun i d hwalks => ?_, ?_, ?_, ?_, fun d hd => ?_⟩
  · rw [hcode]
    exact hframed.tracked i
  · rw [hcode] at hi ⊢
    exact hframed.lands hi hjump
  · rw [hcode] at hwalks ⊢
    refine X86.depth_of_walks (fun i j l target hi hjump hlands => ?_) hwalks
    obtain ⟨j', -, hunique, hdepth⟩ := hframed.lands hi hjump
    rw [hunique j hlands, hdepth]
  · intro sp i name d hsp hi hd
    rw [hcode] at hi hd
    have haligned := hframed.call_aligned hi hd
    show 16 ∣ sp - (d.top - 8)
    omega
  · rw [hsaved]
    rfl
  · refine ⟨_, hopens, ?_⟩
    have hbody := c.moves_body.track (frameDepth f.routine) (some 16)
    rwa [Int.add_zero] at hbody
  · cases hopens.symm.trans hd
    have hclosing : trace (closeFrame.map .instr ++ [.directive (.functionSize f.routine.name)])
        ⟨frameDepth f.routine, some 16⟩ = trace (closeFrame.map .instr) ⟨frameDepth f.routine, some 16⟩ ++
          [(.directive (.functionSize f.routine.name), .entry)] :=
      X86.trace_append hcloses
    have htail : trace (tailLines f.routine) ⟨frameDepth f.routine, some 16⟩ =
        (.label (returnLabel f.routine.name), ⟨frameDepth f.routine, some 16⟩) ::
          (trace (closeFrame.map .instr) ⟨frameDepth f.routine, some 16⟩ ++
            [(.directive (.functionSize f.routine.name), .entry)]) := by
      rw [← hclosing]
      rfl
    rw [htail, hsaved]
    constructor
    · rw [restoredSlots, List.filterMap_cons, List.filterMap_append]
      rw [restoredSlots] at hrestored
      show List.filterMap _ (trace _ ⟨objectDepth f.routine + 32, some 16⟩) ++ [] = _
      rw [hrestored, List.append_nil, List.reverse_cons]
    · exact List.mem_cons_of_mem _ (List.mem_append_left _ hreturns)

end FunctionCode

/-! ### Programs -/

/-- The lines of functions, one after the other, given the two parts of each. -/
def functionLines (fs : List Typed.Function) (parts : List (List Line × List Line)) : List Line :=
  (List.zipWith (fun f part => headLines f.routine ++ (part.1 ++ part.2 ++ tailLines f.routine)) fs
    parts).flatten

theorem disciplined_of_functions {s : Setting} {fs : List Typed.Function} {e e' : Emitter} (h : e.Idle)
    (hperform : perform (functions fs) s e = (.ok (), e')) :
    ∃ parts, e'.text.toList = e.text.toList ++ functionLines fs parts ∧
      List.Forall₂ (fun f part => Opens s f part.1 ∧ Disciplined f.routine part.1 part.2) fs parts := by
  induction fs generalizing e with
  | nil =>
    cases hperform
    exact ⟨[], (List.append_nil _).symm, .nil⟩
  | cons f fs ih =>
    rw [functions] at hperform
    obtain ⟨_, e3, h1, h2⟩ := perform_bind_eq_ok hperform
    obtain ⟨e1, e2, c⟩ := functionCode_of_perform h h1
    obtain ⟨parts, htext, hparts⟩ := ih c.filled.idle h2
    refine ⟨(FunctionCode.prologueLines f e e1, FunctionCode.bodyLines e1 e2) :: parts, ?_,
      .cons ⟨c.opens, c.disciplined⟩ hparts⟩
    rw [htext, c.text_eq, List.append_assoc]
    rfl

/-- In a file that was generated, every function keeps the stack in order. -/
theorem program_disciplined {s : Setting} {p : Typed.Program} {file : String}
    (h : generate s p = .ok file) :
    ∃ data parts, file = X86.listing (data ++ .directive .text ::
        (functionLines p.functions parts ++ [.directive .plainStack])) ∧
      List.Forall₂ (fun f part => Opens s f part.1 ∧ Disciplined f.routine part.1 part.2) p.functions
        parts := by
  obtain ⟨final, hprogram, rfl⟩ := perform_of_generate h
  obtain ⟨_, _, _, hrun⟩ := fileRun_of_perform hprogram
  obtain ⟨parts, hlines, hparts⟩ := disciplined_of_functions hrun.idle hrun.functions
  refine ⟨final.data.toList, parts, ?_, hparts⟩
  rw [Emitter.output, hrun.text, Array.toList_push, hlines, hrun.begun]
  rfl

/-- `f(n, x)` -/
def innerCall : Typed.Expr :=
  .call "f" [.load (.object ⟨"n", .long, .frame (-8)⟩), .load (.object ⟨"x", .float, .frame (-16)⟩)] .long

/-- `long f(long n, float x) { while (x < x) return f(n && f(n, x), x + f(n, x)); }` -/
def nestedCalls : Typed.Function where
  routine := ⟨"f", .long, [.long, .float], 16⟩
  parameters := [⟨"n", .long, .frame (-8)⟩, ⟨"x", .float, .frame (-16)⟩]
  body :=
    [.whileLoop
      (.binary .less (.load (.object ⟨"x", .float, .frame (-16)⟩))
        (.load (.object ⟨"x", .float, .frame (-16)⟩)) .long)
      (.ret (some (.call "f"
        [.logical .logicalAnd (.load (.object ⟨"n", .long, .frame (-8)⟩)) innerCall,
          .binary .add (.load (.object ⟨"x", .float, .frame (-16)⟩)) (.convert innerCall .long .float)
            .float] .long)) .unknown)
      .unknown]
  place := .unknown

/-- Calls inside the arguments of a call, behind an operator that may end early and with a float to be
saved, in a loop that a comparison of floats decides. -/
theorem nestedCalls_disciplined :
    ∃ file data opening body, generate ⟨{}, true⟩ ⟨[], [nestedCalls]⟩ = .ok file ∧
      file = X86.listing (data ++ .directive .text ::
        (functionLines [nestedCalls] [(opening, body)] ++ [.directive .plainStack])) ∧
      Opens ⟨{}, true⟩ nestedCalls opening ∧ Disciplined nestedCalls.routine opening body := by
  have hgenerate : (generate ⟨{}, true⟩ ⟨[], [nestedCalls]⟩).isOk = true := by decide +kernel
  obtain ⟨file, hfile⟩ : ∃ file, generate ⟨{}, true⟩ ⟨[], [nestedCalls]⟩ = .ok file := by
    revert hgenerate
    cases generate ⟨{}, true⟩ ⟨[], [nestedCalls]⟩ with
    | error e => exact nofun
    | ok file => exact fun _ => ⟨file, rfl⟩
  obtain ⟨data, parts, hlines, hparts⟩ := program_disciplined hfile
  cases hparts with
  | cons hpart hrest =>
    cases hrest
    exact ⟨file, data, _, _, hfile, hlines, hpart.1, hpart.2⟩

end MiniC.Lower
