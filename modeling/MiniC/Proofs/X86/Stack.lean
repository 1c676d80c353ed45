import MiniC.Emit.Compare
import Mathlib

/-!
# Where the stack pointer is

The stack pointer is moved by pushes and pops and by adding and subtracting constants, and the frame
pointer is a copy of it. So how far both are below the place where the stack was before a function was
called can be read off its code (`Instr.track`). An instruction that moves one of them in another way has
no depth after it.

`trace` gives the lines of a code with the depth before each, reading it from top to bottom. What is read
so is true of every way through the code if jumps and the labels they land on are at one depth
(`depth_of_walks`).
-/

set_option autoImplicit false

namespace MiniC.X86

/-- How many bytes the stack and the frame pointer are below where the stack was before the function was
called. -/
structure Depth where
  top : Int
  /-- The frame pointer, once it is the function's own. -/
  base : Option Int
deriving DecidableEq, Repr

/-- At the label of a function there is one word more on the stack, where to return to. -/
def Depth.entry : Depth := ⟨8, none⟩

/-! ### Instructions -/

/-- A register that has nothing to do with the stack, or no register. -/
def Operand.isFree : Operand → Bool
  | .reg (.gpr .rsp _) => false
  | .reg (.gpr .rbp _) => false
  | _ => true

/-- Instructions that write no more than an operand which has nothing to do with the stack, and after
which the next line follows. -/
def Instr.isQuiet : Instr → Bool
  | .mov _ _ dst => dst.isFree
  | .movAbs _ dst => dst.isFree
  | .movZero _ _ _ dst => dst.isFree
  | .movSign _ _ _ dst => dst.isFree
  | .lea _ dst => dst.isFree
  | .alu _ _ _ dst => dst.isFree
  | .shl _ _ dst => dst.isFree
  | .sar _ _ dst => dst.isFree
  | .neg _ dst => dst.isFree
  | .not _ dst => dst.isFree
  | .inc _ dst => dst.isFree
  | .dec _ dst => dst.isFree
  | .idiv _ _ => true
  | .cqo => true
  | .set _ dst => dst.isFree
  | .sse _ _ dst => dst.isFree
  | .cvtsi2sd _ _ dst => dst.isFree
  | .cvttsd2si _ _ dst => dst.isFree
  | .push _ | .pop _ | .jmp _ | .jcc _ _ | .call _ | .leave | .ret => false

/-- The depth after an instruction. A function that is called leaves both pointers as they were. -/
def Instr.track (i : Instr) (d : Depth) : Option Depth :=
  match i with
  | .push _ => some { d with top := d.top + 8 }
  | .pop dst => if dst.isFree then some { d with top := d.top - 8 } else none
  | .alu .sub .quad (.imm v) (.reg (.gpr .rsp .quad)) => some { d with top := d.top + v.toInt }
  | .alu .add .quad (.imm v) (.reg (.gpr .rsp .quad)) => some { d with top := d.top - v.toInt }
  | .mov .quad (.reg (.gpr .rsp .quad)) (.reg (.gpr .rbp .quad)) => some { d with base := some d.top }
  | .leave => d.base.map fun base => ⟨base - 8, none⟩
  | .jmp _ | .jcc _ _ | .call _ | .ret => some d
  | i => if i.isQuiet then some d else none

@[simp] theorem track_push (src : Operand) (d : Depth) :
    (Instr.push src).track d = some { d with top := d.top + 8 } := rfl

@[simp] theorem track_pop (dst : Operand) (d : Depth) :
    (Instr.pop dst).track d = if dst.isFree then some { d with top := d.top - 8 } else none := rfl

@[simp] theorem track_leave (d : Depth) : Instr.leave.track d = d.base.map fun base => ⟨base - 8, none⟩ :=
  rfl

@[simp] theorem track_ret (d : Depth) : Instr.ret.track d = some d := rfl

@[simp] theorem track_jcc (cond : Cond) (label : String) (d : Depth) :
    (Instr.jcc cond label).track d = some d := rfl

/-- A move tracks the frame pointer only if it is the copy of the stack pointer, which is not quiet. -/
theorem track_mov {w : Width} {src dst : Operand} (h : dst.isFree = true) (d : Depth) :
    (Instr.mov w src dst).track d = some d := by
  cases w <;> try exact if_pos h
  rcases src with (⟨g, w⟩ | _) | _ | _ <;> try exact if_pos h
  cases g <;> try exact if_pos h
  cases w <;> try exact if_pos h
  rcases dst with (⟨g, w⟩ | _) | _ | _ <;> try rfl
  cases g <;> cases w <;> first | rfl | cases h

/-- An operation on constants tracks the stack pointer only if it changes it, which is not quiet. -/
theorem track_alu {op : Alu} {w : Width} {src dst : Operand} (h : dst.isFree = true) (d : Depth) :
    (Instr.alu op w src dst).track d = some d := by
  cases op <;> try exact if_pos h
  all_goals
    cases w <;> try exact if_pos h
    cases src <;> try exact if_pos h
    rcases dst with (⟨g, w⟩ | _) | _ | _ <;> try rfl
    cases g <;> cases w <;> first | rfl | cases h

theorem track_of_isQuiet {i : Instr} (h : i.isQuiet = true) (d : Depth) : i.track d = some d := by
  cases i with
  | mov w src dst => exact track_mov h d
  | alu op w src dst => exact track_alu h d
  | push _ | pop _ | jmp _ | jcc _ _ | call _ | leave | ret => cases h
  | idiv _ _ | cqo => rfl
  | _ => exact if_pos h

/-! ### Lines -/

/-- The depth after a line. -/
def Line.track : Line → Depth → Option Depth
  | .instr i, d => i.track d
  | _, d => some d

/-- The label that a line may jump to. -/
def Line.jump? : Line → Option String
  | .instr (.jmp target) => some target
  | .instr (.jcc _ target) => some target
  | _ => none

/-- Whether the next line may follow. -/
def Line.falls : Line → Bool
  | .instr (.jmp _) => false
  | .instr .ret => false
  | _ => true

theorem Line.track_of_jump? {l : Line} {target : String} (h : l.jump? = some target) (d : Depth) :
    l.track d = some d := by
  unfold Line.jump? at h
  split at h
  · rfl
  · rfl
  · cases h

/-- The depth after some lines. -/
def track : List Line → Depth → Option Depth
  | [], d => some d
  | l :: ls, d => (l.track d).bind (track ls)

/-- The lines with the depth before each. -/
def trace : List Line → Depth → List (Line × Depth)
  | [], _ => []
  | l :: ls, d => (l, d) :: ((l.track d).map (trace ls)).getD []

section Lines

variable {ls ls' : List Line} {l : Line} {d d' d1 : Depth}

theorem track_append (h : track ls d = some d') : track (ls ++ ls') d = track ls' d' := by
  induction ls generalizing d with
  | nil =>
    cases h
    rfl
  | cons l ls ih =>
    obtain ⟨d1, hl, hls⟩ := Option.bind_eq_some_iff.mp h
    rw [List.cons_append, track, hl]
    exact ih hls

theorem trace_append (h : track ls d = some d') : trace (ls ++ ls') d = trace ls d ++ trace ls' d' := by
  induction ls generalizing d with
  | nil =>
    cases h
    rfl
  | cons l ls ih =>
    obtain ⟨d1, hl, hls⟩ := Option.bind_eq_some_iff.mp h
    rw [List.cons_append, trace, trace, hl, Option.map_some, Option.map_some, Option.getD_some,
      Option.getD_some, ih hls, List.cons_append]

theorem mem_trace_iff :
    (l, d1) ∈ trace ls d ↔ ∃ i, ls[i]? = some l ∧ track (ls.take i) d = some d1 := by
  induction ls generalizing d with
  | nil => simp [trace]
  | cons first ls ih =>
    rw [trace, List.mem_cons]
    constructor
    · rintro (h | h)
      · cases h
        exact ⟨0, rfl, rfl⟩
      · cases hfirst : first.track d with
        | none =>
          rw [hfirst] at h
          cases h
        | some d2 =>
          rw [hfirst] at h
          obtain ⟨i, hi, htrack⟩ := ih.mp h
          exact ⟨i + 1, hi, by rw [List.take_succ_cons, track, hfirst]; exact htrack⟩
    · rintro ⟨i, hi, htrack⟩
      cases i with
      | zero =>
        cases hi
        cases htrack
        exact .inl rfl
      | succ i =>
        obtain ⟨d2, hfirst, htrack⟩ := Option.bind_eq_some_iff.mp htrack
        rw [hfirst]
        exact .inr (ih.mpr ⟨i, hi, htrack⟩)

theorem track_take_succ {i : Nat} (hl : ls[i]? = some l) (h : track (ls.take i) d = some d1) :
    track (ls.take (i + 1)) d = l.track d1 := by
  rw [List.take_add_one, hl, track_append h]
  show (l.track d1).bind some = _
  rw [Option.bind_fun_some]

end Lines

/-! ### Ways through code -/

/-- Where a jump from a line lands: on the label, or, if it is the local one, on the next such label
below the line. -/
def Lands (code : List Line) (i : Nat) (target : String) (j : Nat) : Prop :=
  if target = Emit.unorderedTarget then
    i < j ∧ code[j]? = some (.label Emit.unorderedLabel) ∧
      ∀ k, i < k → k < j → code[k]? ≠ some (.label Emit.unorderedLabel)
  else code[j]? = some (.label target)

/-- From a line to the next one or to where it jumps, keeping track of the depth. -/
inductive Passes (code : List Line) : Nat × Depth → Nat × Depth → Prop
  | next {i : Nat} {l : Line} {d d' : Depth} (hl : code[i]? = some l) (hfalls : l.falls = true)
    (hd : l.track d = some d') : Passes code (i, d) (i + 1, d')
  | jump {i j : Nat} {l : Line} {d : Depth} {target : String} (hl : code[i]? = some l)
    (hjump : l.jump? = some target) (hlands : Lands code i target j) : Passes code (i, d) (j, d)

/-- Any number of lines. -/
abbrev Walks (code : List Line) : Nat × Depth → Nat × Depth → Prop :=
  Relation.ReflTransGen (Passes code)

/-- The depth before a line, reading from the top. -/
def depthAt (code : List Line) (i : Nat) : Option Depth := track (code.take i) .entry

/-- If jumps land at the depth that they start from, then every way to a line comes at its depth. -/
theorem depth_of_walks {code : List Line}
    (hjumps : ∀ i j l target, code[i]? = some l → l.jump? = some target → Lands code i target j →
      depthAt code j = depthAt code i) {i : Nat} {d : Depth} (h : Walks code (0, .entry) (i, d)) :
    depthAt code i = some d := by
  generalize hlast : (i, d) = last at h
  induction h generalizing i d with
  | refl =>
    cases hlast
    rfl
  | tail _ hpasses ih =>
    cases hlast
    cases hpasses with
    | next hl _ hd => rw [depthAt, track_take_succ hl (ih rfl), hd]
    | jump hl hjump hlands => rw [hjumps _ _ _ _ hl hjump hlands, ih rfl]

/-! ### Code that moves the stack -/

/-- A jump to the local label goes past one line that is a jump itself. -/
def Local (ls : List Line) : Prop :=
  ∀ i l, ls[i]? = some l → l.jump? = some Emit.unorderedTarget →
    (∃ l' target, ls[i + 1]? = some l' ∧ l'.jump? = some target) ∧
      ls[i + 2]? = some (.label Emit.unorderedLabel)

theorem Local.append {ls ls' : List Line} (h : Local ls) (h' : Local ls') : Local (ls ++ ls') := by
  intro i l hl hjump
  by_cases hi : i < ls.length
  · rw [List.getElem?_append_left hi] at hl
    obtain ⟨⟨l', target, hl', hjump'⟩, hlabel⟩ := h i l hl hjump
    have hlen := (List.getElem?_eq_some_iff.mp hlabel).1
    exact ⟨⟨l', target, by rw [List.getElem?_append_left (by omega), hl'], hjump'⟩,
      by rw [List.getElem?_append_left hlen, hlabel]⟩
  · have hi' : ls.length ≤ i := Nat.le_of_not_lt hi
    rw [List.getElem?_append_right hi'] at hl
    obtain ⟨⟨l', target, hl', hjump'⟩, hlabel⟩ := h' _ l hl hjump
    refine ⟨⟨l', target, ?_, hjump'⟩, ?_⟩
    · rw [List.getElem?_append_right (by omega), show i + 1 - ls.length = i - ls.length + 1 by omega]
      exact hl'
    · rw [List.getElem?_append_right (by omega), show i + 2 - ls.length = i - ls.length + 2 by omega]
      exact hlabel

/-- Such a jump lands past the other one, where the depth is the same. -/
theorem Local.lands {code : List Line} (h : Local code) {i : Nat} {l : Line} (hi : code[i]? = some l)
    (hjump : l.jump? = some Emit.unorderedTarget) :
    (∀ j, Lands code i Emit.unorderedTarget j ↔ j = i + 2) ∧
      ∀ d d1, track (code.take i) d = some d1 → track (code.take (i + 2)) d = some d1 := by
  obtain ⟨⟨l', target', hi', hjump'⟩, hlabel⟩ := h i l hi hjump
  have hnext : code[i + 1]? ≠ some (.label Emit.unorderedLabel) := by
    intro heq
    cases hi'.symm.trans heq
    cases hjump'
  refine ⟨fun j => ?_, fun d d1 hd => ?_⟩
  · rw [Lands, if_pos rfl]
    constructor
    · rintro ⟨hlt, hj, hbetween⟩
      -- not at the jump below, and not past the label either
      rcases Nat.lt_trichotomy j (i + 2) with hearlier | heq | hlater
      · obtain rfl : j = i + 1 := by omega
        exact absurd hj hnext
      · exact heq
      · exact absurd hlabel (hbetween (i + 2) (by omega) hlater)
    · rintro rfl
      refine ⟨by omega, hlabel, fun k hk hk' => ?_⟩
      obtain rfl : k = i + 1 := by omega
      exact hnext
  · have hd1 : track (code.take (i + 1)) d = some d1 := by
      rw [track_take_succ hi hd, Line.track_of_jump? hjump]
    rw [track_take_succ hi' hd1, Line.track_of_jump? hjump']

theorem local_of_forall {ls : List Line} (h : ∀ l ∈ ls, l.jump? ≠ some Emit.unorderedTarget) :
    Local ls :=
  fun _ l hl hjump => absurd hjump (h l (List.mem_of_getElem? hl))

/-- Lines that take the stack from `a` bytes to `b` bytes below some frame: wherever the frame is, the
stack is as far below it after them, their jumps are to labels of theirs at the same depth or from the
depth of their start to labels outside, and if the frame is aligned, so is every call. On the way the stack is
never above both its start and its end, and the frame pointer does not move. The local label may stand in many
places; only the jumps that go past one line are to it. -/
structure Moves (outside : String → Prop) (a b : Int) (ls : List Line) : Prop where
  track : ∀ frame base, track ls ⟨frame + a, base⟩ = some ⟨frame + b, base⟩
  jumps : ∀ frame base l d target, (l, d) ∈ trace ls ⟨frame + a, base⟩ → l.jump? = some target →
    target ≠ Emit.unorderedTarget →
    (target ≠ Emit.unorderedLabel ∧ (.label target, d) ∈ trace ls ⟨frame + a, base⟩) ∨
      (outside target ∧ d = ⟨frame + a, base⟩)
  calls : ∀ frame base name d, 16 ∣ frame → (.instr (.call name), d) ∈ trace ls ⟨frame + a, base⟩ →
    16 ∣ d.top
  low : ∀ frame base l d, (l, d) ∈ trace ls ⟨frame + a, base⟩ → d.base = base ∧ frame + min a b ≤ d.top
  unordered : Local ls

namespace Moves

variable {outside outside' : String → Prop} {a b c : Int} {ls ls' : List Line}

theorem mono (h : Moves outside a b ls) (himp : ∀ l, outside l → outside' l) : Moves outside' a b ls where
  track := h.track
  jumps frame base l d target hmem hjump hne :=
    (h.jumps frame base l d target hmem hjump hne).imp_right fun ⟨ho, hd⟩ => ⟨himp _ ho, hd⟩
  calls := h.calls
  low := h.low
  unordered := h.unordered

/-- One stretch of code after another. Jumps out of the second are at the depth of its start, so this has
to be that of the first as well. -/
theorem append (h : Moves outside a b ls) (h' : Moves outside' b c ls') (hlow : min a c ≤ b)
    (hout : ∀ l, outside' l → outside l ∧ a = b) : Moves outside a c (ls ++ ls') where
  track frame base := by rw [track_append (h.track frame base), h'.track]
  jumps frame base l d target hmem hjump hne := by
    rw [trace_append (h.track frame base)] at hmem ⊢
    rcases List.mem_append.mp hmem with hmem | hmem
    · rcases h.jumps frame base l d target hmem hjump hne with ⟨hlocal, hlabel⟩ | hoffside
      · exact .inl ⟨hlocal, List.mem_append_left _ hlabel⟩
      · exact .inr hoffside
    · rcases h'.jumps frame base l d target hmem hjump hne with ⟨hlocal, hlabel⟩ | ⟨ho, rfl⟩
      · exact .inl ⟨hlocal, List.mem_append_right _ hlabel⟩
      · obtain ⟨ho, rfl⟩ := hout _ ho
        exact .inr ⟨ho, rfl⟩
  calls frame base name d haligned hmem := by
    rw [trace_append (h.track frame base)] at hmem
    rcases List.mem_append.mp hmem with hmem | hmem
    · exact h.calls frame base name d haligned hmem
    · exact h'.calls frame base name d haligned hmem
  low frame base l d hmem := by
    rw [trace_append (h.track frame base)] at hmem
    rcases List.mem_append.mp hmem with hmem | hmem
    · obtain ⟨hbase, hd⟩ := h.low frame base l d hmem
      exact ⟨hbase, by omega⟩
    · obtain ⟨hbase, hd⟩ := h'.low frame base l d hmem
      exact ⟨hbase, by omega⟩
  unordered := h.unordered.append h'.unordered

/-- A label that is defined at the depth of the start is no longer outside. -/
theorem resolve {target : String} (h : Moves (fun l => outside l ∨ l = target) a b ls)
    (hlocal : target ≠ Emit.unorderedLabel)
    (hlabel : ∀ frame base, (.label target, ⟨frame + a, base⟩) ∈ trace ls ⟨frame + a, base⟩) :
    Moves outside a b ls where
  track := h.track
  jumps frame base l d target' hmem hjump hne := by
    rcases h.jumps frame base l d target' hmem hjump hne with hinside | ⟨ho | rfl, rfl⟩
    · exact .inl hinside
    · exact .inr ⟨ho, rfl⟩
    · exact .inl ⟨hlocal, hlabel frame base⟩
  calls := h.calls
  low := h.low
  unordered := h.unordered

theorem nil (outside : String → Prop) (a : Int) : Moves outside a a [] where
  track _ _ := rfl
  jumps _ _ _ _ _ hmem := absurd hmem List.not_mem_nil
  calls _ _ _ _ _ hmem := absurd hmem List.not_mem_nil
  low _ _ _ _ hmem := absurd hmem List.not_mem_nil
  unordered := local_of_forall fun _ hl => absurd hl List.not_mem_nil

/-- One line: where it leaves the stack, what it jumps to, and whether a call is aligned. -/
theorem single {l : Line}
    (htrack : ∀ frame base, l.track ⟨frame + a, base⟩ = some ⟨frame + b, base⟩)
    (hjump : ∀ target, l.jump? = some target → outside target ∧ target ≠ Emit.unorderedTarget)
    (hcall : ∀ name, l = .instr (.call name) → 16 ∣ a) : Moves outside a b [l] := by
  have htrace : ∀ frame base, trace [l] ⟨frame + a, base⟩ = [(l, ⟨frame + a, base⟩)] := by
    intro frame base
    rw [trace, htrack]
    rfl
  refine ⟨fun frame base => ?_, fun frame base l' d target hmem htarget _ => ?_,
    fun frame base name d hframe hmem => ?_, fun frame base l' d hmem => ?_,
    local_of_forall fun l' hl' htarget => ?_⟩
  · show (l.track _).bind _ = _
    rw [htrack]
    rfl
  · rw [htrace] at hmem
    cases List.mem_singleton.mp hmem
    exact .inr ⟨(hjump target htarget).1, rfl⟩
  · rw [htrace] at hmem
    cases List.mem_singleton.mp hmem
    exact Int.dvd_add hframe (hcall name rfl)
  · rw [htrace] at hmem
    cases List.mem_singleton.mp hmem
    exact ⟨rfl, Int.add_le_add_left (Int.min_le_left a b) frame⟩
  · rw [List.mem_singleton.mp hl'] at htarget
    exact (hjump _ htarget).2 rfl

theorem label (outside : String → Prop) (a : Int) (name : String) : Moves outside a a [.label name] :=
  single (fun _ _ => rfl) (fun _ => nofun) fun _ => nofun

theorem upTo {name : String} (h : Moves (fun l => outside l ∨ l = name) a a ls)
    (hlocal : name ≠ Emit.unorderedLabel) : Moves outside a a (ls ++ [.label name]) := by
  refine (h.append (label _ _ name) (Int.min_le_left a a) fun l ho => ⟨ho, rfl⟩).resolve hlocal fun frame base => ?_
  rw [trace_append (h.track frame base)]
  exact List.mem_append_right _ List.mem_cons_self

theorem quiet {is : List Instr} (h : ∀ i ∈ is, i.isQuiet = true) (outside : String → Prop) (a : Int) :
    Moves outside a a (is.map .instr) := by
  induction is with
  | nil => exact nil _ _
  | cons i is ih =>
    have hi : i.isQuiet = true := h i List.mem_cons_self
    have hjump : (Line.instr i).jump? = none := by
      cases i <;> first | rfl | cases hi
    have hfirst : Moves outside a a [.instr i] := by
      refine single (fun _ _ => track_of_isQuiet hi _) (fun target htarget => ?_) fun name heq => ?_
      · rw [hjump] at htarget
        cases htarget
      · cases heq
        cases hi
    exact hfirst.append (ih fun i' hi' => h i' (List.mem_cons_of_mem _ hi')) (Int.min_le_left a a) fun l ho =>
      ⟨ho, rfl⟩

theorem jump {l : Line} {target : String} (hjump : l.jump? = some target) (ho : outside target)
    (hne : target ≠ Emit.unorderedTarget) (a : Int) : Moves outside a a [l] := by
  refine single (fun _ _ => Line.track_of_jump? hjump _) (fun target' htarget => ?_) fun name heq => ?_
  · cases hjump.symm.trans htarget
    exact ⟨ho, hne⟩
  · subst heq
    cases hjump

/-- An instruction that takes the stack from one depth to another, and neither jumps nor calls. -/
theorem shift {i : Instr} (hjump : (Line.instr i).jump? = none) (hcall : ∀ name, i ≠ .call name)
    (htrack : ∀ frame base, i.track ⟨frame + a, base⟩ = some ⟨frame + b, base⟩) :
    Moves outside a b [.instr i] := by
  refine single htrack (fun target htarget => ?_) fun name heq => ?_
  · rw [hjump] at htarget
    cases htarget
  · cases heq
    exact absurd rfl (hcall name)

theorem call (outside : String → Prop) (name : String) (h : 16 ∣ a) :
    Moves outside a a [.instr (.call name)] :=
  single (fun _ _ => rfl) (fun _ => nofun) fun _ _ => h

end Moves

/-! ### Labels that are defined once -/

/-- The labels that lines define, except the local one. -/
def labelNames (ls : List Line) : List String :=
  ls.filterMap fun
    | .label name => if name = Emit.unorderedLabel then none else some name
    | _ => none

theorem labelNames_append (ls ls' : List Line) :
    labelNames (ls ++ ls') = labelNames ls ++ labelNames ls' :=
  List.filterMap_append

theorem mem_labelNames {ls : List Line} {name : String} :
    name ∈ labelNames ls ↔ Line.label name ∈ ls ∧ name ≠ Emit.unorderedLabel := by
  rw [labelNames, List.mem_filterMap]
  constructor
  · rintro ⟨l, hl, hname⟩
    cases l with
    | label n =>
      dsimp only at hname
      split at hname
      · cases hname
      · rename_i hne
        cases hname
        exact ⟨hl, hne⟩
    | _ => cases hname
  · rintro ⟨hl, hne⟩
    exact ⟨_, hl, if_neg hne⟩

theorem labelNames_instrs (is : List Instr) : labelNames (is.map .instr) = [] := by
  induction is with
  | nil => rfl
  | cons i is ih => exact ih

theorem labelNames_single {name : String} (h : name ≠ Emit.unorderedLabel) :
    labelNames [.label name] = [name] := by
  simp [labelNames, h]

theorem unique_of_nodup {ls : List Line} (h : (labelNames ls).Nodup) {i j : Nat} {name : String}
    (hi : ls[i]? = some (.label name)) (hj : ls[j]? = some (.label name))
    (hne : name ≠ Emit.unorderedLabel) : i = j := by
  -- of two places the lower one is before the other: cut the lines there
  have hlt : ∀ {i j : Nat}, ls[i]? = some (.label name) → ls[j]? = some (.label name) → ¬ i < j := by
    intro i j hi hj hlt
    have hsplit : ls = ls.take j ++ ls.drop j := (List.take_append_drop j ls).symm
    rw [hsplit, labelNames_append] at h
    have hfirst : name ∈ labelNames (ls.take j) := by
      refine mem_labelNames.2 ⟨List.mem_of_getElem? (i := i) ?_, hne⟩
      rw [List.getElem?_take_of_lt hlt, hi]
    have hsecond : name ∈ labelNames (ls.drop j) := by
      refine mem_labelNames.2 ⟨List.mem_of_getElem? (i := 0) ?_, hne⟩
      rw [List.getElem?_drop, Nat.add_zero, hj]
    exact (List.nodup_append.mp h).2.2 name hfirst name hsecond rfl
  rcases Nat.lt_trichotomy i j with h' | h' | h'
  · exact absurd h' (hlt hi hj)
  · exact h'
  · exact absurd h' (hlt hj hi)

/-! ### Code with a frame -/

/-- A line that neither jumps nor calls, and defines no label. -/
def Line.isStraight : Line → Bool
  | .instr (.jmp _) => false
  | .instr (.jcc _ _) => false
  | .instr (.call _) => false
  | .label _ => false
  | _ => true

theorem Line.jump?_of_isStraight {l : Line} (h : l.isStraight = true) : l.jump? = none := by
  unfold Line.jump?
  split <;> first | rfl | cases h

theorem Line.isStraight_of_isQuiet {i : Instr} (h : i.isQuiet = true) : (Line.instr i).isStraight = true := by
  cases i <;> first | rfl | cases h

theorem labelNames_of_isStraight {ls : List Line} (h : ∀ l ∈ ls, l.isStraight = true) :
    labelNames ls = [] := by
  refine List.eq_nil_iff_forall_not_mem.mpr fun name hname => ?_
  have hlabel := h _ (mem_labelNames.1 hname).1
  cases hlabel

theorem mem_of_mem_trace {ls : List Line} {l : Line} {d d1 : Depth} (h : (l, d1) ∈ trace ls d) :
    l ∈ ls := by
  obtain ⟨i, hi, -⟩ := mem_trace_iff.1 h
  exact List.mem_of_getElem? hi

theorem track_take {ls : List Line} {d d' : Depth} (h : track ls d = some d') (i : Nat) :
    ∃ d1, track (ls.take i) d = some d1 := by
  induction ls generalizing d i with
  | nil =>
    rw [List.take_nil]
    exact ⟨d', h⟩
  | cons l ls ih =>
    obtain ⟨d1, hl, hls⟩ := Option.bind_eq_some_iff.mp h
    cases i with
    | zero => exact ⟨d, rfl⟩
    | succ i =>
      rw [List.take_succ_cons, track, hl]
      exact ih hls i

/-- Code that opens a frame, moves the stack below it and back, and closes it. -/
structure Framed (opening body closing : List Line) (frame : Int) (base : Option Int) : Prop where
  opens : track opening .entry = some ⟨frame, base⟩
  aligned : 16 ∣ frame
  moves : Moves (fun _ => False) 0 0 body
  unique : (labelNames body).Nodup
  closes : track closing ⟨frame, base⟩ = some .entry
  straight : ∀ l ∈ opening ++ closing, l.isStraight = true

namespace Framed

variable {opening body closing : List Line} {frame : Int} {base : Option Int}
  (h : Framed opening body closing frame base)
include h

theorem track_body : track body ⟨frame, base⟩ = some ⟨frame, base⟩ := by
  have hbody := h.moves.track frame base
  rwa [Int.add_zero] at hbody

theorem track_code : track (opening ++ body ++ closing) .entry = some .entry := by
  rw [List.append_assoc, track_append h.opens, track_append h.track_body, h.closes]

theorem trace_code : trace (opening ++ body ++ closing) .entry =
    trace opening .entry ++ trace body ⟨frame, base⟩ ++ trace closing ⟨frame, base⟩ := by
  rw [List.append_assoc, trace_append h.opens, trace_append h.track_body, List.append_assoc]

theorem tracked (i : Nat) : ∃ d, depthAt (opening ++ body ++ closing) i = some d :=
  track_take h.track_code i

theorem mem_body {l : Line} {d : Depth} (hl : l.isStraight = false)
    (hmem : (l, d) ∈ trace (opening ++ body ++ closing) .entry) : (l, d) ∈ trace body ⟨frame, base⟩ := by
  have hnot : ∀ {ls : List Line} {d0 : Depth}, (∀ l ∈ ls, l ∈ opening ++ closing) →
      (l, d) ∉ trace ls d0 := by
    intro ls d0 hls htrace
    have hstraight := h.straight l (hls l (mem_of_mem_trace htrace))
    rw [hl] at hstraight
    cases hstraight
  rw [h.trace_code] at hmem
  rcases List.mem_append.mp hmem with hmem | hmem
  · rcases List.mem_append.mp hmem with hmem | hmem
    · exact absurd hmem (hnot fun l => List.mem_append_left _)
    · exact hmem
  · exact absurd hmem (hnot fun l => List.mem_append_right _)

theorem call_aligned {i : Nat} {name : String} {d : Depth}
    (hi : (opening ++ body ++ closing)[i]? = some (.instr (.call name)))
    (hd : depthAt (opening ++ body ++ closing) i = some d) : 16 ∣ d.top := by
  have hmem := h.mem_body rfl (mem_trace_iff.2 ⟨i, hi, hd⟩)
  rw [show frame = frame + 0 by omega] at hmem
  exact h.moves.calls frame base name d h.aligned hmem

theorem local_code : Local (opening ++ body ++ closing) := by
  have hlocal : ∀ ls : List Line, (∀ l ∈ ls, l ∈ opening ++ closing) → Local ls := by
    intro ls hls
    refine local_of_forall fun l hl => ?_
    rw [Line.jump?_of_isStraight (h.straight l (hls l hl))]
    exact nofun
  exact ((hlocal opening fun l => List.mem_append_left _).append h.moves.unordered).append
    (hlocal closing fun l => List.mem_append_right _)

theorem unique_code : (labelNames (opening ++ body ++ closing)).Nodup := by
  rw [labelNames_append, labelNames_append,
    labelNames_of_isStraight fun l hl => h.straight l (List.mem_append_left _ hl),
    labelNames_of_isStraight fun l hl => h.straight l (List.mem_append_right _ hl), List.append_nil]
  exact h.unique

/-- A jump to the local label goes past the jump below it. -/
theorem lands_local {i : Nat} {l : Line} (hi : (opening ++ body ++ closing)[i]? = some l)
    (hjump : l.jump? = some Emit.unorderedTarget) :
    ∃ j, Lands (opening ++ body ++ closing) i Emit.unorderedTarget j ∧
      (∀ j', Lands (opening ++ body ++ closing) i Emit.unorderedTarget j' → j' = j) ∧
      depthAt (opening ++ body ++ closing) j = depthAt (opening ++ body ++ closing) i := by
  obtain ⟨hlands, hdepth⟩ := h.local_code.lands hi hjump
  obtain ⟨d, hd⟩ := h.tracked i
  exact ⟨i + 2, (hlands _).mpr rfl, fun j' => (hlands j').mp, (hdepth _ _ hd).trans hd.symm⟩

/-- Every jump lands in one place, and at the depth that it starts from. -/
theorem lands {i : Nat} {l : Line} {target : String} (hi : (opening ++ body ++ closing)[i]? = some l)
    (hjump : l.jump? = some target) :
    ∃ j, Lands (opening ++ body ++ closing) i target j ∧
      (∀ j', Lands (opening ++ body ++ closing) i target j' → j' = j) ∧
      depthAt (opening ++ body ++ closing) j = depthAt (opening ++ body ++ closing) i := by
  by_cases hlocal : target = Emit.unorderedTarget
  · subst hlocal
    exact h.lands_local hi hjump
  · obtain ⟨d, hd⟩ := h.tracked i
    have hstraight : l.isStraight = false := by
      refine Bool.eq_false_iff.mpr fun hl => ?_
      rw [Line.jump?_of_isStraight hl] at hjump
      cases hjump
    have hmem := h.mem_body hstraight (mem_trace_iff.2 ⟨i, hi, hd⟩)
    rw [show frame = frame + 0 by omega] at hmem
    obtain ⟨hne, hlabel⟩ := (h.moves.jumps frame base l d target hmem hjump hlocal).resolve_right
      fun ho => ho.1
    rw [Int.add_zero] at hlabel
    -- the label in the body is a label of the code
    have hlabel : (.label target, d) ∈ trace (opening ++ body ++ closing) .entry := by
      rw [h.trace_code]
      exact List.mem_append_left _ (List.mem_append_right _ hlabel)
    obtain ⟨j, hj, hdj⟩ := mem_trace_iff.1 hlabel
    refine ⟨j, ?_, fun j' hj' => ?_, ?_⟩
    · rwa [Lands, if_neg hlocal]
    · rw [Lands, if_neg hlocal] at hj'
      exact unique_of_nodup h.unique_code hj' hj hne
    · rw [depthAt, hdj, hd]

end Framed

/-! ### Slots -/

/-- Where registers are saved: what is pushed, with the depth of its slot. -/
def savedSlots (lines : List (Line × Depth)) : List (Operand × Int) :=
  lines.filterMap fun
    | (.instr (.push src), d) => some (src, d.top + 8)
    | _ => none

theorem savedSlots_quiet {is : List Instr} (h : ∀ i ∈ is, i.isQuiet = true) (d : Depth) :
    savedSlots (trace (is.map .instr) d) = [] := by
  refine List.filterMap_eq_nil_iff.mpr fun ⟨l, d1⟩ hmem => ?_
  obtain ⟨i, hi, rfl⟩ := List.mem_map.mp (mem_of_mem_trace hmem)
  have hquiet := h i hi
  cases i <;> first | rfl | cases hquiet

/-- Where registers are read back from. The frame pointer is read back when the frame is left. -/
def restoredSlots (lines : List (Line × Depth)) : List (Operand × Int) :=
  lines.filterMap fun
    | (.instr (.pop dst), d) => some (dst, d.top)
    | (.instr .leave, d) => d.base.map fun base => (.quad .rbp, base)
    | _ => none

end MiniC.X86
