import MiniC.Proofs.X86.Parts

/-!
# Registers that are left alone

Which parts of the machine an instruction has as its destination can be read off it, and a run of lines leaves
every other register as it was (`regs_of_effect`). A call is the exception. It may change every float register, so
those that are to be left alone are stored on the stack before it and read back after it, from the same place:
between the two the stack is left where it was (`Stored`). `Sparing` says this of a stretch of code, for the
parts of the machine that are to be left alone, and stretches one after the other may be taken together.
-/

set_option autoImplicit false

namespace MiniC.X86

/-- The parts of the machine that an instruction has as its destination, named or not. A call has none: what
the function may change is for the code around the call to save. -/
def Instr.destinations : Instr → List Part
  | .call _ => []
  | i => i.writes

/-- The operand that an instruction writes to, if it names one and writes to nothing else but the flags. -/
def Instr.target? : Instr → Option Operand
  | .mov _ _ dst | .movAbs _ dst | .movZero _ _ _ dst | .movSign _ _ _ dst | .lea _ dst => some dst
  | .alu _ _ _ dst | .shl _ _ dst | .sar _ _ dst | .neg _ dst | .not _ dst | .inc _ dst | .dec _ dst => some dst
  | .set _ dst | .sse _ _ dst | .cvtsi2sd _ _ dst | .cvttsd2si _ _ dst => some dst
  | _ => none

theorem isQuiet_of_target? {i : Instr} {dst : Operand} (h : i.target? = some dst) : i.isQuiet = dst.isFree := by
  cases i <;> cases h <;> rfl

theorem mem_destinations {i : Instr} {dst : Operand} (h : i.target? = some dst) {p : Part}
    (hp : p ∈ i.destinations) :
    p = .flags ∨ p ∈ dst.writes ++ dst.floatWrites := by
  cases i with
  | sse op _ _ =>
    cases h
    cases op <;> simp_all [Instr.destinations, Instr.writes]
  | _ => cases h <;> simp [Instr.destinations, Instr.writes] at hp ⊢ <;> tauto

/-- Store a float on top of the stack. -/
abbrev storeTop (x : Fin 16) : Instr := .sse .movsd (.reg (.xmm x)) .top

/-- Read a float back from the top of the stack. -/
abbrev loadTop (x : Fin 16) : Instr := .sse .movsd .top (.reg (.xmm x))

/-- After these lines the top of the stack is where they stored a float last, before a call. -/
def Stored (before : List Line) (x : Fin 16) : Prop :=
  ∃ above since name, before = above ++ .instr (storeTop x) :: since ∧ .instr (.call name) ∈ since ∧
    ∀ d, track since d = some d

/-- Lines of which none has a destination that is to be left alone, but for floats that are read back. -/
def Sparing (live : Part → Prop) (ls : List Line) : Prop :=
  ∀ before i after p, ls = before ++ .instr i :: after → p ∈ i.destinations → live p →
    ∃ x, p = .xmm x ∧ i = loadTop x ∧ Stored before x

section Sparing

variable {live : Part → Prop} {ls ls' : List Line} {x : Fin 16}

theorem Stored.append (h : Stored ls x) (first : List Line) : Stored (first ++ ls) x := by
  obtain ⟨above, since, name, rfl, hcall, htrack⟩ := h
  exact ⟨first ++ above, since, name, by simp, hcall, htrack⟩

theorem Sparing.append (h : Sparing live ls) (h' : Sparing live ls') : Sparing live (ls ++ ls') := by
  intro before i after p heq hp hlive
  -- the instruction is in the second stretch, with the first before it, or else in the first one
  rcases List.append_eq_append_iff.mp heq with ⟨first, rfl, heq'⟩ | ⟨last, rfl, heq'⟩
  · obtain ⟨x, hx, hi, hstored⟩ := h' first i after p heq' hp hlive
    exact ⟨x, hx, hi, hstored.append ls⟩
  · cases last with
    | nil =>
      obtain ⟨x, hx, hi, hstored⟩ := h' [] i after p heq'.symm hp hlive
      exact ⟨x, hx, hi, by simpa using hstored.append before⟩
    | cons l last =>
      rw [List.cons_append, List.cons.injEq] at heq'
      obtain ⟨rfl, -⟩ := heq'
      exact h before i last p rfl hp hlive

theorem sparing_of_forall (h : ∀ i, .instr i ∈ ls → ∀ p ∈ i.destinations, ¬ live p) : Sparing live ls := by
  rintro before i after p rfl hp hlive
  exact absurd hlive (h i (by simp) p hp)

/-- A float is stored, a call is made and the float is read back. -/
theorem Sparing.around (h : Sparing live ls) (hlevel : ∀ d, track ls d = some d) {name : String}
    (hcall : .instr (.call name) ∈ ls) {grow shrink : Instr} (hgrow : ∀ p ∈ grow.destinations, ¬ live p)
    (hshrink : ∀ p ∈ shrink.destinations, ¬ live p) (x : Fin 16) :
    Sparing live ([.instr grow, .instr (storeTop x)] ++ ls ++ [.instr (loadTop x), .instr shrink]) := by
  have hfirst : Sparing live [.instr grow, .instr (storeTop x)] := by
    refine sparing_of_forall fun i hi p hp => ?_
    rcases List.mem_cons.mp hi with heq | hi
    · cases heq
      exact hgrow p hp
    · cases List.mem_singleton.mp hi
      cases hp
  intro before i after p heq hp hlive
  rcases List.append_eq_append_iff.mp heq with ⟨mid, rfl, heq'⟩ | ⟨last, hbefore, heq'⟩
  · -- the float is read back in the first line after the call's, and nothing else is written after it
    cases mid with
    | nil =>
      cases heq'
      obtain rfl : p = .xmm x := List.mem_singleton.mp hp
      exact ⟨x, rfl, rfl, [.instr grow], ls, name, by simp, hcall, hlevel⟩
    | cons l mid =>
      rw [List.cons_append, List.cons.injEq] at heq'
      have hlast : Line.instr i = .instr shrink := by
        cases mid with
        | nil => exact (List.cons.inj heq'.2).1.symm
        | cons l' mid => simp at heq'
      cases hlast
      exact absurd hlive (hshrink p hp)
  · have hboth := hfirst.append h
    cases last with
    | nil =>
      rw [List.nil_append] at heq'
      cases heq'
      obtain rfl : p = .xmm x := List.mem_singleton.mp hp
      exact ⟨x, rfl, rfl, [.instr grow], ls, name, by simpa using hbefore.symm, hcall, hlevel⟩
    | cons l last =>
      rw [List.cons_append, List.cons.injEq] at heq'
      obtain ⟨rfl, -⟩ := heq'
      exact hboth before i last p hbefore hp hlive

end Sparing

/-! ### Runs -/

section Frame

variable {D : Layout} {env : Env} {m m' : Machine} {c c' : Cpu} {w : Width} {v : BitVec 64} {o : Operand}
  {i : Instr} {g : Gpr}

/-- No part of a register is among some parts of the machine. -/
def Untouched (g : Gpr) (ps : List Part) : Prop := .gpr g ∉ ps ∧ .low g ∉ ps

theorem regs_of_assign (h : m.assign D w v o = some m') (hg : Untouched g o.writes) : m'.regs g = m.regs g := by
  unfold Machine.assign at h
  split at h
  · rename_i g' w'
    split_ifs at h
    cases h
    refine Function.update_of_ne (fun heq => ?_) _ _
    subst heq
    cases w' with
    | byte => exact hg.2 List.mem_cons_self
    | long | quad => exact hg.1 List.mem_cons_self
  · obtain ⟨a, -, rfl⟩ := Option.map_eq_some_iff.mp h
    rfl
  · cases h
  · cases h

theorem regs_of_modify {f : BitVec 64 → BitVec 64} (h : m.modify D w f o = some m') (hg : Untouched g o.writes) :
    m'.regs g = m.regs g := by
  obtain ⟨x, -, hassign⟩ := Option.bind_eq_some_iff.mp h
  have hregs := regs_of_assign hassign hg
  exact hregs

theorem Untouched.of_cons {p : Part} {ps : List Part} (h : Untouched g (p :: ps)) : Untouched g ps :=
  ⟨fun hp => h.1 (List.mem_cons_of_mem _ hp), fun hp => h.2 (List.mem_cons_of_mem _ hp)⟩

/-- An instruction of the integer machine leaves alone the registers that it does not write. -/
theorem regs_of_run (h : i.run D m = some m') (hg : Untouched g i.writes) : m'.regs g = m.regs g := by
  have hne : ∀ g', Part.gpr g' ∈ i.writes → g ≠ g' := fun g' hp heq => hg.1 (heq ▸ hp)
  -- most instructions assign to one operand; the others write fixed registers besides, or instead
  cases i with
  | mov _ _ _ | movZero _ _ _ _ | movSign _ _ _ _ | not _ _ =>
    obtain ⟨_, -, hassign⟩ := Option.bind_eq_some_iff.mp h
    exact regs_of_assign hassign hg
  | movAbs _ _ => exact regs_of_assign h hg
  | lea src dst =>
    cases src with
    | mem place =>
      obtain ⟨_, -, hassign⟩ := Option.bind_eq_some_iff.mp h
      exact regs_of_assign hassign hg
    | _ => cases h
  | alu op w src dst =>
    obtain ⟨_, -, h⟩ := Option.bind_eq_some_iff.mp h
    obtain ⟨_, -, h⟩ := Option.bind_eq_some_iff.mp h
    split at h
    · exact (regs_of_assign h hg.of_cons).trans rfl
    · cases h
      rfl
  | shl _ _ _ | sar _ _ _ =>
    obtain ⟨_, -, h⟩ := Option.bind_eq_some_iff.mp h
    exact regs_of_modify h hg.of_cons
  | neg _ _ | inc _ _ | dec _ _ => exact regs_of_modify h hg.of_cons
  | idiv w divisor =>
    cases w with
    | quad =>
      obtain ⟨_, -, h⟩ := Option.bind_eq_some_iff.mp h
      simp only [Machine.divide] at h
      split_ifs at h
      cases h
      simp [hne .rax (by simp [Instr.writes]), hne .rdx (by simp [Instr.writes])]
    | _ => cases h
  | cqo =>
    cases h
    simp [hne .rdx (by simp [Instr.writes])]
  | set _ _ =>
    obtain ⟨_, -, h⟩ := Option.bind_eq_some_iff.mp h
    obtain ⟨_, -, hassign⟩ := Option.bind_eq_some_iff.mp h
    exact regs_of_assign hassign hg
  | push _ =>
    obtain ⟨_, -, hassign⟩ := Option.bind_eq_some_iff.mp h
    rw [regs_of_assign hassign ⟨List.not_mem_nil, List.not_mem_nil⟩]
    simp [hne .rsp (by simp [Instr.writes])]
  | pop dst =>
    have hassign : (m.set .rsp (m.regs .rsp + 8)).assign D .quad _ dst = some m' := h
    rw [regs_of_assign hassign hg.of_cons]
    simp [hne .rsp (by simp [Instr.writes])]
  | _ => cases h

theorem regs_of_assignFloat (h : c.assignFloat env v o = some c') : c'.regs = c.regs := by
  unfold Cpu.assignFloat at h
  split at h
  · cases h
    rfl
  · obtain ⟨_, -, rfl⟩ := Option.map_eq_some_iff.mp h
    rfl
  · cases h

/-- And so does every other instruction, given that functions leave alone what they have to. -/
theorem regs_of_cpu_run (h : c.run env i = some c') (hg : Untouched g i.destinations) (hkept : g ∈ keptGprs) :
    c'.regs g = c.regs g := by
  have hinteger : ∀ {k : Option Order}, (i.run env.layout c.toMachine).map (fun m => (c.withMachine m).withOrder k) =
      some c' → Untouched g i.writes → c'.regs g = c.regs g := by
    intro k h hg
    obtain ⟨m', hrun, rfl⟩ := Option.map_eq_some_iff.mp h
    exact regs_of_run hrun hg
  cases i with
  | sse op src dst =>
    cases op with
    | movsd =>
      obtain ⟨_, -, h⟩ := Option.bind_eq_some_iff.mp h
      rw [regs_of_assignFloat h]
    | ucomisd =>
      obtain ⟨_, -, h⟩ := Option.bind_eq_some_iff.mp h
      obtain ⟨_, -, rfl⟩ := Option.map_eq_some_iff.mp h
      rfl
    | _ =>
      cases dst with
      | reg x =>
        cases x with
        | xmm j =>
          obtain ⟨_, -, rfl⟩ := Option.map_eq_some_iff.mp h
          rfl
        | gpr _ _ => cases h
      | _ => cases h
  | cvtsi2sd w src dst =>
    cases w with
    | quad =>
      cases dst with
      | reg x =>
        cases x with
        | xmm j =>
          obtain ⟨_, -, rfl⟩ := Option.map_eq_some_iff.mp h
          rfl
        | gpr _ _ => cases h
      | _ => cases h
    | _ => cases h
  | cvttsd2si w src dst =>
    cases w with
    | quad =>
      obtain ⟨_, -, h⟩ := Option.bind_eq_some_iff.mp h
      obtain ⟨m', hassign, rfl⟩ := Option.map_eq_some_iff.mp h
      exact regs_of_assign hassign hg
    | _ => cases h
  | set cond dst =>
    obtain ⟨_, -, h⟩ := Option.bind_eq_some_iff.mp h
    obtain ⟨m', hassign, rfl⟩ := Option.map_eq_some_iff.mp h
    exact regs_of_assign hassign hg
  | call name =>
    obtain ⟨_, -, rfl⟩ := Option.map_eq_some_iff.mp h
    exact if_pos hkept
  | jmp _ | jcc _ _ | leave | ret => cases h
  | _ => exact hinteger h hg

theorem regs_of_runs {is : List Instr} (his : ∀ i ∈ is, Untouched g i.destinations) (hkept : g ∈ keptGprs)
    (h : c.runs env is = some c') : c'.regs g = c.regs g := by
  induction is generalizing c with
  | nil =>
    cases h
    rfl
  | cons i is ih =>
    obtain ⟨c1, hrun, h⟩ := Option.bind_eq_some_iff.mp h
    rw [ih (fun i' hi' => his i' (List.mem_cons_of_mem _ hi')) h]
    exact regs_of_cpu_run hrun (his i List.mem_cons_self) hkept

theorem regs_of_effect {l : Line} {target : Option String} (hl : ∀ i, l = .instr i → Untouched g i.destinations)
    (hkept : g ∈ keptGprs) (h : l.effect env c = some (target, c')) : c'.regs g = c.regs g := by
  unfold Line.effect at h
  split at h
  · cases h
    rfl
  · obtain ⟨_, -, heq⟩ := Option.map_eq_some_iff.mp h
    cases heq
    rfl
  · obtain ⟨c1, hrun, heq⟩ := Option.map_eq_some_iff.mp h
    cases heq
    exact regs_of_cpu_run hrun (hl _ rfl) hkept
  · cases h
    rfl

/-- Code that leaves a register alone that is live writes no part of it. -/
theorem Sparing.untouched {live : Part → Prop} {ls : List Line} (h : Sparing live ls) (hgpr : live (.gpr g))
    (hlow : live (.low g)) {i : Instr} (hi : .instr i ∈ ls) : Untouched g i.destinations := by
  -- the exception is for floats, and these are no part of a general register
  obtain ⟨before, after, heq⟩ := List.append_of_mem hi
  constructor <;> intro hp
  · obtain ⟨x, hx, -⟩ := h before i after _ heq hp hgpr
    cases hx
  · obtain ⟨x, hx, -⟩ := h before i after _ heq hp hlow
    cases hx

end Frame

/-! ### Runs of two stretches -/

section Stretches

variable {env : Env} {code first second : List Line} {is : List Instr} {i n : Nat} {c c' : Cpu} {x : Exit}
  {a b : Int}

theorem Lands.label {target : String} {j : Nat} (h : Lands code i target j) :
    ∃ name, code[j]? = some (.label name) := by
  unfold Lands at h
  split at h
  · exact ⟨_, h.2.1⟩
  · exact ⟨_, h⟩

/-- A jump that is not to the local label is to a label of the code, if none may lead out of it. -/
theorem Moves.label_mem {l : Line} {target : String} (h : Moves (fun _ => False) a b code) (hl : code[i]? = some l)
    (hjump : l.jump? = some target) (hlocal : target ≠ Emit.unorderedTarget) :
    target ≠ Emit.unorderedLabel ∧ .label target ∈ code := by
  obtain ⟨d, hd⟩ := track_take (h.track 0 none) i
  rcases h.jumps 0 none l d target (mem_trace_iff.2 ⟨i, hl, hd⟩) hjump hlocal with ⟨hne, hlabel⟩ | ⟨hout, -⟩
  · exact ⟨hne, mem_of_mem_trace hlabel⟩
  · exact hout.elim

/-- Code without jumps to labels outside is left at its end. -/
theorem next_of_exits (h : Moves (fun _ => False) a b code) (hrun : ExitsFrom env code i c x c') : x = .next := by
  induction hrun with
  | done _ => rfl
  | next _ _ _ ih => exact ih
  | jump _ _ _ _ ih => exact ih
  | @out i l _ _ target hl heffect hout =>
    have hjump := jump?_of_effect heffect
    by_cases hlocal : target = Emit.unorderedTarget
    · -- the local label stands after the next line, which is a jump
      subst hlocal
      obtain ⟨⟨l', target', hl', hjump'⟩, hlabel⟩ := h.unordered i l hl hjump
      refine absurd ?_ (hout (i + 2))
      rw [Lands, if_pos rfl]
      refine ⟨by omega, hlabel, fun k hlo hhi hk => ?_⟩
      obtain rfl : k = i + 1 := by omega
      cases hl'.symm.trans hk
      cases hjump'
    · obtain ⟨j, hj⟩ := List.getElem?_of_mem (h.label_mem hl hjump hlocal).2
      refine absurd ?_ (hout j)
      rwa [Lands, if_neg hlocal]

/-- A run that gets to the end passes from one stretch to the other, if no jump of the first lands in the
second. -/
theorem ExitsFrom.split (hstay : ∀ i l target j, i < n → code[i]? = some l → l.jump? = some target →
    Lands code i target j → j < n) (hn : n ≤ code.length) (h : ExitsFrom env code i c .next c') (hi : i ≤ n) :
    ∃ c1, ExitsFrom env (code.take n) i c .next c1 ∧ ExitsFrom env code n c1 .next c' := by
  have htake : ∀ {k l}, k < n → code[k]? = some l → (code.take n)[k]? = some l := by
    intro k l hk hl
    rwa [List.getElem?_take_of_lt hk]
  have hend : ∀ c, ExitsFrom env (code.take n) n c .next c := fun c => .done (by simp)
  generalize hx : Exit.next = x at h
  induction h with
  | done hlen =>
    obtain rfl := Nat.le_antisymm hi (Nat.le_trans hn hlen)
    exact ⟨_, hend _, .done hlen⟩
  | next hl heffect hrest ih =>
    subst hx
    rcases Nat.lt_or_eq_of_le hi with hlt | rfl
    · obtain ⟨c1, hfirst, hsecond⟩ := ih hlt rfl
      exact ⟨c1, .next (htake hlt hl) heffect hfirst, hsecond⟩
    · exact ⟨_, hend _, .next hl heffect hrest⟩
  | @jump i j l _ _ _ _ target hl heffect hlands hrest ih =>
    subst hx
    rcases Nat.lt_or_eq_of_le hi with hlt | rfl
    · have hj := hstay _ _ _ _ hlt hl (jump?_of_effect heffect) hlands
      obtain ⟨c1, hfirst, hsecond⟩ := ih (Nat.le_of_lt hj) rfl
      refine ⟨c1, .jump (htake hlt hl) heffect ?_ hfirst, hsecond⟩
      by_cases hlocal : target = Emit.unorderedTarget
      · rw [Lands, if_pos hlocal] at hlands ⊢
        refine ⟨hlands.1, htake hj hlands.2.1, fun k hlo hhi => ?_⟩
        rw [List.getElem?_take_of_lt (Nat.lt_trans hhi hj)]
        exact hlands.2.2 k hlo hhi
      · rw [Lands, if_neg hlocal] at hlands ⊢
        exact htake hj hlands
    · exact ⟨_, hend _, .jump hl heffect hlands hrest⟩
  | out _ _ _ => cases hx

/-- Instructions that do not jump are run one after the other. -/
theorem runs_of_exits (his : ∀ i ∈ is, i.isPlain = true)
    (h : ExitsFrom env (first ++ is.map .instr) first.length c x c') : c.runs env is = some c' := by
  induction is generalizing first c with
  | nil =>
    rw [List.map_nil, List.append_nil] at h
    cases h with
    | done _ => rfl
    | next hl _ _ | jump hl _ _ _ | out hl _ _ => simp at hl
  | cons i is ih =>
    have hline : (first ++ (i :: is).map Line.instr)[first.length]? = some (.instr i) := by simp
    have hplain : (Line.instr i).effect env c = _ := effect_of_isPlain (his i List.mem_cons_self) c
    cases h with
    | done hlen => simp at hlen
    | @next _ _ _ c1 _ _ hl heffect hrest =>
      cases hline.symm.trans hl
      rw [hplain] at heffect
      obtain ⟨_, hrun, heq⟩ := Option.map_eq_some_iff.mp heffect
      cases heq
      have hrest' : ExitsFrom env ((first ++ [.instr i]) ++ is.map .instr) (first ++ [Line.instr i]).length c1 x
          c' := by
        rw [List.length_append, List.append_assoc]
        exact hrest
      rw [Cpu.runs, hrun]
      exact ih (fun i' hi' => his i' (List.mem_cons_of_mem _ hi')) hrest'
    | jump hl heffect _ _ | out hl heffect _ =>
      cases hline.symm.trans hl
      rw [hplain] at heffect
      obtain ⟨c1, -, heq⟩ := Option.map_eq_some_iff.mp heffect
      cases heq

/-- Code with instructions after it that do not jump is run to its end, and then these are. -/
theorem exits_append_instrs (his : ∀ i ∈ is, i.isPlain = true)
    (h : Exits env (first ++ is.map .instr) c .next c') :
    ∃ c1, Exits env first c .next c1 ∧ c1.runs env is = some c' := by
  have hstay : ∀ i l target j, i < first.length → (first ++ is.map Line.instr)[i]? = some l →
      l.jump? = some target → Lands (first ++ is.map .instr) i target j → j < first.length := by
    intro i l target j _ _ _ hlands
    obtain ⟨name, hname⟩ := hlands.label
    by_contra hj
    rw [List.getElem?_append_right (Nat.le_of_not_lt hj), List.getElem?_map] at hname
    obtain ⟨_, -, heq⟩ := Option.map_eq_some_iff.mp hname
    cases heq
  obtain ⟨c1, hfirst, hsecond⟩ := h.split hstay (by simp) (Nat.zero_le _)
  exact ⟨c1, by simpa using hfirst, runs_of_exits his hsecond⟩

/-- A run that stays among lines which touch no part of a register leaves it alone. -/
theorem regs_since {g : Gpr} (hstay : ∀ i l target j, n ≤ i → code[i]? = some l → l.jump? = some target →
    Lands code i target j → n ≤ j) (hspared : ∀ k i, n ≤ k → code[k]? = some (.instr i) → Untouched g i.destinations)
    (hkept : g ∈ keptGprs) (h : ExitsFrom env code i c x c') (hi : n ≤ i) : c'.regs g = c.regs g := by
  have hline : ∀ {i : Nat} {l : Line} {target : Option String} {c c' : Cpu}, n ≤ i → code[i]? = some l →
      l.effect env c = some (target, c') → c'.regs g = c.regs g := fun hi hl heffect =>
    regs_of_effect (fun i heq => hspared _ i hi (heq ▸ hl)) hkept heffect
  induction h with
  | done _ => rfl
  | next hl heffect _ ih => rw [ih (Nat.le_succ_of_le hi), hline hi hl heffect]
  | jump hl heffect hlands _ ih =>
    rw [ih (hstay _ _ _ _ hi hl (jump?_of_effect heffect) hlands), hline hi hl heffect]
  | out hl heffect _ => exact hline hi hl heffect

/-- Two stretches that keep their jumps to themselves: the first is run to its end, and after it only lines of
the second are. -/
theorem exits_append (hfirst : Moves (fun _ => False) a b first) (hsecond : Moves (fun _ => False) a b second)
    (hunique : (labelNames (first ++ second)).Nodup) {g : Gpr} (hkept : g ∈ keptGprs)
    (hspared : ∀ i, .instr i ∈ second → Untouched g i.destinations)
    (h : Exits env (first ++ second) c .next c') :
    ∃ c1, Exits env first c .next c1 ∧ c'.regs g = c1.regs g := by
  have hdisjoint : ∀ {name : String}, name ≠ Emit.unorderedLabel → .label name ∈ first → .label name ∉ second := by
    intro name hne hmem hmem'
    rw [labelNames_append] at hunique
    exact (List.nodup_append.mp hunique).2.2 _ (mem_labelNames.2 ⟨hmem, hne⟩) _
      (mem_labelNames.2 ⟨hmem', hne⟩) rfl
  have hstay : ∀ i l target j, i < first.length → (first ++ second)[i]? = some l → l.jump? = some target →
      Lands (first ++ second) i target j → j < first.length := by
    intro i l target j hi hl hjump hlands
    rw [List.getElem?_append_left hi] at hl
    by_contra hj
    have hj := Nat.le_of_not_lt hj
    by_cases hlocal : target = Emit.unorderedTarget
    · -- the label after the next line comes first
      subst hlocal
      rw [Lands, if_pos rfl] at hlands
      have hlabel := (hfirst.unordered i l hl hjump).2
      have hlen := (List.getElem?_eq_some_iff.mp hlabel).1
      refine hlands.2.2 (i + 2) (by omega) (by omega) ?_
      rw [List.getElem?_append_left hlen, hlabel]
    · obtain ⟨hne, hmem⟩ := hfirst.label_mem hl hjump hlocal
      rw [Lands, if_neg hlocal, List.getElem?_append_right hj] at hlands
      exact hdisjoint hne hmem (List.mem_of_getElem? hlands)
  obtain ⟨c1, hrun, hrest⟩ := h.split hstay (by simp) (Nat.zero_le _)
  refine ⟨c1, by simpa using hrun, ?_⟩
  -- from the second stretch on no line of the first is run
  refine regs_since (fun i l target j hi hl hjump hlands => ?_) (fun k i hk hl => ?_) hkept hrest (Nat.le_refl _)
  · rw [List.getElem?_append_right hi] at hl
    by_contra hj
    have hj := Nat.lt_of_not_le hj
    by_cases hlocal : target = Emit.unorderedTarget
    · rw [Lands, if_pos hlocal] at hlands
      omega
    · obtain ⟨hne, hmem⟩ := hsecond.label_mem hl hjump hlocal
      rw [Lands, if_neg hlocal, List.getElem?_append_left hj] at hlands
      exact hdisjoint hne (List.mem_of_getElem? hlands) hmem
  · rw [List.getElem?_append_right hk] at hl
    exact hspared i (List.mem_of_getElem? hl)

end Stretches

end MiniC.X86
