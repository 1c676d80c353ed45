import MiniC.Proofs.X86.Frame
import MiniC.Proofs.X86.Pushed

/-!
# What runs leave on the stack

The depth that is read off code (`Instr.track`) is where the stack pointer really goes (`effect_track`). So
code that comes back to where it starts moves the stack only below it (`Moves`), and what lies above is
overwritten only by stores that do not belong to the stack: to objects, through pointers, and by functions
that are called.

`Orderly` is a run to the end of code in which such stores leave the stack alone, between the stack pointer of
the moment and a fixed end, and in which the stack does not grow round the address space. After such a run of
level code the stack pointer, the frame pointer and everything on the stack are as before (`Orderly.keeps`).
-/

set_option autoImplicit false

namespace MiniC.X86

/-! ### Instructions that leave the pointers alone -/

/-- The stack pointer and the frame pointer are as they were. -/
def Machine.SamePointers (m m' : Machine) : Prop := ∀ g, g = .rsp ∨ g = .rbp → m'.regs g = m.regs g

theorem untouched_of_isFree {dst : Operand} (h : dst.isFree = true) {g : Gpr} (hg : g = .rsp ∨ g = .rbp) :
    Untouched g (dst.writes ++ dst.floatWrites) := by
  rcases dst with (⟨g', w⟩ | x) | _ | _
  · have hne : g ≠ g' := by
      rintro rfl
      rcases hg with rfl | rfl <;> cases h
    cases w <;> simp [Untouched, Operand.writes, Operand.floatWrites, hne]
  all_goals simp [Untouched, Operand.writes, Operand.floatWrites]

theorem samePointers_run {env : Env} {c c' : Cpu} {i : Instr} (hi : i.isQuiet = true) (h : c.run env i = some c') :
    c.SamePointers c'.toMachine := by
  intro g hg
  refine regs_of_cpu_run h ?_ (by rcases hg with rfl | rfl <;> decide)
  cases htarget : i.target? with
  | some dst =>
    have hfree := untouched_of_isFree ((isQuiet_of_target? htarget).symm.trans hi) hg
    exact ⟨fun hp => hfree.1 ((mem_destinations htarget hp).resolve_left (by simp)),
      fun hp => hfree.2 ((mem_destinations htarget hp).resolve_left (by simp))⟩
  | none =>
    cases i with
    | idiv | cqo => rcases hg with rfl | rfl <;> simp [Untouched, Instr.destinations, Instr.writes]
    | push | pop | jmp | jcc | call | leave | ret => cases hi
    | _ => cases htarget

/-! ### Where the pointers go -/

/-- A move to the stack pointer is not tracked, and one to the frame pointer only if it opens a frame. -/
theorem track_mov_of_not_free {w : Width} {src dst : Operand} (h : dst.isFree = false) (t t' : Int) :
    (Instr.mov w src dst).track ⟨t, none⟩ ≠ some ⟨t', none⟩ := by
  have hnot : ¬ (Instr.mov w src dst).isQuiet = true := by
    show ¬ dst.isFree = true
    rw [h]
    decide
  have hdefault : (if (Instr.mov w src dst).isQuiet = true then some (⟨t, none⟩ : Depth) else none) ≠
      some ⟨t', none⟩ := by
    rw [if_neg hnot]
    rintro ⟨⟩
  cases w <;> try exact hdefault
  rcases src with (⟨g, w⟩ | _) | _ | _ <;> try exact hdefault
  cases g <;> try exact hdefault
  cases w <;> try exact hdefault
  rcases dst with (⟨g, w⟩ | _) | _ | _ <;> try exact hdefault
  cases g <;> try exact hdefault
  cases w <;> try exact hdefault
  rintro ⟨⟩

/-- An operation on the stack pointer is tracked if it adds or subtracts a constant. -/
theorem track_alu_of_not_free {op : Alu} {w : Width} {src dst : Operand} (h : dst.isFree = false) {t t' : Int}
    (htrack : (Instr.alu op w src dst).track ⟨t, none⟩ = some ⟨t', none⟩) :
    ∃ v, w = .quad ∧ src = .imm v ∧ dst = .quad .rsp ∧
      (op = .sub ∧ t' = t + v.toInt ∨ op = .add ∧ t' = t - v.toInt) := by
  have hnot : ¬ (Instr.alu op w src dst).isQuiet = true := by
    show ¬ dst.isFree = true
    rw [h]
    decide
  have hdefault : (if (Instr.alu op w src dst).isQuiet = true then some (⟨t, none⟩ : Depth) else none) ≠
      some ⟨t', none⟩ := by
    rw [if_neg hnot]
    rintro ⟨⟩
  cases op <;> try exact absurd htrack hdefault
  all_goals
    cases w <;> try exact absurd htrack hdefault
    cases src <;> try exact absurd htrack hdefault
    rcases dst with (⟨g, w⟩ | _) | _ | _ <;> try exact absurd htrack hdefault
    cases g <;> try exact absurd htrack hdefault
    cases w <;> try exact absurd htrack hdefault
    cases htrack
  · exact ⟨_, rfl, rfl, rfl, .inr ⟨rfl, rfl⟩⟩
  · exact ⟨_, rfl, rfl, rfl, .inl ⟨rfl, rfl⟩⟩

/-- What an instruction is that is tracked, as long as there is no frame of its own. -/
theorem Instr.track_cases {i : Instr} {t t' : Int} (h : i.track ⟨t, none⟩ = some ⟨t', none⟩) :
    (t' = t ∧ (i.isQuiet = true ∨ i.isPlain = false ∨ (∃ name, i = .call name) ∨ i = .ret)) ∨
      (∃ src, i = .push src ∧ t' = t + 8) ∨
      (∃ dst, i = .pop dst ∧ dst.isFree = true ∧ t' = t - 8) ∨
      (∃ v, i = .alu .sub .quad (.imm v) (.quad .rsp) ∧ t' = t + v.toInt) ∨
      ∃ v, i = .alu .add .quad (.imm v) (.quad .rsp) ∧ t' = t - v.toInt := by
  by_cases hquiet : i.isQuiet = true
  · rw [track_of_isQuiet hquiet] at h
    cases h
    exact .inl ⟨rfl, .inl hquiet⟩
  have hdst : ∀ {dst : Operand}, ¬ dst.isFree = true → dst.isFree = false := Bool.eq_false_iff.mpr
  cases i with
  | mov w src dst => exact absurd h (track_mov_of_not_free (hdst hquiet) t t')
  | alu op w src dst =>
    obtain ⟨v, rfl, rfl, rfl, ⟨rfl, ht⟩ | ⟨rfl, ht⟩⟩ := track_alu_of_not_free (hdst hquiet) h
    · exact .inr (.inr (.inr (.inl ⟨v, rfl, ht⟩)))
    · exact .inr (.inr (.inr (.inr ⟨v, rfl, ht⟩)))
  | push src =>
    cases h
    exact .inr (.inl ⟨src, rfl, rfl⟩)
  | pop dst =>
    rw [track_pop] at h
    split at h
    · rename_i hfree
      cases h
      exact .inr (.inr (.inl ⟨dst, rfl, hfree, rfl⟩))
    · cases h
  | call name =>
    cases h
    exact .inl ⟨rfl, .inr (.inr (.inl ⟨name, rfl⟩))⟩
  | jmp | jcc =>
    cases h
    exact .inl ⟨rfl, .inr (.inl rfl)⟩
  | ret =>
    cases h
    exact .inl ⟨rfl, .inr (.inr (.inr rfl))⟩
  | leave => cases h
  | idiv | cqo => exact absurd rfl hquiet
  | _ =>
    have h : (if _ then _ else none) = _ := h
    rw [if_neg hquiet] at h
    cases h

/-- The machine after a line by which the stack pointer moves a number of bytes down. -/
structure Sinks (n : Int) (c c' : Cpu) : Prop where
  rsp : c'.regs .rsp = c.regs .rsp - BitVec.ofInt 64 n
  rbp : c'.regs .rbp = c.regs .rbp
  bound : n ≤ 2 ^ 63

theorem sinks_of_samePointers {c c' : Cpu} (h : c.SamePointers c'.toMachine) : Sinks 0 c c' where
  rsp := by
    rw [h _ (.inl rfl)]
    simp
  rbp := h _ (.inr rfl)
  bound := by decide

variable {env : Env}

theorem eq_of_effect_jump {l : Line} {c c' : Cpu} {target : String}
    (h : l.effect env c = some (some target, c')) : c' = c := by
  unfold Line.effect at h
  split at h
  · cases h
    rfl
  · obtain ⟨b, -, hb⟩ := Option.map_eq_some_iff.mp h
    exact (Prod.mk.inj hb).2.symm
  · obtain ⟨c1, -, hc1⟩ := Option.map_eq_some_iff.mp h
    cases hc1
  · cases h

theorem sinks_push {c c' : Cpu} {src : Operand} (h : c.run env (.push src) = some c') : Sinks 8 c c' := by
  obtain ⟨m, hm, hc⟩ := Option.map_eq_some_iff.mp h
  obtain ⟨v, -, hm⟩ := Option.bind_eq_some_iff.mp hm
  cases hm
  cases hc
  refine ⟨?_, ?_, by decide⟩
  · show Function.update c.regs .rsp (c.regs .rsp - 8) .rsp = _
    rw [Function.update_self]
    rfl
  · show Function.update c.regs .rsp (c.regs .rsp - 8) .rbp = _
    rw [Function.update_of_ne (by decide)]

theorem sinks_pop {c c' : Cpu} {dst : Operand} (hdst : dst.isFree = true)
    (h : c.run env (.pop dst) = some c') : Sinks (-8) c c' := by
  obtain ⟨m, hm, hc⟩ := Option.map_eq_some_iff.mp h
  have hm : (c.toMachine.set .rsp (c.regs .rsp + 8)).assign env.layout .quad (c.mem.word (c.regs .rsp)) dst =
    some m := hm
  cases hc
  have hsame : ∀ g, g = .rsp ∨ g = .rbp → m.regs g = (c.toMachine.set .rsp (c.regs .rsp + 8)).regs g := by
    intro g hg
    have hfree := untouched_of_isFree hdst hg
    exact regs_of_assign hm ⟨fun hp => hfree.1 (List.mem_append_left _ hp), fun hp => hfree.2 (List.mem_append_left _ hp)⟩
  refine ⟨(hsame _ (.inl rfl)).trans ?_, (hsame _ (.inr rfl)).trans ?_, by decide⟩
  · show Function.update c.regs .rsp (c.regs .rsp + 8) .rsp = _
    rw [Function.update_self, show BitVec.ofInt 64 (-8) = -(8 : BitVec 64) from rfl, BitVec.sub_neg]
  · show Function.update c.regs .rsp (c.regs .rsp + 8) .rbp = _
    rw [Function.update_of_ne (by decide)]

theorem sinks_grow {c c' : Cpu} {v : Int64}
    (h : c.run env (.alu .sub .quad (.imm v) (.quad .rsp)) = some c') : Sinks v.toInt c c' := by
  have hword : BitVec.ofInt 64 v.toInt = v.toBitVec := BitVec.ofInt_toInt
  have hlt := v.toInt_lt
  cases h
  refine ⟨?_, ?_, by omega⟩
  · show Function.update c.regs .rsp (c.regs .rsp - v.toBitVec) .rsp = _
    rw [Function.update_self, hword]
  · show Function.update c.regs .rsp (c.regs .rsp - v.toBitVec) .rbp = _
    rw [Function.update_of_ne (by decide)]

theorem sinks_shrink {c c' : Cpu} {v : Int64}
    (h : c.run env (.alu .add .quad (.imm v) (.quad .rsp)) = some c') : Sinks (-v.toInt) c c' := by
  have hword : BitVec.ofInt 64 v.toInt = v.toBitVec := BitVec.ofInt_toInt
  have hle := v.le_toInt
  cases h
  refine ⟨?_, ?_, by omega⟩
  · show Function.update c.regs .rsp (c.regs .rsp + v.toBitVec) .rsp = _
    rw [Function.update_self, BitVec.ofInt_neg, hword, BitVec.sub_neg]
  · show Function.update c.regs .rsp (c.regs .rsp + v.toBitVec) .rbp = _
    rw [Function.update_of_ne (by decide)]

/-- The stack pointer moves as it is tracked, and the frame pointer not at all. -/
theorem effect_track {l : Line} {t t' : Int} (h : l.track ⟨t, none⟩ = some ⟨t', none⟩) {c c' : Cpu}
    {target : Option String} (heffect : l.effect env c = some (target, c')) : Sinks (t' - t) c c' := by
  have hstays : c' = c → t' = t → Sinks (t' - t) c c' := by
    rintro rfl rfl
    rw [Int.sub_self]
    exact sinks_of_samePointers fun _ _ => rfl
  cases l with
  | instr i =>
    by_cases hplain : i.isPlain = true
    · rw [effect_of_isPlain hplain] at heffect
      obtain ⟨_, hrun, hsame⟩ := Option.map_eq_some_iff.mp heffect
      cases hsame
      rcases Instr.track_cases h with ⟨rfl, hi⟩ | ⟨src, rfl, rfl⟩ | ⟨dst, rfl, hdst, rfl⟩ | ⟨v, rfl, rfl⟩ |
        ⟨v, rfl, rfl⟩
      · rw [Int.sub_self]
        rcases hi with hquiet | hjump | ⟨name, rfl⟩ | rfl
        · exact sinks_of_samePointers (samePointers_run hquiet hrun)
        · rw [hplain] at hjump
          cases hjump
        · obtain ⟨ret, -, rfl⟩ := Option.map_eq_some_iff.mp hrun
          refine sinks_of_samePointers fun g hg => ?_
          rcases hg with rfl | rfl <;> rfl
        · cases hrun
      · rw [show t + 8 - t = 8 by omega]
        exact sinks_push hrun
      · rw [show t - 8 - t = -8 by omega]
        exact sinks_pop hdst hrun
      · rw [show t + v.toInt - t = v.toInt by omega]
        exact sinks_grow hrun
      · rw [show t - v.toInt - t = -v.toInt by omega]
        exact sinks_shrink hrun
    · -- a jump, taken or not
      obtain ⟨name, hjump⟩ : ∃ name, (Line.instr i).jump? = some name := by
        cases hnone : (Line.instr i).jump? with
        | none =>
          rw [Instr.isPlain, hnone] at hplain
          exact absurd rfl hplain
        | some name => exact ⟨name, rfl⟩
      rw [Line.track_of_jump? hjump] at h
      cases h
      refine hstays ?_ rfl
      cases i with
      | jmp => cases heffect; rfl
      | jcc =>
        obtain ⟨b, -, hb⟩ := Option.map_eq_some_iff.mp heffect
        exact (Prod.mk.inj hb).2.symm
      | _ => cases hjump
  | _ =>
    cases h
    cases heffect
    exact hstays rfl rfl

/-! ### Jumps -/

/-- Where a jump lands, the depth is the one that it starts from. -/
theorem depth_lands {a b : Int} {ls : List Line} (h : Moves (fun _ => False) a b ls)
    (hunique : (labelNames ls).Nodup) {i j : Nat} {l : Line} {target : String} (hi : ls[i]? = some l)
    (hjump : l.jump? = some target) (hlands : Lands ls i target j) {frame : Int} {base : Option Int} {d : Depth}
    (hd : track (ls.take i) ⟨frame + a, base⟩ = some d) : track (ls.take j) ⟨frame + a, base⟩ = some d := by
  by_cases hlocal : target = Emit.unorderedTarget
  · subst hlocal
    obtain ⟨hplace, hdepth⟩ := h.unordered.lands hi hjump
    rw [(hplace j).mp hlands]
    exact hdepth _ _ hd
  · have hmem := mem_trace_iff.2 ⟨i, hi, hd⟩
    obtain ⟨hne, hlabel⟩ := (h.jumps frame base l d target hmem hjump hlocal).resolve_right fun ho => ho.1
    obtain ⟨j', hj', hd'⟩ := mem_trace_iff.1 hlabel
    rw [Lands, if_neg hlocal] at hlands
    rw [unique_of_nodup hunique hlands hj' hne]
    exact hd'

/-! ### Orderly runs -/

/-- The bytes that a line makes room for on the stack and does not fill. -/
def Line.reserved : Line → Nat
  | .instr (.alu .sub .quad (.imm v) (.reg (.gpr .rsp .quad))) => v.toInt.toNat
  | _ => 0

/-- A byte that lies on the stack below `top`, if the lowest `fresh` bytes have not been filled yet. -/
def OnStack (top : BitVec 64) (c : Cpu) (fresh : Nat) (a : BitVec 64) : Prop :=
  fresh ≤ (a - c.regs .rsp).toNat ∧ (a - c.regs .rsp).toNat < (top - c.regs .rsp).toNat

/-- From a line on, code is run to its end in order: no line overwrites what lies on the stack, and the stack
takes up less than half of the addresses. -/
inductive OrderlyFrom (env : Env) (top : BitVec 64) (code : List Line) : Nat → Nat → Cpu → Cpu → Prop
  | done {fresh i : Nat} {c : Cpu} (hi : code.length ≤ i) : OrderlyFrom env top code fresh i c c
  | next {fresh i : Nat} {l : Line} {c c1 c' : Cpu} (hl : code[i]? = some l)
    (heffect : l.effect env c = some (none, c1)) (hroom : (top - c.regs .rsp).toNat < 2 ^ 63)
    (hkept : ∀ a, OnStack top c fresh a → c1.mem a = c.mem a)
    (hrest : OrderlyFrom env top code l.reserved (i + 1) c1 c') : OrderlyFrom env top code fresh i c c'
  | jump {fresh i j : Nat} {l : Line} {c c1 c' : Cpu} {target : String} (hl : code[i]? = some l)
    (heffect : l.effect env c = some (some target, c1)) (hlands : Lands code i target j)
    (hrest : OrderlyFrom env top code 0 j c1 c') : OrderlyFrom env top code fresh i c c'

/-- Code that is run from its first line to its end in order. -/
abbrev Orderly (env : Env) (top : BitVec 64) (code : List Line) : Cpu → Cpu → Prop :=
  OrderlyFrom env top code 0 0

/-- The stack pointer is a number of bytes below an address, and at most as many of them are not filled. -/
structure Below (sp top : BitVec 64) (d fresh : Nat) (c : Cpu) : Prop where
  rsp : c.regs .rsp + BitVec.ofNat 64 d = sp
  bound : (top - sp).toNat + d < 2 ^ 64
  fresh : fresh ≤ d

namespace Below

variable {sp top : BitVec 64} {d fresh : Nat} {c c' : Cpu}

/-- What lies between the address and the end of the stack is on the stack. -/
theorem onStack (h : Below sp top d fresh c) {a : BitVec 64} (ha : (a - sp).toNat < (top - sp).toNat) :
    OnStack top c fresh a := by
  have hbound := h.bound
  have hfresh := h.fresh
  rw [← h.rsp] at ha hbound
  have hbyte := toNat_sub_of_add ha (by omega)
  have htop := toNat_sub_of_add (a := top) (p := c.regs .rsp) (k := d) (Nat.lt_succ_self _) (by omega)
  constructor
  · omega
  · omega

theorem toNat_top (h : Below sp top d fresh c) : (top - c.regs .rsp).toNat = d + (top - sp).toNat := by
  have hbound := h.bound
  rw [← h.rsp] at hbound ⊢
  exact toNat_sub_of_add (Nat.lt_succ_self _) (by omega)

/-- The stack pointer has moved, and not above the address. -/
theorem step (h : Below sp top d fresh c) (hroom : (top - c.regs .rsp).toNat < 2 ^ 63) {n : Int}
    (hsinks : Sinks n c c') {d' fresh' : Nat} (hd : (d' : Int) = d + n) (hfresh : fresh' ≤ d') :
    Below sp top d' fresh' c' where
  rsp := by
    have hsplit : BitVec.ofNat 64 d' = BitVec.ofNat 64 d + BitVec.ofInt 64 n := by
      rw [← BitVec.ofInt_natCast, hd, BitVec.ofInt_add, BitVec.ofInt_natCast]
    rw [hsinks.rsp, hsplit, BitVec.add_comm (BitVec.ofNat 64 d), ← BitVec.add_assoc, BitVec.sub_add_cancel, h.rsp]
  bound := by
    rw [h.toNat_top] at hroom
    have hbound := hsinks.bound
    omega
  fresh := hfresh

end Below

theorem reserved_le {l : Line} {t t' : Int} (h : l.track ⟨t, none⟩ = some ⟨t', none⟩) :
    l.reserved = 0 ∨ (l.reserved : Int) ≤ t' - t := by
  unfold Line.reserved
  split
  · rename_i v
    have ht : t + v.toInt = t' := congrArg Depth.top (Option.some.inj h)
    omega
  · exact .inl rfl

/-- An orderly run of code that keeps below where it starts, from any of its lines on. -/
theorem OrderlyFrom.keeps {ls : List Line} {a : Int} (hmoves : Moves (fun _ => False) a a ls)
    (hunique : (labelNames ls).Nodup) {sp top : BitVec 64} {fresh i : Nat} {c c' : Cpu}
    (h : OrderlyFrom env top ls fresh i c c') {d : Nat}
    (htrack : track (ls.take i) ⟨0 + a, none⟩ = some ⟨0 + a + d, none⟩) (hbelow : Below sp top d fresh c) :
    c'.regs .rsp = sp ∧ c'.regs .rbp = c.regs .rbp ∧
      ∀ x, (x - sp).toNat < (top - sp).toNat → c'.mem x = c.mem x := by
  induction h generalizing d with
  | done hi =>
    -- at the end nothing is left on the stack
    rw [List.take_of_length_le hi, hmoves.track] at htrack
    have hd : d = 0 := by
      have htop := congrArg Depth.top (Option.some.inj htrack)
      dsimp only at htop
      omega
    subst hd
    refine ⟨?_, rfl, fun _ _ => rfl⟩
    have hrsp := hbelow.rsp
    rwa [BitVec.add_zero] at hrsp
  | @next fresh i l c c1 c' hl heffect hroom hkept _ ih =>
    obtain ⟨d1, hd1⟩ := track_take (hmoves.track 0 none) (i + 1)
    have hstep : l.track ⟨0 + a + d, none⟩ = some d1 := by rw [← track_take_succ hl htrack, hd1]
    -- the depth after the line, whether or not it was the last one
    have hdepth : d1.base = none ∧ 0 + a ≤ d1.top := by
      cases hnext : ls[i + 1]? with
      | some l' =>
        obtain ⟨hbase, hlow⟩ := hmoves.low 0 none l' d1 (mem_trace_iff.2 ⟨i + 1, hnext, hd1⟩)
        exact ⟨hbase, by rwa [min_self] at hlow⟩
      | none =>
        rw [List.take_of_length_le (List.getElem?_eq_none_iff.mp hnext), hmoves.track] at hd1
        cases hd1
        exact ⟨rfl, Int.le_refl _⟩
    obtain ⟨t', base⟩ := d1
    obtain ⟨rfl, hlow⟩ := hdepth
    have hlow : 0 + a ≤ t' := hlow
    have hsinks := effect_track hstep heffect
    have hreserved := reserved_le hstep
    obtain ⟨d', rfl⟩ : ∃ d' : Nat, t' = 0 + a + d' := ⟨(t' - a).toNat, by omega⟩
    have hbelow' : Below sp top d' l.reserved c1 := hbelow.step hroom hsinks (by omega) (by omega)
    obtain ⟨hrsp, hrbp, hmem⟩ := ih hd1 hbelow'
    refine ⟨hrsp, hrbp.trans hsinks.rbp, fun x hx => ?_⟩
    rw [hmem x hx, hkept x (hbelow.onStack hx)]
  | @jump fresh i j l c c1 c' target hl heffect hlands _ ih =>
    obtain rfl := eq_of_effect_jump heffect
    have htrack' := depth_lands hmoves hunique hl (jump?_of_effect heffect) hlands htrack
    exact ih htrack' ⟨hbelow.rsp, hbelow.bound, Nat.zero_le d⟩

/-- After an orderly run of level code the pointers are as before, and so is what lies on the stack. -/
theorem Orderly.keeps {ls : List Line} {a : Int} (hmoves : Moves (fun _ => False) a a ls)
    (hunique : (labelNames ls).Nodup) {top : BitVec 64} {c c' : Cpu}
    (h : Orderly env top ls c c') :
    c'.regs .rsp = c.regs .rsp ∧ c'.regs .rbp = c.regs .rbp ∧
      ∀ x, (x - c.regs .rsp).toNat < (top - c.regs .rsp).toNat → c'.mem x = c.mem x := by
  have htrack : track (ls.take 0) ⟨0 + a, none⟩ = some ⟨0 + a + ((0 : Nat) : Int), none⟩ := by
    rw [Int.natCast_zero, Int.add_zero]
    rfl
  refine OrderlyFrom.keeps hmoves hunique h htrack ⟨?_, ?_, Nat.le_refl 0⟩
  · exact BitVec.add_zero _
  · exact (top - c.regs .rsp).isLt

end MiniC.X86
