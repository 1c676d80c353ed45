import MiniC.Proofs.Emit.BankRun
import MiniC.Proofs.Emit.Same
import MiniC.Proofs.X86.Pushed

/-!
# Values that live across a call

A function that is called keeps the integer registers of the bank and may change every float register. So the
floats that are live are pushed before the call and popped after it, and the stack is moved by a further word
if it would not be aligned. The arguments are in their registers by then. The register of the result is taken
only after the floats are back.

`CallOutcome` says what such a sequence comes to. The function may do as the calling convention lets it, with
the memory too, as long as it leaves alone the bytes between the stack pointer at the call and where the stack
pointer was before the floats were pushed.
-/

set_option autoImplicit false

namespace MiniC.Emit

open MiniC.X86 (Gpr Register Operand Instr Cpu Env Return Width keptGprs)
open MiniC.X86.Cpu (Pushed Popped Moved)

/-! ### Registers of the bank -/

/-- The word behind a handle. -/
def Reg.word (r : Reg) (c : Cpu) : BitVec 64 := r.register.word c

theorem Reg.word_of_float {r : Reg} (h : r.view = .float) (c : Cpu) : r.word c = c.xmms r.xmm := by
  rw [Reg.word, register_of_float h]
  rfl

theorem Reg.word_of_isInteger {r : Reg} (h : r.view.isInteger = true) (c : Cpu) : r.word c = c.regs r.gpr := by
  unfold Reg.word Reg.register
  cases hv : r.view with
  | float =>
    rw [hv] at h
    cases h
  | _ => rfl

theorem nodup_live (e : Emitter) : ((e.bank.val.live .float).map Reg.register).Nodup := by
  have hslots : (e.bank.val.live .float).Nodup := by
    refine List.Nodup.filterMap ?_ (List.Nodup.of_map Prod.snd (List.nodup_zipIdx_map_snd _))
    -- a handle says the slot it was made from, and that the slot is taken
    have hsaid : ∀ p : Bool × Nat, ∀ r, r ∈ (if p.1 then some (Reg.mk .float p.2) else none) →
        p = (true, r.slot) := by
      intro p r hr
      split at hr
      · rename_i htaken
        cases hr
        exact Prod.ext htaken rfl
      · cases hr
    intro p p' r hr hr'
    rw [hsaid p r hr, hsaid p' r hr']
  refine hslots.map_on fun r hr r' hr' heq => ?_
  obtain ⟨ht, hv⟩ := takes_of_mem_live hr
  obtain ⟨ht', hv'⟩ := takes_of_mem_live hr'
  rw [register_of_float hv, register_of_float hv', Register.xmm.injEq] at heq
  have hslot := xmm_inj (Emitter.slot_lt_of_takes ht) (Emitter.slot_lt_of_takes ht') heq
  cases r
  cases r'
  simp_all

/-! ### Pushing and popping -/

variable {env : Env} {c c1 c2 c' : Cpu}

theorem runs_pushCode (env : Env) (c : Cpu) (r : Reg) :
    ∃ c', c.runs env (pushCode r) = some c' ∧ Pushed [r.word c] c c' := by
  unfold pushCode
  split
  · rename_i hv
    rw [pushFloatCode, register_of_float hv, Reg.word_of_float hv]
    exact Cpu.runs_pushFloat env c r.xmm
  · rename_i hv
    rw [Reg.word_of_isInteger (isInteger_of_ne_float hv)]
    obtain ⟨c', hrun, hpushed⟩ := Cpu.run_push env c r.gpr
    exact ⟨c', Cpu.runs_single hrun, hpushed⟩

theorem runs_pushFloats (env : Env) (c : Cpu) {rs : List Reg} (hrs : ∀ r ∈ rs, r.view = .float)
    (hlen : 8 * rs.length ≤ 2 ^ 64) :
    ∃ c', c.runs env (rs.flatMap pushFloatCode) = some c' ∧ Pushed (rs.map (·.word c)).reverse c c' := by
  induction rs generalizing c with
  | nil => exact ⟨c, rfl, .refl c⟩
  | cons r rs ih =>
    obtain ⟨hv, hothers⟩ := List.forall_mem_cons.mp hrs
    rw [List.length_cons] at hlen
    obtain ⟨c1, hfirst, hpushed⟩ := runs_pushCode env c r
    obtain ⟨c2, hrest, hpushed'⟩ := ih c1 hothers (by omega)
    rw [pushCode, if_pos hv] at hfirst
    -- pushing changes no float register
    have hsame : rs.map (·.word c1) = rs.map (·.word c) := by
      refine List.map_congr_left fun r' hr' => ?_
      rw [Reg.word_of_float (hothers r' hr'), Reg.word_of_float (hothers r' hr'), hpushed.xmms]
    rw [hsame] at hpushed'
    refine ⟨c2, Cpu.runs_append_some hfirst hrest, ?_⟩
    rw [List.map_cons, List.reverse_cons]
    exact hpushed.trans hpushed' (by simpa using hlen)

theorem runs_popTargetCode (env : Env) (c : Cpu) {target : Register} (h : target.IsTarget) :
    ∃ c', c.runs env (popTargetCode target) = some c' ∧ Popped [target] c c' := by
  cases target with
  | xmm i => exact Cpu.runs_popFloat env c i
  | gpr g w =>
    obtain ⟨rfl, hg⟩ := h
    obtain ⟨c', hrun, hpopped⟩ := Cpu.run_pop env c hg
    exact ⟨c', Cpu.runs_single hrun, hpopped⟩

/-- Words are popped into different registers, the last register first. -/
theorem runs_popTargets (env : Env) (c : Cpu) {targets : List Register} (h : ∀ t ∈ targets, t.IsTarget)
    (hnodup : targets.Nodup) : ∃ c', c.runs env (popTargetsCode targets) = some c' ∧ Popped targets c c' := by
  induction targets with
  | nil => exact ⟨c, rfl, .refl c⟩
  | cons target targets ih =>
    obtain ⟨ht, hothers⟩ := List.forall_mem_cons.mp h
    obtain ⟨hnot, hnodup⟩ := List.nodup_cons.mp hnodup
    obtain ⟨c1, hrest, hpopped⟩ := ih hothers hnodup
    obtain ⟨c2, hlast, hpopped'⟩ := runs_popTargetCode env c1 ht
    have hcode : popTargetsCode (target :: targets) = popTargetsCode targets ++ popTargetCode target := by
      simp [popTargetsCode]
    rw [hcode]
    exact ⟨c2, Cpu.runs_append_some hrest hlast, hpopped.cons hpopped' hnot hothers⟩

theorem popFloatsCode_eq {rs : List Reg} (h : ∀ r ∈ rs, r.view = .float) :
    popFloatsCode rs = popTargetsCode (rs.map Reg.register) := by
  rw [popFloatsCode, popTargetsCode, ← List.map_reverse, List.flatMap_map]
  refine List.flatMap_congr fun r hr => ?_
  rw [popFloatCode, register_of_float (h r (List.mem_reverse.mp hr))]
  rfl

/-! ### Around a call -/

/-- The instructions before a call: the live floats pushed, and the stack aligned. -/
def spillCode (e : Emitter) : List Instr :=
  (e.bank.val.live .float).flatMap pushFloatCode ++
    if callPadding e ≠ 0 then [.alu .sub .quad (.imm (Int64.ofNat (callPadding e))) (.quad .rsp)] else []

/-- The instructions after a call, which undo this. -/
def reloadCode (e : Emitter) : List Instr :=
  (if callPadding e ≠ 0 then [.alu .add .quad (.imm (Int64.ofNat (callPadding e))) (.quad .rsp)] else []) ++
    popFloatsCode (e.bank.val.live .float)

theorem callCode_eq (e : Emitter) (name : String) :
    callCode e name = spillCode e ++ .call name :: reloadCode e := by
  simp [callCode, spillCode, reloadCode]

/-- How many bytes the stack is lower at a call than before the live floats are pushed. -/
def spillBytes (e : Emitter) : Nat := callPadding e + 8 * (e.bank.val.live .float).length

theorem sixteen_dvd_spillBytes (e : Emitter) : 16 ∣ 8 * e.pushed + spillBytes e := by
  unfold spillBytes callPadding wordBytes stackAlign
  omega

theorem length_live_le (e : Emitter) : (e.bank.val.live .float).length ≤ 4 := by
  have hcount := List.count_le_length (a := true) (l := e.bank.val.status .float)
  rw [e.bank.property.length_status] at hcount
  rw [Bank.length_live]
  exact hcount

theorem spillBytes_lt (e : Emitter) : spillBytes e < 64 := by
  have hlen := length_live_le e
  unfold spillBytes callPadding wordBytes stackAlign
  omega

/-- The stack pointer is moved if there is something to move it by. -/
theorem runs_align (env : Env) (c : Cpu) (n : Nat) :
    (∃ c', c.runs env (if n ≠ 0 then [.alu .sub .quad (.imm (Int64.ofNat n)) (.quad .rsp)] else []) = some c' ∧
      Moved (c.regs .rsp - BitVec.ofNat 64 n) c c') ∧
    ∃ c', c.runs env (if n ≠ 0 then [.alu .add .quad (.imm (Int64.ofNat n)) (.quad .rsp)] else []) = some c' ∧
      Moved (c.regs .rsp + BitVec.ofNat 64 n) c c' := by
  by_cases hn : n = 0
  · subst hn
    exact ⟨⟨c, rfl, by simp, fun _ _ => rfl, rfl, rfl⟩, c, rfl, by simp, fun _ _ => rfl, rfl, rfl⟩
  · obtain ⟨c1, hgrow, hmoved⟩ := Cpu.run_grow env c n
    obtain ⟨c2, hshrink, hmoved'⟩ := Cpu.run_shrink env c n
    rw [if_pos hn, if_pos hn]
    exact ⟨⟨c1, Cpu.runs_single hgrow, hmoved⟩, c2, Cpu.runs_single hshrink, hmoved'⟩

/-- The machine at a call: the live floats are on the stack too. -/
structure Spilled (e : Emitter) (c c1 : Cpu) : Prop where
  rsp : c1.regs .rsp = c.regs .rsp - BitVec.ofNat 64 (spillBytes e)
  regs : ∀ g, g ≠ .rsp → c1.regs g = c.regs g
  xmms : c1.xmms = c.xmms
  words : c1.mem.words (c1.regs .rsp + BitVec.ofNat 64 (callPadding e)) (e.bank.val.live .float).length =
    ((e.bank.val.live .float).map (·.word c)).reverse
  mem : ∀ a, spillBytes e ≤ (a - c1.regs .rsp).toNat → c1.mem a = c.mem a

theorem runs_spillCode (env : Env) (c : Cpu) (e : Emitter) :
    ∃ c1, c.runs env (spillCode e) = some c1 ∧ Spilled e c c1 := by
  have hviews : ∀ r ∈ e.bank.val.live .float, r.view = .float := fun r hr => (takes_of_mem_live hr).2
  have hlen := length_live_le e
  obtain ⟨c0, hpush, hpushed⟩ := runs_pushFloats env c hviews (by omega)
  obtain ⟨c1, halign, hmoved⟩ := (runs_align env c0 (callPadding e)).1
  refine ⟨c1, Cpu.runs_append_some hpush halign, ?_⟩
  have hbase : c1.regs .rsp + BitVec.ofNat 64 (callPadding e) = c0.regs .rsp := by
    rw [hmoved.rsp, BitVec.sub_add_cancel]
  have hwords := hpushed.words
  have hmem := hpushed.mem
  simp only [List.length_reverse, List.length_map] at hwords hmem
  refine ⟨?_, fun g hg => ?_, hmoved.xmms.trans hpushed.xmms, ?_, fun a ha => ?_⟩
  · rw [hmoved.rsp, hpushed.rsp, spillBytes, Nat.add_comm, BitVec.ofNat_add, BitVec.sub_sub]
    simp only [List.length_reverse, List.length_map]
  · rw [hmoved.regs g hg, hpushed.regs g hg]
  · rw [hbase, hmoved.mem]
    exact hwords
  · -- a byte above both the padding and the floats
    unfold spillBytes at ha
    have hdistance := X86.toNat_sub_add (a := a) (p := c1.regs .rsp) (k := callPadding e) (by omega)
    rw [hbase] at hdistance
    rw [hmoved.mem]
    exact hmem a (by omega)

/-- Floats that lie on the stack above the padding get back into their registers. -/
theorem runs_reloadCode (env : Env) (c : Cpu) (e : Emitter) {word : Reg → BitVec 64}
    (hwords : c.mem.words (c.regs .rsp + BitVec.ofNat 64 (callPadding e)) (e.bank.val.live .float).length =
      ((e.bank.val.live .float).map word).reverse) :
    ∃ c', c.runs env (reloadCode e) = some c' ∧
      c'.regs .rsp = c.regs .rsp + BitVec.ofNat 64 (spillBytes e) ∧
      (∀ g, g ≠ .rsp → c'.regs g = c.regs g) ∧
      (∀ r ∈ e.bank.val.live .float, r.word c' = word r) ∧
      (∀ i, i ∉ valueXmms → c'.xmms i = c.xmms i) ∧ c'.mem = c.mem := by
  have hviews : ∀ r ∈ e.bank.val.live .float, r.view = .float := fun r hr => (takes_of_mem_live hr).2
  have htargets : ∀ t ∈ (e.bank.val.live .float).map Reg.register, t.IsTarget := by
    intro t ht
    obtain ⟨r, hr, rfl⟩ := List.mem_map.mp ht
    rw [register_of_float (hviews r hr)]
    trivial
  obtain ⟨c1, halign, hmoved⟩ := (runs_align env c (callPadding e)).2
  obtain ⟨c', hpop, hpopped⟩ := runs_popTargets env c1 htargets (nodup_live e)
  rw [← popFloatsCode_eq hviews] at hpop
  refine ⟨c', Cpu.runs_append_some halign hpop, ?_, fun g hg => ?_, fun r hr => ?_, fun i hi => ?_, ?_⟩
  · rw [hpopped.rsp, hmoved.rsp, List.length_map, BitVec.add_assoc, ← BitVec.ofNat_add, spillBytes]
  · rw [hpopped.regs g hg, hmoved.regs g hg]
    intro hmem
    obtain ⟨r, hr, heq⟩ := List.mem_map.mp hmem
    rw [register_of_float (hviews r hr)] at heq
    cases heq
  · -- what was popped is what was read off the stack, register by register
    have hall := hpopped.words
    rw [List.length_map, hmoved.mem, hmoved.rsp, hwords, List.reverse_reverse, List.map_map] at hall
    exact List.map_inj_left.mp hall r hr
  · rw [hpopped.xmms, hmoved.xmms]
    intro hmem
    obtain ⟨r, hr, heq⟩ := List.mem_map.mp hmem
    rw [register_of_float (hviews r hr), Register.xmm.injEq] at heq
    exact hi (heq ▸ r.xmm_mem)
  · rw [hpopped.mem, hmoved.mem]

/-- The machine after a call, with the floats back: the registers of the result are as the function left
them. -/
structure Returned (e : Emitter) (ret : Return) (c c' : Cpu) : Prop where
  kept : ∀ g ∈ keptGprs, c'.regs g = c.regs g
  floats : ∀ r ∈ e.bank.val.live .float, r.word c' = r.word c
  rax : c'.regs .rax = ret.gprs .rax
  xmm : c'.xmms resultXmm = ret.xmms resultXmm
  mem : c'.mem = ret.mem

/-- A function that is called leaves the bytes alone that were saved for it. -/
def Spares (c1 : Cpu) (ret : Return) (bytes : Nat) : Prop :=
  ∀ a, (a - c1.regs .rsp).toNat < bytes → ret.mem a = c1.mem a

theorem runs_call {e : Emitter} (hspilled : Spilled e c c1) {name : String} {ret : Return}
    (hret : env.call (c1.calling name) = some ret) (hspares : Spares c1 ret (spillBytes e)) :
    ∃ c', c1.runs env (.call name :: reloadCode e) = some c' ∧ Returned e ret c c' := by
  have hbytes := spillBytes_lt e
  have hrsp : (c1.returned ret).regs .rsp = c1.regs .rsp := rfl
  -- the floats are still on the stack
  have hwords : (c1.returned ret).mem.words ((c1.returned ret).regs .rsp + BitVec.ofNat 64 (callPadding e))
      (e.bank.val.live .float).length = ((e.bank.val.live .float).map (·.word c)).reverse := by
    rw [← hspilled.words, hrsp]
    apply X86.Memory.words_congr (by unfold spillBytes at hbytes; omega)
    intro a ha
    have hdistance := X86.toNat_sub_of_add ha (by unfold spillBytes at hbytes; omega)
    exact hspares a (by unfold spillBytes; omega)
  obtain ⟨c', hrun, hrsp', hregs, hfloats, hxmms, hmem⟩ := runs_reloadCode env (c1.returned ret) e hwords
  refine ⟨c', ?_, fun g hg => ?_, hfloats, ?_, ?_, hmem⟩
  · have hcall : c1.run env (.call name) = some (c1.returned ret) := by
      show (env.call (c1.calling name)).map c1.returned = _
      rw [hret]
      rfl
    rw [Cpu.runs, hcall]
    exact hrun
  · by_cases hg' : g = .rsp
    · subst hg'
      rw [hrsp', hrsp, hspilled.rsp, BitVec.sub_add_cancel]
    · have hreturned : (c1.returned ret).regs g = c1.regs g := if_pos hg
      rw [hregs g hg', hreturned, hspilled.regs g hg']
  · exact hregs .rax (by decide)
  · exact hxmms resultXmm (by decide)

/-! ### The result -/

/-- The word that a function returned, extended from the width of its type. -/
def returnedWord (type : CType) (ret : Return) : BitVec 64 :=
  match type with
  | .scalar .float => ret.xmms resultXmm
  | .scalar .int => Width.long.sext (ret.gprs .rax)
  | .scalar .char => Width.byte.zext (ret.gprs .rax)
  | _ => ret.gprs .rax

/-- A word has been put into one register of the bank. -/
structure Loaded (r : Reg) (v : BitVec 64) (c c' : Cpu) : Prop where
  word : r.word c' = v
  regs : ∀ g, r.view = .float ∨ g ≠ r.gpr → c'.regs g = c.regs g
  xmms : ∀ i, r.view ≠ .float ∨ i ≠ r.xmm → c'.xmms i = c.xmms i
  mem : c'.mem = c.mem

theorem loaded_float {r : Reg} (h : r.view = .float) (c : Cpu) (v : BitVec 64) :
    Loaded r v c (c.setFloat r.xmm v) where
  word := by
    rw [Reg.word_of_float h]
    exact Function.update_self _ _ _
  regs := fun _ _ => rfl
  xmms := by
    intro i hi
    exact Function.update_of_ne (hi.resolve_left fun hne => hne h) _ _
  mem := rfl

theorem loaded_gpr {r : Reg} (h : r.view.isInteger = true) (c : Cpu) (v : BitVec 64) :
    Loaded r v c (c.withMachine (c.toMachine.set r.gpr v)) where
  word := by
    rw [Reg.word_of_isInteger h]
    exact Function.update_self _ _ _
  regs := by
    intro g hg
    refine Function.update_of_ne (hg.resolve_left fun hf => ?_) _ _
    rw [hf] at h
    cases h
  xmms := fun _ _ => rfl
  mem := rfl

theorem Loaded.word_of_ne {r r' : Reg} {v : BitVec 64} (h : Loaded r v c c') (hslot : r.slot < 4)
    (hslot' : r'.slot < 4) (hne : r'.cell ≠ r.cell) : r'.word c' = r'.word c := by
  by_cases hv' : r'.view = .float
  · rw [Reg.word_of_float hv', Reg.word_of_float hv']
    refine h.xmms _ ?_
    by_cases hv : r.view = .float
    · refine .inr fun heq => hne ?_
      rw [Reg.cell_of_float hv', Reg.cell_of_float hv, xmm_inj hslot' hslot heq]
    · exact .inl hv
  · have hi' := isInteger_of_ne_float hv'
    rw [Reg.word_of_isInteger hi', Reg.word_of_isInteger hi']
    refine h.regs _ ?_
    by_cases hv : r.view = .float
    · exact .inl hv
    · refine .inr fun heq => hne ?_
      rw [Reg.cell_eq_of_isInteger hi', Reg.cell_eq_of_isInteger (isInteger_of_ne_float hv),
        gpr_inj hslot' hslot heq]

theorem runs_resultInstr (env : Env) {type : CType} {r : Reg} (hv : r.view = type.word) {ret : Return}
    (hrax : c.regs .rax = ret.gprs .rax) (hxmm : c.xmms resultXmm = ret.xmms resultXmm) :
    ∃ c', c.runs env [resultInstr type r] = some c' ∧ Loaded r (returnedWord type ret) c c' := by
  have hwhole : r.view.isInteger = true →
      ∃ c', c.runs env [.mov .quad (.quad .rax) (.quad r.gpr)] = some c' ∧ Loaded r (ret.gprs .rax) c c' := by
    intro hi
    rw [← hrax]
    exact ⟨_, rfl, loaded_gpr hi c _⟩
  cases type with
  | void => exact hwhole (by rw [hv]; rfl)
  | pointer t => exact hwhole (by rw [hv]; rfl)
  | array t n => exact hwhole (by rw [hv]; rfl)
  | scalar t =>
    cases t with
    | long => exact hwhole (by rw [hv]; rfl)
    | float =>
      rw [returnedWord, ← hxmm]
      exact ⟨_, rfl, loaded_float hv c _⟩
    | int =>
      -- the low part is read with zeros above it, which the sign replaces
      rw [returnedWord, ← hrax, ← X86.sext_zext]
      exact ⟨_, rfl, loaded_gpr (by rw [hv]; rfl) c _⟩
    | char =>
      rw [returnedWord, ← hrax]
      exact ⟨_, rfl, loaded_gpr (by rw [hv]; rfl) c _⟩

/-! ### Calls -/

/-- The machine at a call whose code is entered with `c`: the stack is some bytes below where it was, less the
words that were popped, and the memory has changed only there. -/
structure AtCall (popped bytes : Nat) (c c1 : Cpu) : Prop where
  rsp : c1.regs .rsp = c.regs .rsp + BitVec.ofNat 64 (8 * popped) - BitVec.ofNat 64 bytes
  rbp : c1.regs .rbp = c.regs .rbp
  mem : ∀ a, bytes ≤ (a - c1.regs .rsp).toNat → c1.mem a = c.mem a

/-- The machine when the code of a call is left with the emitter in state `e'`. -/
structure AfterCall (type : CType) (popped : Nat) (e' : Emitter) (result : Option Reg) (ret : Return)
    (c c' : Cpu) : Prop where
  rsp : c'.regs .rsp = c.regs .rsp + BitVec.ofNat 64 (8 * popped)
  rbp : c'.regs .rbp = c.regs .rbp
  mem : c'.mem = ret.mem
  /-- Every register that is live then, other than the result, holds what it did before. -/
  live : ∀ r : Reg, e'.Takes r.cell → r.cell ∉ result.map Reg.cell → r.word c' = r.word c
  value : ∀ r ∈ result, r.word c' = returnedWord type ret

/-- The code of a call, which takes the emitter from `e` to `e'`. Whatever machine it is entered with, it gets to
the call, with words in the registers that carry arguments; and if the function returns, to its end. -/
def CallRuns (name : String) (type : CType) (popped : Nat) (passed : Cpu → List (Register × BitVec 64))
    (e : Emitter) (result : Option Reg) (e' : Emitter) : Prop :=
  ∃ before after bytes, e'.text = (e.emit (before ++ .call name :: after)).text ∧
    16 ∣ 8 * e'.pushed + bytes ∧
    ∀ env c, ∃ c1, c.runs env before = some c1 ∧ AtCall popped bytes c c1 ∧
      (∀ p ∈ passed c, p.1.word c1 = p.2) ∧
      ∀ ret, env.call (c1.calling name) = some ret → Spares c1 ret bytes →
        ∃ c', c.runs env (before ++ .call name :: after) = some c' ∧
          AfterCall type popped e' result ret c c'

/-- What a call comes to. Before it the registers `given` are given back and `popped` words are taken off the
stack; `passed c` are the registers that carry arguments, with the words that they hold at the call if the
code is entered with `c`. -/
structure CallOutcome (name : String) (type : CType) (given : List Reg) (popped : Nat)
    (passed : Cpu → List (Register × BitVec 64)) (e : Emitter) (result : Option Reg) (e' : Emitter) : Prop where
  pushed : e'.pushed + popped = e.pushed
  takes : ∀ cell, e'.Takes cell ↔
    (e.Takes cell ∧ cell ∉ given.map Reg.cell) ∨ cell ∈ result.map Reg.cell
  /-- The register of the result was not live, or has been given back. -/
  fresh : ∀ r ∈ result, e.Takes r.cell → r.cell ∈ given.map Reg.cell
  view : result.map Reg.view = if type.isVoid then none else some type.word
  runs : CallRuns name type popped passed e result e'

/-- The machine when the arguments are in their registers, before the live floats are pushed. -/
structure Prepared (popped : Nat) (e1 : Emitter) (passed : List (Register × BitVec 64)) (c c0 : Cpu) :
    Prop where
  rsp : c0.regs .rsp = c.regs .rsp + BitVec.ofNat 64 (8 * popped)
  rbp : c0.regs .rbp = c.regs .rbp
  mem : c0.mem = c.mem
  live : ∀ r : Reg, e1.Takes r.cell → r.word c0 = r.word c
  passed : ∀ p ∈ passed, p.1.IsTarget ∧ p.1.word c0 = p.2

namespace Prepared

variable {popped : Nat} {e1 : Emitter} {passed : List (Register × BitVec 64)} {c0 : Cpu}

theorem atCall (h : Prepared popped e1 passed c c0) (hspilled : Spilled e1 c0 c1) :
    AtCall popped (spillBytes e1) c c1 where
  rsp := by rw [hspilled.rsp, h.rsp]
  rbp := by rw [hspilled.regs .rbp (by decide), h.rbp]
  mem := by
    intro a ha
    rw [hspilled.mem a ha, h.mem]

/-- The registers of arguments are not touched by pushing floats. -/
theorem passed_atCall (h : Prepared popped e1 passed c c0) (hspilled : Spilled e1 c0 c1) :
    ∀ p ∈ passed, p.1.word c1 = p.2 := by
  intro p hp
  obtain ⟨htarget, hword⟩ := h.passed p hp
  rw [← hword]
  cases hregister : p.1 with
  | xmm i =>
    show c1.xmms i = c0.xmms i
    rw [hspilled.xmms]
  | gpr g w =>
    rw [hregister] at htarget
    exact hspilled.regs g htarget.2

/-- Live values are back after the call: integers were kept by the function, floats were on the stack. -/
theorem live_returned (h : Prepared popped e1 passed c c0) {ret : Return} (hreturned : Returned e1 ret c0 c')
    {r : Reg} (hr : e1.Takes r.cell) : r.word c' = r.word c := by
  by_cases hv : r.view = .float
  · have hmem := mem_live_of_takes hr
    rw [hv] at hmem
    rw [hreturned.floats r hmem, h.live r hr]
  · have hi := isInteger_of_ne_float hv
    have hkept : ∀ g ∈ valueGprs, g ∈ keptGprs := by decide
    rw [← h.live r hr, Reg.word_of_isInteger hi, Reg.word_of_isInteger hi]
    exact hreturned.kept _ (hkept _ (gpr_mem_valueGprs r))

end Prepared

variable {s : Setting} {e e1 e2 e' : Emitter} {type : CType} {result : Option Reg}

/-- Taking a result gives no register, or one that was free. -/
theorem takeResult_cases (h : exec (takeResult type) s e = (.ok result, e')) :
    (type.isVoid = true ∧ result = none ∧ e' = e) ∨
      ∃ r, type.isVoid = false ∧ e.fresh? type.word = some r ∧ result = some r ∧
        e' = (e.take r).emit [resultInstr type r] := by
  by_cases ht : type.isVoid = true
  · rw [exec_takeResult_void ht] at h
    cases h
    exact .inl ⟨ht, rfl, rfl⟩
  · have ht := Bool.eq_false_iff.mpr ht
    rw [exec_takeResult ht] at h
    cases hfresh : e.fresh? type.word with
    | none =>
      rw [hfresh] at h
      cases h
    | some r =>
      rw [hfresh] at h
      cases h
      exact .inr ⟨r, ht, rfl, rfl, rfl⟩

section Outcome

variable {name : String} {given : List Reg} {popped : Nat} {passed : Cpu → List (Register × BitVec 64)}
  {pre : List Instr}

/-- The code that gets the arguments into their registers, the code around the call, and the instructions `last`
that move the result. -/
theorem callRuns_of_last {last : List Instr} (htext : e1.text = (e.emit pre).text)
    (hpre : ∀ env c, ∃ c0, c.runs env pre = some c0 ∧ Prepared popped e1 (passed c) c c0)
    (hlast : e'.text = ((e1.emit (callCode e1 name)).emit last).text) (hpushed : e'.pushed = e1.pushed)
    (hafter : ∀ env c c0 c2 ret, Prepared popped e1 (passed c) c c0 → Returned e1 ret c0 c2 →
      ∃ c', c2.runs env last = some c' ∧ AfterCall type popped e' result ret c c') :
    CallRuns name type popped passed e result e' := by
  refine ⟨pre ++ spillCode e1, reloadCode e1 ++ last, spillBytes e1, ?_, ?_, fun env c => ?_⟩
  · rw [hlast, callCode_eq]
    simp [htext]
  · rw [hpushed]
    exact sixteen_dvd_spillBytes e1
  · obtain ⟨c0, hrun0, hprepared⟩ := hpre env c
    obtain ⟨c1, hrun1, hspilled⟩ := runs_spillCode env c0 e1
    have hbefore := Cpu.runs_append_some hrun0 hrun1
    refine ⟨c1, hbefore, hprepared.atCall hspilled, hprepared.passed_atCall hspilled,
      fun ret hret hspares => ?_⟩
    obtain ⟨c2, hrun2, hreturned⟩ := runs_call hspilled hret hspares
    obtain ⟨c', hrun', hdone⟩ := hafter env c c0 c2 ret hprepared hreturned
    have hrest := Cpu.runs_append_some hrun2 hrun'
    exact ⟨c', Cpu.runs_append_some hbefore hrest, hdone⟩

/-- A call without a result ends where the floats are back. -/
theorem afterCall_none {c0 : Cpu} {ret : Return} (hprepared : Prepared popped e1 (passed c) c c0)
    (hreturned : Returned e1 ret c0 c2) {is : List Instr} :
    AfterCall type popped (e1.emit is) none ret c c2 where
  rsp := by rw [hreturned.kept .rsp (by decide), hprepared.rsp]
  rbp := by rw [hreturned.kept .rbp (by decide), hprepared.rbp]
  mem := hreturned.mem
  live := fun _ hr _ => hprepared.live_returned hreturned hr
  value := by
    intro r hr
    cases hr

/-- A result goes into a register that is free, so that what is live stays. -/
theorem afterCall_some {c0 : Cpu} {ret : Return} {r : Reg} (hprepared : Prepared popped e1 (passed c) c c0)
    (hreturned : Returned e1 ret c0 c2) (hfresh : e1.fresh? type.word = some r)
    (hloaded : Loaded r (returnedWord type ret) c2 c') {is is' : List Instr} :
    AfterCall type popped (((e1.emit is).take r).emit is') (some r) ret c c' := by
  -- neither pointer to the stack is a register of the bank
  obtain ⟨-, hbase, htop⟩ := r.gpr_not_mem
  have hslot : r.slot < 4 := Emitter.slot_lt_of_takes (takes_take_self hfresh)
  refine ⟨?_, ?_, hloaded.mem.trans hreturned.mem, fun r' hr' hne => ?_, fun _ hr' => ?_⟩
  · rw [hloaded.regs _ (.inr htop.symm), hreturned.kept .rsp (by decide), hprepared.rsp]
  · rw [hloaded.regs _ (.inr hbase.symm), hreturned.kept .rbp (by decide), hprepared.rbp]
  · have hcell : r'.cell ≠ r.cell := fun heq => hne (by simp [heq])
    have hfresh' : (e1.emit is).fresh? type.word = some r := hfresh
    rw [Emitter.takes_emit, Emitter.takes_take hfresh', Emitter.takes_emit] at hr'
    have hlive := hr'.resolve_left hcell
    rw [hloaded.word_of_ne hslot (Emitter.slot_lt_of_takes hlive) hcell]
    exact hprepared.live_returned hreturned hlive
  · cases hr'
    exact hloaded.word

/-- From the way the arguments get into their registers to the call as a whole. -/
theorem callOutcome_of_takeResult
    (h : exec (takeResult type) s (e1.emit (callCode e1 name)) = (.ok result, e'))
    (htext : e1.text = (e.emit pre).text) (hpushed : e1.pushed + popped = e.pushed)
    (htakes : ∀ cell, e1.Takes cell ↔ e.Takes cell ∧ cell ∉ given.map Reg.cell)
    (hpre : ∀ env c, ∃ c0, c.runs env pre = some c0 ∧ Prepared popped e1 (passed c) c c0) :
    CallOutcome name type given popped passed e result e' := by
  rcases takeResult_cases h with ⟨ht, rfl, rfl⟩ | ⟨r, ht, hfresh, rfl, rfl⟩
  · refine ⟨hpushed, fun cell => ?_, fun _ hr => ?_, by simp [ht], ?_⟩
    · rw [Emitter.takes_emit, htakes]
      simp
    · cases hr
    · have hend : (e1.emit (callCode e1 name)).text = ((e1.emit (callCode e1 name)).emit []).text := by simp
      refine callRuns_of_last htext hpre hend rfl ?_
      intro env c c0 c2 ret hprepared hreturned
      exact ⟨c2, rfl, afterCall_none hprepared hreturned⟩
  · obtain ⟨hview, hnot, -⟩ := Emitter.of_fresh? hfresh
    refine ⟨hpushed, fun cell => ?_, fun _ hr hlive => ?_, by simp [ht, hview], ?_⟩
    · rw [Emitter.takes_emit, Emitter.takes_take hfresh, Emitter.takes_emit, htakes]
      simp only [Option.map_some, Option.mem_def, Option.some.injEq]
      rw [or_comm, eq_comm]
    · cases hr
      by_contra hgiven
      exact hnot ((htakes _).mpr ⟨hlive, hgiven⟩)
    · refine callRuns_of_last htext hpre rfl rfl ?_
      intro env c c0 c2 ret hprepared hreturned
      obtain ⟨c', hrun, hloaded⟩ := runs_resultInstr env hview hreturned.rax hreturned.xmm
      exact ⟨c', hrun, afterCall_some hprepared hreturned hfresh hloaded⟩

end Outcome

/-! ### Arguments -/

/-- A register that no value of the bank is in, and that does not hold the stack together. -/
def IsOutside : Register → Prop
  | .gpr g w => w = .quad ∧ g ∉ valueGprs ∧ g ≠ .rsp ∧ g ≠ .rbp
  | .xmm i => i ∉ valueXmms

theorem IsOutside.isTarget {target : Register} (h : IsOutside target) : target.IsTarget := by
  cases target with
  | gpr g w => exact ⟨h.1, h.2.2.1⟩
  | xmm i => trivial

theorem isOutside_of_assign {views : List Scalar} {targets : List Register}
    (h : assignArguments views = .ok targets) : ∀ t ∈ targets, IsOutside t := by
  have hgprs : ∀ g ∈ argumentGprs, g ∉ valueGprs ∧ g ≠ .rsp ∧ g ≠ .rbp := by decide
  have hxmms : ∀ i ∈ argumentXmms, i ∉ valueXmms := by decide
  intro t ht
  rcases mem_of_assignFrom h t ht with ⟨g, hg, rfl⟩ | ⟨i, hi, rfl⟩
  · exact ⟨rfl, hgprs g hg⟩
  · exact hxmms i hi

theorem Assigned.nodup {gprs : List Gpr} {xmms : List (Fin 16)} {views : List Scalar} {targets : List Register}
    (h : Assigned gprs xmms views targets) (hgprs : gprs.Nodup) (hxmms : xmms.Nodup) : targets.Nodup := by
  induction h with
  | nil => exact List.nodup_nil
  | integer _ h ih =>
    obtain ⟨hg, hgprs⟩ := List.nodup_cons.mp hgprs
    refine List.nodup_cons.mpr ⟨fun hmem => ?_, ih hgprs hxmms⟩
    rcases h.mem _ hmem with ⟨g, hmem', heq⟩ | ⟨i, _, heq⟩
    · cases heq
      exact hg hmem'
    · cases heq
  | float h ih =>
    obtain ⟨hi, hxmms⟩ := List.nodup_cons.mp hxmms
    refine List.nodup_cons.mpr ⟨fun hmem => ?_, ih hgprs hxmms⟩
    rcases h.mem _ hmem with ⟨g, _, heq⟩ | ⟨i, hmem', heq⟩
    · cases heq
    · cases heq
      exact hi hmem'

theorem nodup_of_assign {views : List Scalar} {targets : List Register}
    (h : assignArguments views = .ok targets) : targets.Nodup :=
  (assigned_of_assignFrom h).nodup (by decide) (by decide)

theorem runs_moveOut (env : Env) (c : Cpu) (r : Reg) {target : Register} (h : IsOutside target)
    (hkind : (∃ i, target = .xmm i) ↔ r.view = .float) :
    ∃ c0, c.runs env [moveOutInstr r target] = some c0 ∧ target.word c0 = r.word c ∧
      (∀ g, .quad g ≠ target → c0.regs g = c.regs g) ∧ (∀ i, .xmm i ≠ target → c0.xmms i = c.xmms i) ∧
      c0.mem = c.mem := by
  unfold moveOutInstr
  cases target with
  | xmm i =>
    have hv := hkind.mp ⟨i, rfl⟩
    rw [if_pos hv, Reg.word_of_float hv]
    refine ⟨c.setFloat i (c.xmms r.xmm), rfl, Function.update_self _ _ _, fun _ _ => rfl, fun j hj => ?_, rfl⟩
    exact Function.update_of_ne (fun heq => hj (by rw [heq])) _ _
  | gpr g w =>
    obtain ⟨rfl, -⟩ := h
    have hv : r.view ≠ .float := by
      intro hv
      obtain ⟨i, hi⟩ := hkind.mpr hv
      cases hi
    rw [if_neg hv, Reg.word_of_isInteger (isInteger_of_ne_float hv)]
    refine ⟨c.withMachine (c.toMachine.set g (c.regs r.gpr)), rfl, Function.update_self _ _ _, fun g' hg' => ?_,
      fun _ _ => rfl, rfl⟩
    exact Function.update_of_ne (fun heq => hg' (by rw [heq])) _ _

/-- What happens outside the bank does not change its words. -/
theorem Reg.word_congr {r : Reg} (hregs : ∀ g ∈ valueGprs, c'.regs g = c.regs g)
    (hxmms : ∀ i ∈ valueXmms, c'.xmms i = c.xmms i) : r.word c' = r.word c := by
  by_cases hv : r.view = .float
  · rw [Reg.word_of_float hv, Reg.word_of_float hv, hxmms _ r.xmm_mem]
  · have hi := isInteger_of_ne_float hv
    rw [Reg.word_of_isInteger hi, Reg.word_of_isInteger hi, hregs _ (gpr_mem_valueGprs r)]

/-- A machine that differs only in registers outside the bank, with the stack as it was. -/
theorem prepared_of_outside {c0 : Cpu} {passed : List (Register × BitVec 64)} (e1 : Emitter)
    (hregs : ∀ g, g ∈ valueGprs ∨ g = .rsp ∨ g = .rbp → c0.regs g = c.regs g)
    (hxmms : ∀ i ∈ valueXmms, c0.xmms i = c.xmms i) (hmem : c0.mem = c.mem)
    (hpassed : ∀ p ∈ passed, p.1.IsTarget ∧ p.1.word c0 = p.2) : Prepared 0 e1 passed c c0 where
  rsp := by
    rw [hregs .rsp (.inr (.inl rfl))]
    simp
  rbp := hregs .rbp (.inr (.inr rfl))
  mem := hmem
  live := fun _ _ => Reg.word_congr (fun g hg => hregs g (.inl hg)) hxmms
  passed := hpassed

/-- A register of the bank, or one that holds the stack together, is no other register. -/
theorem IsOutside.ne {target : Register} (h : IsOutside target) {g : Gpr}
    (hg : g ∈ valueGprs ∨ g = .rsp ∨ g = .rbp) : .quad g ≠ target := by
  rintro rfl
  obtain ⟨-, hbank, hrsp, hrbp⟩ := h
  rcases hg with hg | hg | hg
  · exact hbank hg
  · exact hrsp hg
  · exact hrbp hg

theorem prepared_sole (env : Env) (c : Cpu) (r : Reg) (e1 : Emitter) :
    ∃ c0, c.runs env [moveOutInstr r (soleTarget r.view)] = some c0 ∧
      Prepared 0 e1 [(soleTarget r.view, r.word c)] c c0 := by
  have houtside : IsOutside (soleTarget r.view) :=
    isOutside_of_assign (assignArguments_sole r.view) _ List.mem_cons_self
  have hkind : (∃ i, soleTarget r.view = .xmm i) ↔ r.view = .float := by
    cases r.view <;> simp [soleTarget, Scalar.isInteger]
  obtain ⟨c0, hrun, hword, hregs, hxmms, hmem⟩ := runs_moveOut env c r houtside hkind
  refine ⟨c0, hrun, prepared_of_outside e1 (fun g hg => hregs g (houtside.ne hg)) (fun i hi => ?_) hmem ?_⟩
  · refine hxmms i fun heq => ?_
    rw [← heq] at houtside
    exact houtside hi
  · exact List.forall_mem_singleton.mpr ⟨houtside.isTarget, hword⟩

/-- The address and the length of an array are moved to their registers. -/
theorem prepared_array (env : Env) (c : Cpu) {r : Reg} (hv : r.view = .long) (length : Nat) (e1 : Emitter) :
    ∃ c0, c.runs env [.mov .quad (.quad r.gpr) (.quad .rdi),
        .mov .quad (.imm (Int64.ofNat length)) (.quad .rsi)] = some c0 ∧
      Prepared 0 e1 [(.quad .rdi, r.word c), (.quad .rsi, BitVec.ofNat 64 length)] c c0 := by
  have hword : r.word c = c.regs r.gpr := Reg.word_of_isInteger (by rw [hv]; rfl) c
  refine ⟨c.withMachine ((c.toMachine.set .rdi (c.regs r.gpr)).set .rsi (BitVec.ofNat 64 length)), rfl,
    prepared_of_outside e1 (fun g hg => ?_) (fun _ _ => rfl) rfl ?_⟩
  · have houtside : g ≠ .rsi ∧ g ≠ .rdi := by
      rcases hg with hg | rfl | rfl
      · have hall : ∀ g ∈ valueGprs, g ≠ .rsi ∧ g ≠ .rdi := by decide
        exact hall g hg
      · decide
      · decide
    show Function.update (Function.update c.regs .rdi (c.regs r.gpr)) .rsi (BitVec.ofNat 64 length) g = _
    rw [Function.update_of_ne houtside.1, Function.update_of_ne houtside.2]
  · rw [hword]
    refine List.forall_mem_cons.mpr ⟨⟨⟨rfl, by decide⟩, ?_⟩, List.forall_mem_singleton.mpr ⟨⟨rfl, by decide⟩, ?_⟩⟩
    · show Function.update (Function.update c.regs .rdi (c.regs r.gpr)) .rsi (BitVec.ofNat 64 length) .rdi = _
      rw [Function.update_of_ne (by decide), Function.update_self]
    · show Function.update (Function.update c.regs .rdi (c.regs r.gpr)) .rsi (BitVec.ofNat 64 length) .rsi = _
      rw [Function.update_self]

theorem mem_zip_map {α β : Type} {f : α → β} {xs : List α} {p : α × β} (h : p ∈ xs.zip (xs.map f)) :
    p.1 ∈ xs ∧ f p.1 = p.2 := by
  induction xs with
  | nil => cases h
  | cons x xs ih =>
    rcases List.mem_cons.mp h with rfl | h
    · exact ⟨List.mem_cons_self, rfl⟩
    · exact ⟨List.mem_cons_of_mem _ (ih h).1, (ih h).2⟩

/-- Arguments that were pushed are popped into their registers. -/
theorem prepared_pushed (env : Env) (c : Cpu) {views : List Scalar} {targets : List Register}
    (h : assignArguments views = .ok targets) (e1 : Emitter) :
    ∃ c0, c.runs env (popTargetsCode targets) = some c0 ∧
      Prepared views.length e1 (targets.zip (c.mem.words (c.regs .rsp) views.length).reverse) c c0 := by
  have houtside := isOutside_of_assign h
  have hlength : targets.length = views.length := length_of_assignFrom h
  obtain ⟨c0, hrun, hpopped⟩ := runs_popTargets env c (fun t ht => (houtside t ht).isTarget) (nodup_of_assign h)
  have hgprs : ∀ g, g ∈ valueGprs ∨ g = .rsp ∨ g = .rbp → .quad g ∉ targets :=
    fun g hg hmem => (houtside _ hmem).ne hg rfl
  refine ⟨c0, hrun, ?_, ?_, hpopped.mem, fun r _ => ?_, fun p hp => ?_⟩
  · rw [hpopped.rsp, hlength]
  · exact hpopped.regs .rbp (by decide) (hgprs _ (.inr (.inr rfl)))
  · refine Reg.word_congr (fun g hg => hpopped.regs g ?_ (hgprs g (.inl hg)))
      (fun i hi => hpopped.xmms i fun hmem => houtside _ hmem hi)
    rintro rfl
    exact absurd hg (by decide)
  · rw [← hlength, ← hpopped.words] at hp
    obtain ⟨hmem, hword⟩ := mem_zip_map hp
    exact ⟨(houtside _ hmem).isTarget, hword⟩

/-! ### The operations -/

theorem callOutcome_function {name : String} {argument : Option Reg}
    (h : exec (callFunction name argument type) s e = (.ok result, e')) :
    CallOutcome name type argument.toList 0
      (fun c => argument.toList.map fun r => (soleTarget r.view, r.word c)) e result e' := by
  cases argument with
  | none =>
    rw [exec_callFunction_none] at h
    have htext : e.text = (e.emit []).text := by simp
    refine callOutcome_of_takeResult h htext rfl (by simp) fun env c => ?_
    exact ⟨c, rfl, prepared_of_outside e (fun _ _ => rfl) (fun _ _ => rfl) rfl
      fun p hp => absurd hp List.not_mem_nil⟩
  | some r =>
    have htakes : e.Takes r.cell := by
      obtain ⟨_, _, hcheck, -⟩ := exec_bind_eq_ok h
      exact takes_of_check hcheck
    rw [exec_callFunction_some htakes] at h
    refine callOutcome_of_takeResult h (Emitter.release_text _ _) rfl (fun cell => ?_) fun env c => ?_
    · rw [afterArgument, Emitter.takes_release, Emitter.takes_emit, and_comm]
      simp
    · exact prepared_sole env c r _

theorem callOutcome_pushed {name : String} {views : List Scalar}
    (h : exec (callPushed name views type) s e = (.ok result, e')) :
    ∃ targets, assignArguments views = .ok targets ∧ targets.length = views.length ∧
      CallOutcome name type [] views.length
        (fun c => targets.zip (c.mem.words (c.regs .rsp) views.length).reverse) e result e' := by
  rw [exec_callPushed] at h
  cases htargets : assignArguments views with
  | error x =>
    rw [htargets] at h
    cases h
  | ok targets =>
    have hlength : targets.length = views.length := length_of_assignFrom htargets
    simp only [htargets] at h
    split at h
    · cases h
    · rename_i hpushed
      refine ⟨targets, rfl, hlength, callOutcome_of_takeResult h rfl ?_ (fun cell => ?_) fun env c => ?_⟩
      · rw [Emitter.withPushed_pushed, hlength]
        omega
      · simp
      · exact prepared_pushed env c htargets _

theorem callOutcome_printArray {address : Reg} {routine : String} {length : Nat}
    (h : exec (printArray address routine length) s e = (.ok (), e')) :
    CallOutcome routine .void [address] 0
      (fun c => [(.quad .rdi, address.word c), (.quad .rsi, BitVec.ofNat 64 length)]) e none e' := by
  have htakes : e.Takes address.cell := by
    obtain ⟨_, _, hexpect, -⟩ := exec_bind_eq_ok h
    obtain ⟨_, _, hcheck, -⟩ := exec_bind_eq_ok hexpect
    exact takes_of_check hcheck
  rw [exec_printArray htakes] at h
  split at h
  · rename_i hv
    cases h
    refine callOutcome_of_takeResult (s := s) (exec_takeResult_void rfl) (Emitter.release_text _ _) rfl
      (fun cell => ?_) fun env c => ?_
    · rw [Emitter.takes_release, Emitter.takes_emit, and_comm]
      simp
    · exact prepared_array env c hv length _
  · cases h

/-- What is live survives a call, from every state of the emitter: with at most one argument, with arguments
that were pushed, the last one on top, and to print an array. -/
theorem live_across_calls (s : Setting) (e : Emitter) :
    (∀ name argument type result e', exec (callFunction name argument type) s e = (.ok result, e') →
      CallOutcome name type argument.toList 0
        (fun c => argument.toList.map fun r => (soleTarget r.view, r.word c)) e result e') ∧
    (∀ name views type result e', exec (callPushed name views type) s e = (.ok result, e') →
      ∃ targets, assignArguments views = .ok targets ∧ targets.length = views.length ∧
        CallOutcome name type [] views.length
          (fun c => targets.zip (c.mem.words (c.regs .rsp) views.length).reverse) e result e') ∧
    ∀ address routine length e', exec (printArray address routine length) s e = (.ok (), e') →
      CallOutcome routine .void [address] 0
        (fun c => [(.quad .rdi, address.word c), (.quad .rsi, BitVec.ofNat 64 length)]) e none e' :=
  ⟨fun _ _ _ _ _ => callOutcome_function, fun _ _ _ _ _ => callOutcome_pushed,
    fun _ _ _ _ => callOutcome_printArray⟩

/-- An integer and a float are live, and a further float. -/
def busy : Emitter := ((({} : Emitter).take ⟨.long, 0⟩).take ⟨.float, 0⟩).take ⟨.float, 1⟩

/-- A machine on which every function returns five and overwrites all that it may. -/
def overwriting : Env where
  layout := fun _ => 0
  arith := fun _ a _ => a
  order := fun _ _ => .unordered
  order_swap := fun _ _ => rfl
  ofInteger := id
  toInteger := id
  call := fun call => some ⟨call.mem, fun _ => 5, fun _ => 6⟩

/-- The further float is passed; the other two values are as before when five is in the next register. -/
theorem busy_across_call :
    ∃ e', exec (callFunction "f" (some ⟨.float, 1⟩) .int) {} busy = (.ok (some ⟨.int, 1⟩), e') ∧
      ∃ code : List Instr, e'.text.toList = code.map .instr ∧
        ∀ c : Cpu, ∃ c', c.runs overwriting code = some c' ∧ c'.regs .rsp = c.regs .rsp ∧
          (⟨.long, 0⟩ : Reg).word c' = (⟨.long, 0⟩ : Reg).word c ∧
          (⟨.float, 0⟩ : Reg).word c' = (⟨.float, 0⟩ : Reg).word c ∧ (⟨.int, 1⟩ : Reg).word c' = 5 := by
  have hok : (exec (callFunction "f" (some ⟨.float, 1⟩) .int) {} busy).1 = .ok (some ⟨.int, 1⟩) := rfl
  obtain ⟨e', hexec⟩ := exec_eq_ok hok
  have houtcome := (live_across_calls {} busy).1 _ _ _ _ _ hexec
  obtain ⟨before, after, bytes, htext, -, hruns⟩ := houtcome.runs
  refine ⟨e', hexec, before ++ .call "f" :: after, ?_, fun c => ?_⟩
  · rw [htext]
    simp [busy]
  · obtain ⟨c1, -, -, -, hreturns⟩ := hruns overwriting c
    obtain ⟨c', hrun, hdone⟩ := hreturns _ rfl fun _ _ => rfl
    have hlive : ∀ r : Reg, busy.Takes r.cell → r.cell ≠ .float 1 → r.cell ≠ .general 1 →
        r.word c' = r.word c := by
      intro r hr hgiven hresult
      refine hdone.live r ((houtcome.takes _).mpr (.inl ⟨hr, ?_⟩)) ?_
      · exact fun hmem => hgiven (List.mem_singleton.mp hmem)
      · exact fun hmem => hresult (Option.some.inj hmem).symm
    refine ⟨c', hrun, ?_, hlive _ rfl (by decide) (by decide), hlive _ rfl (by decide) (by decide),
      hdone.value _ rfl⟩
    rw [hdone.rsp]
    simp

end MiniC.Emit
