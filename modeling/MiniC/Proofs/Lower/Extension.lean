import MiniC.Proofs.Emit.Extension
import MiniC.Proofs.Lower.Ownership

/-!
# Values are extended

When the code of an expression has been run to its end, the register of its value is extended, from every state
of the machine: whatever was in memory, whatever a conversion from a float came to and whatever a function left
above its result. Most expressions end with an operation that sees to it. An assignment has the value that it
stores, in a register that the code of the address leaves alone.
-/

set_option autoImplicit false

namespace MiniC.Lower

open Emit
open X86 (Cpu Env Exits Exit Instr Line Width)
open Emitter (Holding added)

/-- The code of an expression leaves its value extended. -/
def Yields (t : Typed.Expr) : Prop :=
  ∀ ⦃s e r e'⦄, exec (expr t) s e = (.ok r, e') → ∀ ⦃env c c'⦄, Exits env (added e e') c .next c' → r.Extended c'

section Runs

variable {t : Typed.Expr} {s : Setting} {env : Env} {e e1 e' : Emitter} {r x : Reg} {c c' : Cpu}

/-- The register of an operand is that of the result, or is given back for it. -/
theorem holding_of_unary {cs : List Cell} {n : Nat} (h : Holding (r.cell :: cs) n e e1) {op : ValueOp}
    (hexec : exec (unary op r) s e1 = (.ok x, e')) : Holding (x.cell :: cs) n e e' := by
  have houtcome : Outcome (unary op r) s.pool e1 (Holds _ cs n e) _ := unary_outcome h op
  exact (houtcome.ok_of_exec hexec).2

/-- The code of a later operand leaves a value alone that is held. -/
theorem extended_of_operand {l : Typed.Expr} (hl : Yields l) (h1 : exec (expr l) s e = (.ok r, e1))
    (h2 : exec (expr t) s e1 = (.ok x, e')) (hrun : Exits env (added e e') c .next c') : r.Extended c' := by
  have hheld := holding_of_expr h1
  by_cases hv : r.view = .float
  · exact extended_of_float hv c'
  · have hi := isInteger_of_ne_float hv
    obtain ⟨ls, htext, hspared⟩ := spared t h2
    have hlive : ∀ p ∈ r.cell.parts, Live e1 p := fun p hp => ⟨_, hheld.takes_of_mem List.mem_cons_self, hp⟩
    -- both stretches keep their jumps to themselves, so the first one is run to its end before the second
    have hfirst := level_of_expr h1 fun _ => False
    have hsecond := level_of_expr h2 fun _ => False
    have hboth := (hfirst.trans hsecond).unique
    have hmoves := hfirst.moves
    have hmoves' := hsecond.moves
    rw [hfirst.pushed] at hmoves
    rw [hsecond.pushed, hfirst.pushed] at hmoves'
    rw [Emitter.added_trans hfirst.grows hsecond.grows] at hrun hboth
    rw [Emitter.added_of_text htext] at hrun hboth hmoves'
    obtain ⟨c1, hrun, hregs⟩ := X86.exits_append hmoves hmoves' hboth (kept_of_gpr r) (fun i hi' =>
      hspared.untouched (hlive _ (gpr_mem_parts hi)) (hlive _ (low_mem_parts hi)) hi') hrun
    exact (hl h1 hrun).of_regs hregs

theorem extended_of_store {dst : X86.Mem} (hgrows : Emitter.Grows e e1)
    (htext : e'.text = (e1.emit [storeInstr x (.mem dst)]).text)
    (hvalue : ∀ ⦃c1⦄, Exits env (added e e1) c .next c1 → r.Extended c1)
    (hrun : Exits env (added e e') c .next c') : r.Extended c' := by
  rw [added_of_grows hgrows htext] at hrun
  obtain ⟨c1, hfirst, hruns⟩ := X86.exits_append_instrs (fun i hi => isPlain_store hi) hrun
  exact (hvalue hfirst).of_regs (X86.regs_of_runs (fun i hi => untouched_store hi) (kept_of_gpr r) hruns)

theorem view_of_elementAddress {cs : List Cell} {n : Nat} {b i : Reg} {element : Scalar}
    (h : Holding (i.cell :: b.cell :: cs) n e e1) (hexec : exec (elementAddress b i element) s e1 = (.ok x, e')) :
    x.view = .long := by
  have houtcome : Outcome (elementAddress b i element) s.pool e1 (Holds .long cs n e) _ :=
    elementAddress_outcome h element
  exact (houtcome.ok_of_exec hexec).1

/-- The value of a logical operator is loaded after its operands. -/
theorem view_of_logical {op : BinaryOp} {l r : Typed.Expr} (hexec : exec (expr (.logical op l r)) s e = (.ok x, e')) :
    x.view = .long := by
  rw [expr] at hexec
  cases hsc : shortCircuit? op with
  | none =>
    rw [hsc] at hexec
    cases hexec
  | some sc =>
    rw [hsc] at hexec
    obtain ⟨id, e1, -, hexec⟩ := exec_bind_eq_ok hexec
    obtain ⟨lr, e2, -, hexec⟩ := exec_bind_eq_ok hexec
    obtain ⟨_, e3, -, hexec⟩ := exec_bind_eq_ok hexec
    obtain ⟨rr, e4, -, hexec⟩ := exec_bind_eq_ok hexec
    obtain ⟨_, e5, -, hexec⟩ := exec_bind_eq_ok hexec
    obtain ⟨y, e6, hload, hexec⟩ := exec_bind_eq_ok hexec
    obtain ⟨hview, hheld⟩ := (loadImmediate_outcome (.refl e5) (.long (1 - sc.value))).ok_of_exec hload
    have hinteger : y.view.isInteger = true := by rw [hview]; rfl
    cases (exec_shortTail (hheld.takes_of_mem List.mem_cons_self) hinteger _ _ _).symm.trans hexec
    exact hview

end Runs

/-- The result of a call is extended after it has been called. -/
theorem yields_call (name : String) (type : CType) (args : List Typed.Expr) : Yields (.call name args type) := by
  intro s e x e' hexec
  rw [expr] at hexec
  obtain ⟨result, e1, h1, hexec⟩ := exec_bind_eq_ok hexec
  cases result with
  | none => cases hexec
  | some r =>
    cases hexec
    cases args with
    | nil =>
      rw [call] at h1
      exact (settles_callFunction_none h1).extended (Holding.refl e).grows
    | cons a others =>
      cases others with
      | nil =>
        rw [call] at h1
        obtain ⟨ar, e2, h2, hcall⟩ := exec_bind_eq_ok h1
        have hheld := holding_of_expr h2
        exact (settles_callFunction_some (hheld.takes_of_mem List.mem_cons_self) hcall).extended hheld.grows
      | cons b others =>
        obtain ⟨views, e2, hall, hcall⟩ := pushAll_of_call h1
        exact (settles_callPushed hcall).extended (holding_of_pushAll hall).grows

theorem yields (t : Typed.Expr) : Yields t := by
  induction t using Typed.Expr.induct with
  | literal v =>
    intro s e x e' hexec
    rw [expr] at hexec
    exact (settles_loadImmediate hexec).extended (Holding.refl e).grows
  | object o =>
    intro s e x e' hexec
    rw [expr] at hexec
    exact (settles_loadSymbol hexec).extended (Holding.refl e).grows
  | pointee a pointer ha =>
    intro s e x e' hexec
    rw [expr] at hexec
    obtain ⟨r, e1, h1, hexec⟩ := exec_bind_eq_ok hexec
    have hheld := holding_of_expr h1
    exact (settles_dereference (hheld.takes_of_mem List.mem_cons_self) hexec).extended hheld.grows
  | addressOf o type =>
    intro s e x e' hexec
    rw [expr, exec_addressOf] at hexec
    exact fun _ _ c' _ => extended_of_long (Emitter.of_fresh? (of_taking hexec).1).1 c'
  | unary op t type ht =>
    intro s e x e' hexec
    rw [expr] at hexec
    split at hexec
    · cases hexec
    · obtain ⟨r, e1, h1, hexec⟩ := exec_bind_eq_ok hexec
      have hheld := holding_of_expr h1
      exact (settles_unary hheld hexec).extended hheld.grows
  | binary op l r type hl hr =>
    intro s e x e' hexec
    rw [expr] at hexec
    obtain ⟨lr, e1, h1, hexec⟩ := exec_bind_eq_ok hexec
    obtain ⟨rr, e2, h2, hexec⟩ := exec_bind_eq_ok hexec
    have hheld := (holding_of_expr h1).trans (holding_of_expr h2)
    unfold combine at hexec
    split at hexec
    · rename_i relation _
      have houtcome : Outcome (compare relation lr rr) s.pool e2 (Holds .long [] 0 e) _ :=
        compare_outcome hheld relation
      exact fun _ _ c' _ => extended_of_long (houtcome.ok_of_exec hexec).1 c'
    · exact (settles_binary (hheld.takes_of_mem (by simp)) (hheld.takes_of_mem (by simp)) hexec).extended hheld.grows
    · cases hexec
  | logical op l r hl hr =>
    intro s e x e' hexec
    exact fun _ _ c' _ => extended_of_long (view_of_logical hexec) c'
  | assignObject o v hv =>
    intro s e x e' hexec
    rw [expr] at hexec
    obtain ⟨r, e1, h1, hexec⟩ := exec_bind_eq_ok hexec
    obtain ⟨_, e2, h2, hexec⟩ := exec_bind_eq_ok hexec
    cases hexec
    have hheld := holding_of_expr h1
    have hstore := of_storeTo (hheld.takes_of_mem List.mem_cons_self) h2
    exact fun _ _ _ hrun => extended_of_store hheld.grows (by rw [hstore]; rfl) (fun _ hfirst => hv h1 hfirst) hrun
  | assignPointee a pointer v ha hv =>
    intro s e x e' hexec
    rw [expr] at hexec
    obtain ⟨r, e1, h1, hexec⟩ := exec_bind_eq_ok hexec
    obtain ⟨ar, e2, h2, hexec⟩ := exec_bind_eq_ok hexec
    obtain ⟨_, e3, h3, hexec⟩ := exec_bind_eq_ok hexec
    cases hexec
    have hheld := (holding_of_expr h1).trans (holding_of_expr h2)
    have hstore := of_storeIndirect (hheld.takes_of_mem (by simp)) (hheld.takes_of_mem (by simp)) h3
    refine fun env c c' hrun => extended_of_store hheld.grows (by rw [hstore]; rfl) (fun c1 hfirst => ?_) hrun
    exact extended_of_operand hv h1 h2 hfirst
  | step o increment after =>
    intro s e x e' hexec
    rw [expr] at hexec
    exact (settles_step hexec).extended (Holding.refl e).grows
  | call name args type hargs => exact yields_call name type args
  | convert t source target ht =>
    intro s e x e' hexec
    rw [expr] at hexec
    obtain ⟨r, e1, h1, hexec⟩ := exec_bind_eq_ok hexec
    have hheld := holding_of_expr h1
    -- the operand is extended already, and has to be if the conversion adds no code
    rcases settles_convert (hheld.takes_of_mem List.mem_cons_self) hexec with hsettles | ⟨htext, hwider⟩
    · exact hsettles.extended hheld.grows
    · have hadded : added e e' = added e e1 := by rw [added, htext, added]
      rw [hadded]
      exact fun env c c' hrun => hwider c' (ht h1 hrun)
  | offset p c element subtract hp hc =>
    intro s e x e' hexec
    rw [expr] at hexec
    obtain ⟨base, e1, h1, hexec⟩ := exec_bind_eq_ok hexec
    obtain ⟨index, e2, h2, hexec⟩ := exec_bind_eq_ok hexec
    have hheld := (holding_of_expr h1).trans (holding_of_expr h2)
    cases subtract with
    | false => exact fun _ _ c' _ => extended_of_long (view_of_elementAddress hheld hexec) c'
    | true =>
      obtain ⟨negated, e3, h3, hexec⟩ := exec_bind_eq_ok hexec
      exact fun _ _ c' _ => extended_of_long (view_of_elementAddress (holding_of_unary hheld h3) hexec) c'

/-! ### Runs of the code -/

/-- The code of an expression is only left at its end, and there an `int` is extended by its sign from 32 bits and
a `char` by zeros from eight. -/
theorem expr_extended {t : Typed.Expr} {s : Setting} {e e' : Emitter} {r : Reg} (h : exec (expr t) s e = (.ok r, e'))
    {env : Env} {c c' : Cpu} {y : Exit} (hrun : Exits env (added e e') c y c') :
    y = .next ∧ (r.view = .int → c'.regs r.gpr = Width.long.sext (c'.regs r.gpr)) ∧
      (r.view = .char → c'.regs r.gpr = Width.byte.zext (c'.regs r.gpr)) := by
  obtain rfl := X86.next_of_exits (level_of_expr h fun _ => False).moves hrun
  have hext : r.Extended c' := yields t h hrun
  refine ⟨rfl, fun hv => ?_, fun hv => ?_⟩
  · rw [Reg.Extended, hv] at hext
    exact hext
  · rw [Reg.Extended, hv] at hext
    exact hext

/-- A machine on which functions leave all bits of their results set. -/
def filling : Env where
  layout := fun _ => 0
  arith := fun _ a _ => a
  order := fun _ _ => .unordered
  order_swap := fun _ _ => rfl
  ofInteger := id
  toInteger := id
  call := fun call => some ⟨call.mem, fun _ => -1, fun _ => 0⟩

/-- A call of a function that returns a `char`. -/
def letter : Typed.Expr := .call "f" [] (.scalar .char)

/-- A machine that is zero everywhere. -/
def cleared : Cpu := ⟨⟨fun _ => 0, none, fun _ => 0⟩, fun _ => 0, none⟩

/-- Of what the function left only the low byte remains. -/
theorem expr_extended_letter :
    ∃ c', Exits filling (added {} (exec (expr letter) {} {}).2) cleared .next c' ∧ c'.regs .rbx = 255 ∧
      c'.regs .rbx = Width.byte.zext (c'.regs .rbx) := by
  have h : exec (expr letter) {} {} = (.ok ⟨.char, 0⟩, (exec (expr letter) {} {}).2) := Prod.ext rfl rfl
  obtain ⟨c', hrun, hvalue⟩ : ∃ c', Exits filling (added {} (exec (expr letter) {} {}).2) cleared .next c' ∧
      c'.regs .rbx = 255 :=
    ⟨_, .next rfl rfl (.next rfl rfl (.done (by decide))), rfl⟩
  exact ⟨c', hrun, hvalue, (expr_extended h hrun).2.2 rfl⟩

end MiniC.Lower
