import MiniC.Proofs.Ast.Parsing

/-!
# The expression parser reads its grammar

Operators are read by climbing: one loop with a least level takes the place of the ten levels of the
grammar. Both directions hold. What the parser accepts is derived in the grammar (`exprParses`); and what
is derived the parser accepts (`Assignment.read`), where a phrase of a level is read by running into the
loop with its tree as the left operand.
-/

set_option autoImplicit false

namespace MiniC

open Ast Ast.Grammar

/-! ### Tokens without ranges -/

/-- The token of a kind, without a range. -/
abbrev Token.bare (k : TokenKind) : Token := ⟨k, .unknown⟩

@[simp] theorem Token.bare_nil (rest : List Token) : [].map Token.bare ++ rest = rest := rfl

@[simp] theorem Token.bare_cons (k : TokenKind) (ks : List TokenKind) (rest : List Token) :
    (k :: ks).map Token.bare ++ rest = .bare k :: (ks.map Token.bare ++ rest) := rfl

@[simp] theorem Token.bare_append (ks us : List TokenKind) (rest : List Token) :
    (ks ++ us).map Token.bare ++ rest = ks.map Token.bare ++ (us.map Token.bare ++ rest) := by
  rw [List.map_append, List.append_assoc]

/-- Tokens of these kinds are read as `a`, whatever follows that is allowed there. -/
def Parser.Spells {α : Type} (rule : (n : Nat) → Parser n α) (ks : List TokenKind) (a : α)
    (ends : TokenKind → Prop) : Prop :=
  ∀ ⦃n : Nat⦄ ⦃rest : List Token⦄, ends (Token.next rest) → Reads (rule n) (ks.map Token.bare ++ rest) a rest

theorem Parser.Spells.before {α : Type} {rule : (n : Nat) → Parser n α} {ks : List TokenKind} {a : α}
    {ends : TokenKind → Prop} {k : TokenKind} (h : Spells rule ks a ends) (hk : ends k) {n : Nat}
    {rest : List Token} : Reads (rule n) (ks.map Token.bare ++ .bare k :: rest) a (.bare k :: rest) :=
  @h n (.bare k :: rest) hk

/-- What a rule reads without ranges it reads with them, and tokens of the same kinds are left. -/
theorem Parser.Parses.reads {n : Nat} {α β : Type} {forget : α → β} {R : List Token → α → List Token → Prop}
    {p : Parser n α} {p' : Parser (n + 1) β} {c : Cursor n} {b : β} {ts rest : List Token}
    (h : Parses forget R p p' c) (hc : c.tokens = ts ++ rest)
    (hread : Reads p' ((ts.map Token.kind).map Token.bare ++ rest.map Token.erase) b (rest.map Token.erase)) :
    ∃ a c', p.run c = (.ok a, c') ∧ forget a = b ∧ c'.tokens = rest := by
  obtain ⟨herased, us, hus, -⟩ := h
  obtain ⟨c1, hrun, hc1⟩ := hread c.erase (by
    show c.tokens.map Token.erase = _
    rw [hc, List.map_append, List.map_map]
    rfl)
  rw [herased] at hrun
  generalize p.run c = outcome at hrun hus ⊢
  obtain ⟨result, c'⟩ := outcome
  cases result with
  | error e => cases hrun
  | ok a =>
    cases hrun
    refine ⟨a, c', rfl, rfl, ?_⟩
    have hlength : c'.tokens.length = rest.length := by
      simpa [Cursor.erase] using congrArg List.length hc1
    exact (List.append_inj' (hus.symm.trans hc) hlength).2

/-! ### Where an expression ends -/

/-- A token that cannot go on an operand. -/
structure Ast.Grammar.EndsOperand (k : TokenKind) : Prop where
  notIndex : k.isPunct .leftBracket = false
  notCall : k.isPunct .leftParen = false
  notStep : Parser.stepOperator? k = none

/-- A token that cannot go on an expression. -/
structure Ast.Grammar.EndsExpr (k : TokenKind) : Prop extends EndsOperand k where
  notBinary : Parser.binaryOperator? k = none
  notAssign : Parser.assignOperator? k = none

namespace Ast.Grammar

theorem EndsOperand.ofOperator {l : Nat} {p : Punct} {op : BinaryOp} (h : (p, op) ∈ operators l) :
    EndsOperand (.punct p) := by
  unfold operators at h
  split at h
  all_goals
    fin_cases h <;> exact ⟨rfl, rfl, rfl⟩

theorem EndsOperand.ofAssignment {p : Punct} {op : AssignOp} (h : (p, op) ∈ assignments) :
    EndsOperand (.punct p) ∧ Parser.binaryOperator? (.punct p) = none := by
  fin_cases h <;> exact ⟨⟨rfl, rfl, rfl⟩, rfl⟩

theorem endsExpr_rightParen : EndsExpr (.punct .rightParen) := ⟨⟨rfl, rfl, rfl⟩, rfl, rfl⟩

theorem endsExpr_rightBracket : EndsExpr (.punct .rightBracket) := ⟨⟨rfl, rfl, rfl⟩, rfl, rfl⟩

theorem endsExpr_comma : EndsExpr (.punct .comma) := ⟨⟨rfl, rfl, rfl⟩, rfl, rfl⟩

theorem endsExpr_semicolon : EndsExpr (.punct .semicolon) := ⟨⟨rfl, rfl, rfl⟩, rfl, rfl⟩

theorem endsExpr_rightBrace : EndsExpr (.punct .rightBrace) := ⟨⟨rfl, rfl, rfl⟩, rfl, rfl⟩

end Ast.Grammar

namespace Parser

variable {n : Nat}

/-! ### What is derived is accepted -/

variable {ts rest rest' : List Token}

/-- As many stars as fit a byte with those counted before are all taken. -/
theorem reads_starsFrom (before : Nat) {more : Nat} (hfits : before + more ≤ 255)
    (hrest : (Token.next rest).isPunct .star = false) (n : Nat) :
    Reads (starsFrom before n) ((List.replicate more (.punct .star)).map Token.bare ++ rest)
      (before + more) rest := by
  induction more generalizing before n with
  | zero =>
    cases n with
    | zero => exact .pure before rest
    | succ n => exact .atNo hrest (.pure before rest)
  | succ more ih =>
    have hmore := ih (before + 1) (by omega)
    rw [Nat.add_right_comm, Nat.add_assoc] at hmore
    refine Reads.ofSucc (p := starsFrom before) (fun n => .atYes rfl (.take ?_)) n
    have hdeepen : (deepen before : Parser n Nat) = pure (before + 1) :=
      if_pos (show before + 1 < 256 by omega)
    rw [hdeepen]
    exact .bind (.pure _ _) (hmore n)

theorem reads_stars {depth : Nat} (hdepth : depth ≤ 255)
    (hrest : (Token.next rest).isPunct .star = false) (n : Nat) :
    Reads (stars n) ((List.replicate depth (.punct .star)).map Token.bare ++ rest) depth rest := by
  have h := reads_starsFrom 0 (by omega : 0 + depth ≤ 255) hrest n
  rwa [Nat.zero_add] at h

theorem Reads.baseType {t : Token} {word : Keyword} {base : BaseType} (ht : t.kind = .keyword word)
    (hword : (word, base) ∈ typeWords) (ts : List Token) :
    Reads (Parser.baseType : Parser n BaseType) (t :: ts) base ts := by
  unfold Parser.baseType
  refine .peekCons ?_
  rw [baseType?_eq_some_iff.2 ⟨word, ht, hword⟩]
  exact (Reads.advance t ts).bind (.pure base ts)

theorem reads_assignment_stop (target : Expr) (h : assignOperator? (Token.next rest) = none) (n : Nat) :
    Reads (assignment n target) rest target rest := by
  cases n with
  | zero =>
    rw [assignment]
    exact .pure target rest
  | succ n =>
    rw [assignment]
    refine .peek fun t ht => ?_
    rw [ht, h]
    exact .pure target rest

/-- The loop ends at a token that is no operator of its levels. -/
theorem reads_climb_stop {least : Nat} (left : Expr)
    (h : ∀ l op, binaryOperator? (Token.next rest) = some (l, op) → l < least) (n : Nat) :
    Reads (climb n least left) rest left rest := by
  cases n with
  | zero =>
    rw [climb]
    exact .pure left rest
  | succ n =>
    rw [climb]
    refine .peek fun t ht => ?_
    rw [ht]
    split
    next => exact .pure left rest
    next l op hop =>
      rw [if_pos (h l op hop)]
      exact .pure left rest

theorem reads_climb_operator {t : Token} {l least : Nat} {p : Punct} {op : BinaryOp}
    {left right r : Expr} (ht : t.kind = .punct p) (hop : (p, op) ∈ operators l) (hl : least ≤ l)
    (hright : ∀ n, Reads (binary n (l + 1)) ts right rest)
    (hloop : ∀ n, Reads (climb n least (.binary op left right (left.span.extend right.span)))
      rest r rest') (n : Nat) :
    Reads (climb n least left) (t :: ts) r rest' := by
  refine Reads.ofSucc (p := fun n => climb n least left) (fun n => ?_) n
  rw [climb]
  refine .peekCons ?_
  rw [binaryOperator?_eq_some_iff.2 ⟨p, ht, hop⟩]
  dsimp only
  rw [if_neg (by omega)]
  exact .take ((hright n).bind (hloop n))

theorem reads_suffixes_stop (operand : Expr) (h : EndsOperand (Token.next rest)) (n : Nat) :
    Reads (suffixes n operand) rest operand rest := by
  cases n with
  | zero =>
    rw [suffixes]
    exact .pure operand rest
  | succ n =>
    rw [suffixes]
    refine .peek fun t ht => ?_
    rw [ht, h.notIndex, if_neg Bool.false_ne_true, h.notStep]
    exact .pure operand rest

theorem reads_literal {t : Token} {v : Value} (h : literal? t.kind = some v) (rest : List Token) (n : Nat) :
    Reads (primary n) (t :: rest) (.literal v t.span) rest := by
  refine Reads.ofSucc (p := primary) (fun n => ?_) n
  rw [primary]
  refine .peekCons ?_
  rw [h]
  exact .take (.pure _ _)

theorem reads_named {t : Token} {name : String} {e : Expr} (ht : t.kind = .identifier name)
    (h : ∀ n, Reads (named n name t.span) ts e rest) (n : Nat) :
    Reads (primary n) (t :: ts) e rest := by
  refine Reads.ofSucc (p := primary) (fun n => ?_) n
  rw [primary]
  refine .peekCons ?_
  rw [ht]
  exact .take (h n)

theorem reads_called {t : Token} {name : String} {span : Span} {e : Expr}
    (ht : t.kind = .punct .leftParen)
    (h : ∀ n, Reads (do
      let arguments ← if ← at? .rightParen then pure [] else arguments n
      let close ← expect .rightParen "function call"
      return .call name arguments (span.extend close.span)) ts e rest) (n : Nat) :
    Reads (named n name span) (t :: ts) e rest := by
  refine Reads.ofSucc (p := fun n => named n name span) (fun n => ?_) n
  rw [named]
  exact .atYes ht (.take (h n))

/-! ### More stars than a byte can count -/

theorem run_bind_error {α β : Type} {p : Parser n α} {f : α → Parser n β} {c : Cursor n}
    {e : ParseError} (h : (run p c).1 = .error e) : (run (p >>= f) c).1 = .error e := by
  rw [run_bind, h]
  rfl

theorem peek_kind {c : Cursor n} {k : TokenKind} {ks : List TokenKind}
    (hc : c.tokens.map Token.kind = k :: ks) : c.peek.kind = k := by
  obtain ⟨_ | ⟨t, ts⟩, _, _⟩ := c
  · cases hc
  · exact (List.cons.inj hc).1

theorem peekSecond_kind {c : Cursor n} {k k' : TokenKind} {ks : List TokenKind}
    (hc : c.tokens.map Token.kind = k :: k' :: ks) : c.peekSecond.kind = k' := by
  obtain ⟨_ | ⟨t, _ | ⟨t', ts⟩⟩, _, _⟩ := c
  · cases hc
  · cases (List.cons.inj hc).2
  · exact (List.cons.inj (List.cons.inj hc).2).1

/-- The star that takes the count past its byte ends the parse. -/
theorem starsFrom_overflow {depth more : Nat} {ks : List TokenKind} (h : depth + more = 256)
    (hmore : more ≠ 0) (c : Cursor n)
    (hc : c.tokens.map Token.kind = List.replicate more (.punct .star) ++ ks) :
    (run (starsFrom depth n) c).1 = .error .overflow := by
  obtain ⟨more, rfl⟩ := Nat.exists_eq_succ_of_ne_zero hmore
  induction n generalizing depth more with
  | zero =>
    rw [c.drained] at hc
    cases hc
  | succ n ih =>
    rw [starsFrom, run_at_bind, peek_kind hc]
    show (run (deepen depth >>= fun depth => starsFrom depth n) c.drop).1 = _
    unfold deepen
    by_cases hroom : depth + 1 < UInt8.size
    · obtain ⟨more, rfl⟩ : ∃ more', more = more' + 1 :=
        Nat.exists_eq_succ_of_ne_zero fun h0 => by
          have : depth + 1 < 256 := hroom
          omega
      rw [if_pos hroom]
      refine ih c.drop more (by omega) (Nat.succ_ne_zero more) ?_
      rw [Cursor.drop, List.map_tail, hc]
      rfl
    · rw [if_neg hroom]
      rfl

/-- A cast with 256 stars is neither derived nor accepted: the count of its stars overflows, and
nothing is left of the tokens that could be read in another way. -/
theorem expr_overflow {word : Keyword} {base : BaseType} {ks : List TokenKind}
    (hword : (word, base) ∈ typeWords) (c : Cursor n)
    (hc : c.tokens.map Token.kind =
      .punct .leftParen :: .keyword word :: (List.replicate 256 (.punct .star) ++ ks)) :
    (run (expr n) c).1 = .error .overflow := by
  have hbase := baseType?_eq_some_iff.2 ⟨word, rfl, hword⟩
  -- The first operand of the first level is the cast, and its error is that of the expression.
  rw [expr]
  refine run_bind_error ?_
  rw [binary]
  refine run_bind_error ?_
  cases n with
  | zero =>
    rw [c.drained] at hc
    cases hc
  | succ n =>
    have hdrop : c.drop.tokens.map Token.kind =
        .keyword word :: (List.replicate 256 (.punct .star) ++ ks) := by
      rw [Cursor.drop, List.map_tail, hc]
      rfl
    rw [unary, run_peek_bind, peek_kind hc]
    show (run (peekSecond >>= _) c).1 = _
    rw [run_peekSecond_bind, peekSecond_kind hc, isTypeKeyword_iff.2 ⟨base, hbase⟩]
    show (run (baseType >>= fun base => stars n >>= _) c.drop).1 = _
    rw [baseType, bind_assoc, run_peek_bind, peek_kind hdrop, hbase]
    show (run (stars n >>= _) c.drop.advance).1 = _
    have hstars : c.drop.advance.tokens.map Token.kind =
        List.replicate 256 (.punct .star) ++ ks := by
      rw [Cursor.advance, List.map_tail, hdrop]
      rfl
    exact run_bind_error (starsFrom_overflow (Nat.zero_add 256) (by omega) _ hstars)

end Parser

namespace Ast.Grammar

open MiniC.Parser (Reads Spells)

mutual

theorem Assignment.span : ∀ {ks : List TokenKind} {e : Expr}, Assignment ks e → e.span = .unknown
  | _, _, .binary h => h.span
  | _, _, .assign .. => rfl

theorem Binary.span : ∀ {l : Nat} {ks : List TokenKind} {e : Expr}, Binary l ks e → e.span = .unknown
  | _, _, _, .unary h => h.span
  | _, _, _, .tighter h => h.span
  | _, _, _, .operation .. => rfl

theorem Unary.span : ∀ {ks : List TokenKind} {e : Expr}, Unary ks e → e.span = .unknown
  | _, _, .signed .. => rfl
  | _, _, .cast .. => rfl
  | _, _, .suffixed h => h.span

theorem Suffixed.span : ∀ {ks : List TokenKind} {e : Expr}, Suffixed ks e → e.span = .unknown
  | _, _, .primary h => h.span
  | _, _, .index .. => rfl
  | _, _, .step .. => rfl

theorem Primary.span : ∀ {ks : List TokenKind} {e : Expr}, Primary ks e → e.span = .unknown
  | _, _, .literal _ => rfl
  | _, _, .name _ => rfl
  | _, _, .emptyCall _ => rfl
  | _, _, .call _ => rfl
  | _, _, .parenthesized h => h.span

end

mutual

theorem Assignment.read : ∀ {ks : List TokenKind} {e : Expr}, Assignment ks e →
    Spells Parser.expr ks e EndsExpr
  | _, e, .binary h, n, rest, hrest => by
    have hstop : ∀ l op, Parser.binaryOperator? (Token.next rest) = some (l, op) → l < 1 := by
      rw [hrest.notBinary]
      intro l op hop
      cases hop
    rw [Parser.expr]
    refine .bind (h.read hrest.toEndsOperand (fun l op hop => (hstop l op hop).le) (Nat.le_refl 1)
      (Parser.reads_climb_stop e hstop) n) ?_
    exact Parser.reads_assignment_stop e hrest.notAssign n
  | _, _, @Assignment.assign _ _ target _ p _ ht hop hv, n, rest, hrest => by
    obtain ⟨hends, hnone⟩ := EndsOperand.ofAssignment hop
    have hstop : ∀ l op, Parser.binaryOperator? (.punct p) = some (l, op) → l < 1 := by
      rw [hnone]
      intro l op hop
      cases hop
    simp only [Token.bare_append, Token.bare_cons]
    rw [Parser.expr]
    refine .bind (ht.read ?_ ?_ (Nat.le_refl 1) (Parser.reads_climb_stop target ?_) n) ?_
    · exact hends
    · exact fun l op hop => (hstop l op hop).le
    · exact hstop
    refine Reads.ofSucc (p := fun n => Parser.assignment n target) (fun n => ?_) n
    rw [Parser.assignment]
    refine .peekCons ?_
    rw [assignOperator?_eq_some_iff.2 ⟨_, rfl, hop⟩]
    refine .take (.bind (hv.read hrest) ?_)
    rw [ht.span, hv.span]
    exact .pure _ _

theorem Binary.read : ∀ {l : Nat} {ks : List TokenKind} {e : Expr}, Binary l ks e →
    ∀ {rest : List Token}, EndsOperand (Token.next rest) →
      (∀ m op, Parser.binaryOperator? (Token.next rest) = some (m, op) → m ≤ l) →
      ∀ {least : Nat}, least ≤ l → ∀ {r : Expr} {rest' : List Token},
      (∀ n, Reads (Parser.climb n least e) rest r rest') →
      ∀ n, Reads (Parser.binary n least) (ks.map Token.bare ++ rest) r rest'
  | _, _, _, .unary h, _, hrest, _, _, _, _, _, hloop, n => by
    rw [Parser.binary]
    exact .bind (h.read hrest) (hloop n)
  | _, _, _, .tighter h, _, hrest, hnext, _, hleast, _, _, hloop, n =>
    h.read hrest (fun m op hop => (hnext m op hop).trans (Nat.le_succ _)) (hleast.trans (Nat.le_succ _)) hloop n
  | _, _, _, @Binary.operation l _ us left right p op hl hop hr, rest, hrest, hnext, least, hleast, r, rest', hloop,
      n => by
    have hstop : ∀ m op, Parser.binaryOperator? (Token.next rest) = some (m, op) → m < l + 1 :=
      fun m op hop => Nat.lt_succ_of_le (hnext m op hop)
    have hright : ∀ n, Reads (Parser.binary n (l + 1)) (us.map Token.bare ++ rest) right rest :=
      hr.read hrest (fun m op hop => (hstop m op hop).le) (Nat.le_refl _) (Parser.reads_climb_stop right hstop)
    have hclimb : ∀ n, Reads (Parser.climb n least left) (.bare (.punct p) :: (us.map Token.bare ++ rest)) r rest' := by
      refine Parser.reads_climb_operator rfl hop hleast hright ?_
      rw [hl.span, hr.span]
      exact hloop
    rw [Token.bare_append]
    -- the left operand runs into the loop, which goes on with the operator
    refine hl.read ?_ (fun m op' hop' => ?_) hleast hclimb n
    · exact .ofOperator hop
    · cases (binaryOperator?_eq_some_iff.2 ⟨p, rfl, hop⟩).symm.trans hop'
      exact Nat.le_refl l

theorem Unary.read : ∀ {ks : List TokenKind} {e : Expr}, Unary ks e → Spells Parser.unary ks e EndsOperand
  | _, _, .signed hop h, n, rest, hrest => by
    refine Reads.ofSucc (p := Parser.unary) (fun n => ?_) n
    rw [Parser.unary]
    refine .peekCons ?_
    rw [unaryOperator?_eq_some_iff.2 ⟨_, rfl, hop⟩]
    refine .take (.bind (h.read hrest) ?_)
    rw [h.span]
    exact .pure _ _
  | _, _, .cast hword hdepth h, n, rest, hrest => by
    simp only [Token.bare_append, Token.bare_cons]
    refine Reads.ofSucc (p := Parser.unary) (fun n => ?_) n
    rw [Parser.unary]
    refine .peekCons (.peekSecond fun second hsecond => ?_)
    have htype : second.kind.isTypeKeyword = true := by
      rw [hsecond]
      exact isTypeKeyword_iff.2 ⟨_, baseType?_eq_some_iff.2 ⟨_, rfl, hword⟩⟩
    rw [htype, if_pos (by decide)]
    refine .take (.bind (.baseType rfl hword _) (.bind (Parser.reads_stars hdepth rfl n) ?_))
    refine .bind (.expect rfl _ _) (.bind (h.read hrest) ?_)
    rw [h.span]
    exact .pure _ _
  | _, e, .suffixed h, n, rest, hrest => by
    have hoperand := h.read hrest.notCall (Parser.reads_suffixes_stop e hrest)
    obtain ⟨k, us, rfl, hopens, hcast⟩ := h.begins
    rw [Token.bare_cons] at hoperand ⊢
    refine Reads.ofSucc (p := Parser.unary) (fun n => ?_) n
    rw [Parser.unary]
    refine .peekCons ?_
    rw [hopens.notSign]
    refine .peekSecond fun second hsecond => ?_
    have hplain : (k.isPunct .leftParen && second.kind.isTypeKeyword) = false := by
      by_cases hparen : k.isPunct .leftParen = true
      · obtain ⟨k', us', rfl, htype⟩ := hcast (TokenKind.isPunct_iff.1 hparen)
        rw [hsecond, Token.bare_cons, Token.next_cons, htype, Bool.and_false]
      · rw [Bool.eq_false_iff.mpr hparen, Bool.false_and]
    rw [hplain]
    exact hoperand (n + 1)

/-- An operand is read by running into the loop over its suffixes. -/
theorem Suffixed.read : ∀ {ks : List TokenKind} {e : Expr}, Suffixed ks e →
    ∀ {rest : List Token}, (Token.next rest).isPunct .leftParen = false →
      ∀ {r : Expr} {rest' : List Token}, (∀ n, Reads (Parser.suffixes n e) rest r rest') →
      ∀ n, Reads (Parser.primary n >>= Parser.suffixes n) (ks.map Token.bare ++ rest) r rest'
  | _, _, .primary h, _, hrest, _, _, hloop, n => .bind (h.read hrest) (hloop n)
  | _, _, @Suffixed.index _ _ array _ ha hi, _, _, _, _, hloop, n => by
    simp only [Token.bare_append, Token.bare_cons, Token.bare_nil]
    refine ha.read rfl (fun n => ?_) n
    refine Reads.ofSucc (p := fun n => Parser.suffixes n array) (fun n => ?_) n
    rw [Parser.suffixes]
    refine .peekCons ?_
    rw [if_pos (by decide)]
    refine .take (.bind (hi.read.before endsExpr_rightBracket) (.bind (.expect rfl _ _) ?_))
    rw [ha.span]
    exact hloop n
  | _, _, .step (e := e) h hop, _, _, _, _, hloop, n => by
    simp only [Token.bare_append, Token.bare_cons, Token.bare_nil]
    refine h.read (by fin_cases hop <;> rfl) (fun n => ?_) n
    refine Reads.ofSucc (p := fun n => Parser.suffixes n e) (fun n => ?_) n
    rw [Parser.suffixes]
    refine .peekCons ?_
    rw [if_neg (by fin_cases hop <;> decide), stepOperator?_eq_some_iff.2 ⟨_, rfl, hop⟩]
    refine .take ?_
    rw [h.span]
    exact hloop n

theorem Primary.read : ∀ {ks : List TokenKind} {e : Expr}, Primary ks e →
    Spells Parser.primary ks e (·.isPunct .leftParen = false)
  | _, _, .literal h, n, rest, _ => Parser.reads_literal (t := .bare _) (literal?_eq_some_iff.2 h) rest n
  | _, _, .name name, n, rest, hrest => by
    refine Parser.reads_named (t := .bare _) rfl (fun n => ?_) n
    cases n with
    | zero =>
      rw [Parser.named]
      exact .pure _ _
    | succ n =>
      rw [Parser.named]
      exact .atNo hrest (.pure _ _)
  | _, _, .emptyCall f, n, rest, _ => by
    refine Parser.reads_named (t := .bare _) rfl (Parser.reads_called (t := .bare _) rfl fun n => ?_) n
    exact .atYes rfl (.bind (.pure [] _) (.bind (.expect rfl _ _) (.pure _ _)))
  | _, _, .call h, n, rest, _ => by
    simp only [Token.bare_append, Token.bare_cons, Token.bare_nil]
    refine Parser.reads_named rfl (Parser.reads_called rfl fun n => .atNo ?_ ?_) n
    · obtain ⟨k, us, rfl, hk⟩ := h.begins
      exact hk.notCloseParen
    · exact .bind (h.read.before rfl) (.bind (.expect rfl _ _) (.pure _ _))
  | _, e, .parenthesized h, n, rest, _ => by
    simp only [Token.bare_append, Token.bare_cons, Token.bare_nil]
    refine Reads.ofSucc (p := Parser.primary) (fun n => ?_) n
    rw [Parser.primary]
    refine .peekCons (.take (.bind (h.read.before endsExpr_rightParen) (.bind (.expect rfl _ _) ?_)))
    show Reads (pure (e.withSpan .unknown)) rest e rest
    rw [Expr.withSpan_eq h.span]
    exact .pure _ _

theorem Arguments.read : ∀ {ks : List TokenKind} {es : List Expr}, Arguments ks es →
    Spells Parser.arguments ks es (· = .punct .rightParen)
  | _, _, .last h, n, rest, hrest => by
    rw [Parser.arguments]
    refine .bind (h.read (hrest ▸ endsExpr_rightParen)) ?_
    cases n with
    | zero =>
      rw [Parser.moreArguments]
      exact .pure _ _
    | succ n =>
      rw [Parser.moreArguments]
      exact .atNo (by rw [hrest]; rfl) (.pure _ _)
  | _, _, .more (e := e) h hs, n, rest, hrest => by
    simp only [Token.bare_append, Token.bare_cons]
    rw [Parser.arguments]
    refine .bind (h.read.before endsExpr_comma) ?_
    refine Reads.ofSucc (p := fun n => Parser.moreArguments n e) (fun n => ?_) n
    rw [Parser.moreArguments]
    exact .atYes rfl (.take (.bind (hs.read hrest) (.pure _ _)))

end

/-- Tokens spell one tree at most: the parser would read both from them. -/
theorem Assignment.unique {ks : List TokenKind} {e1 e2 : Expr} (h1 : Assignment ks e1)
    (h2 : Assignment ks e2) : e1 = e2 := by
  have hend : EndsExpr (Token.next []) := ⟨⟨rfl, rfl, rfl⟩, rfl, rfl⟩
  let c : Cursor _ := ⟨ks.map Token.bare ++ [], .unknown, Nat.le_refl _⟩
  obtain ⟨c1, hrun1, -⟩ := h1.read hend c rfl
  obtain ⟨c2, hrun2, -⟩ := h2.read hend c rfl
  cases hrun1.symm.trans hrun2
  rfl

end Ast.Grammar

/-! ### The parser and the grammar -/

/-- An operator or delimiter that goes on an expression in front of it. -/
def Punct.Continues (p : Punct) : Prop :=
  (∃ l op, (p, op) ∈ operators l) ∨ (∃ op, (p, op) ∈ assignments) ∨
    p ∈ [.leftBracket, .leftParen, .plusPlus, .minusMinus]

/-- A stream that does not go on an expression in front of it. -/
def Token.Stops (rest : List Token) : Prop :=
  ∀ t ∈ rest.head?, ∀ p, t.kind = .punct p → ¬ p.Continues

theorem Token.Stops.endsExpr {rest : List Token} (h : Token.Stops rest) :
    EndsExpr (Token.next rest) := by
  cases rest with
  | nil => exact ⟨⟨rfl, rfl, rfl⟩, rfl, rfl⟩
  | cons t rest =>
    have hstop : ∀ p, t.kind = .punct p → ¬ p.Continues := h t rfl
    rw [Token.next_cons]
    refine ⟨⟨?_, ?_, ?_⟩, ?_, ?_⟩
    · refine Bool.eq_false_iff.mpr fun hp => hstop _ (TokenKind.isPunct_iff.1 hp) ?_
      exact .inr (.inr (by simp))
    · refine Bool.eq_false_iff.mpr fun hp => hstop _ (TokenKind.isPunct_iff.1 hp) ?_
      exact .inr (.inr (by simp))
    · refine Option.eq_none_iff_forall_ne_some.mpr fun op hop => ?_
      obtain ⟨p, hp, hmem⟩ := stepOperator?_eq_some_iff.1 hop
      refine hstop p hp (.inr (.inr ?_))
      fin_cases hmem <;> simp
    · refine Option.eq_none_iff_forall_ne_some.mpr fun found hop => ?_
      obtain ⟨p, hp, hmem⟩ := binaryOperator?_eq_some_iff.1 hop
      exact hstop p hp (.inl ⟨_, _, hmem⟩)
    · refine Option.eq_none_iff_forall_ne_some.mpr fun op hop => ?_
      obtain ⟨p, hp, hmem⟩ := assignOperator?_eq_some_iff.1 hop
      exact hstop p hp (.inr (.inl ⟨op, hmem⟩))

/-- Where the tokens of a phrase stand before a stream, the token set apart is one of the stream. -/
theorem Token.Stops.stream {ts rest tokens apart : List Token} (hrest : Token.Stops rest)
    (h : tokens ++ apart = ts ++ rest) (hapart : ∀ t ∈ apart, t.kind = .endOfFile ∧ apart = [t])
    (hts : TokenKind.endOfFile ∉ ts.map Token.kind) :
    ∃ rest0, tokens = ts ++ rest0 ∧ rest0 ++ apart = rest ∧ Token.Stops rest0 := by
  cases apart with
  | nil => exact ⟨rest, by simpa using h, List.append_nil rest, hrest⟩
  | cons t others =>
    obtain ⟨hend, hsingle⟩ := hapart t List.mem_cons_self
    rw [hsingle] at h ⊢
    rcases List.eq_nil_or_concat' rest with rfl | ⟨rest0, last, rfl⟩
    · rw [List.append_nil] at h
      refine absurd ?_ hts
      rw [← h, ← hend]
      exact List.mem_map_of_mem (by simp)
    · rw [← List.append_assoc] at h
      obtain ⟨rfl, hlast⟩ := List.append_inj' h rfl
      refine ⟨rest0, rfl, by rw [hlast], fun u hu => hrest u ?_⟩
      cases rest0 with
      | nil => cases hu
      | cons v vs => exact hu

/-- The parser of expressions accepts the grammar of expressions. On tokens `ts` and a stream `rest` that
does not go on an expression, it gives a tree and leaves just `rest` (the end-of-file token that the
stream sets apart counted in) if and only if `ts` is derived in the grammar, with that tree. And no
tokens are derived with two trees. The types of the grammar have at most 255 stars; past them the
parser gives no tree but an overflow (`Parser.expr_overflow`). -/
theorem Parser.expr_accepts_grammar {ts rest : List Token}
    (hcomments : ∀ t ∈ ts ++ rest, t.kind.isComment = false) (hrest : Token.Stops rest) :
    (∀ e : Expr,
      (∃ e' c', (Parser.expr _).run (Cursor.ofTokens (ts ++ rest)).2 = (.ok e', c') ∧
        e'.erase = e ∧ c'.tokens ++ Token.setApart (ts ++ rest) = rest) ↔
      Assignment (ts.map Token.kind) e) ∧
    ∀ e1 e2, Assignment (ts.map Token.kind) e1 → Assignment (ts.map Token.kind) e2 → e1 = e2 := by
  have hvisible : ((ts ++ rest).filter fun t => !t.kind.isComment) = ts ++ rest :=
    List.filter_eq_self.mpr fun t ht => by rw [hcomments t ht]; rfl
  have hstream := Cursor.tokens_ofTokens_append (ts ++ rest)
  rw [hvisible] at hstream
  refine ⟨fun e => ⟨?_, fun h => ?_⟩, fun e1 e2 h1 h2 => h1.unique h2⟩
  · rintro ⟨e', c', hrun, rfl, hleft⟩
    obtain ⟨_, us, hus, _, hderives⟩ := (Parser.exprParses _).expr (Cursor.ofTokens (ts ++ rest)).2
    rw [hrun] at hus hderives
    have htaken : us ++ rest = ts ++ rest := by
      rw [← hstream, hus, List.append_assoc, hleft]
    rw [← List.append_cancel_right htaken]
    exact (hderives e' rfl).1
  · obtain ⟨rest0, htokens, hleft, hstops⟩ :=
      hrest.stream hstream (fun _ => Token.of_mem_setApart) h.noEnd
    have hends : EndsExpr (Token.next (rest0.map Token.erase)) := Token.next_erase rest0 ▸ hstops.endsExpr
    obtain ⟨e', c', hrun, he', hc'⟩ := ((Parser.exprParses _).expr _).reads htokens (h.read hends)
    exact ⟨e', c', hrun, he', by rw [hc']; exact hleft⟩

/-- `a = b - c * -d - f(x)[1]`, and then the end of its statement. -/
def Token.chain : List Token :=
  [.identifier "a", .punct .equal, .identifier "b", .punct .minus, .identifier "c", .punct .star,
    .punct .minus, .identifier "d", .punct .minus, .identifier "f", .punct .leftParen,
    .identifier "x", .punct .rightParen, .punct .leftBracket, .intLit 1,
    .punct .rightBracket].map fun k => ⟨k, .unknown⟩

/-- Subtractions are joined from the left and the product before them; the assignment comes last. -/
theorem Parser.expr_accepts_chain :
    ∃ e c, (Parser.expr _).run
        (Cursor.ofTokens (Token.chain ++ [⟨.punct .semicolon, .unknown⟩, ⟨.endOfFile, .unknown⟩])).2 =
        (.ok e, c) ∧
      e.erase = .assign .assign (.name "a" .unknown)
        (.binary .sub
          (.binary .sub (.name "b" .unknown)
            (.binary .mul (.name "c" .unknown) (.unary .minus (.name "d" .unknown) .unknown) .unknown)
            .unknown)
          (.index (.call "f" [.name "x" .unknown] .unknown) (.literal (.int 1) .unknown) .unknown)
          .unknown) .unknown ∧
      c.tokens ++ Token.setApart
          (Token.chain ++ [⟨.punct .semicolon, .unknown⟩, ⟨.endOfFile, .unknown⟩]) =
        [⟨.punct .semicolon, .unknown⟩, ⟨.endOfFile, .unknown⟩] := by
  have operand : ∀ {ts e}, Primary ts e → Unary ts e := fun h => .suffixed (.primary h)
  have name : ∀ n, Binary 11 [.identifier n] (.name n .unknown) := fun n => .unary (operand (.name n))
  have product : Binary 10 [.identifier "c", .punct .star, .punct .minus, .identifier "d"] _ :=
    .operation ((name "c").loosen (by decide)) (by decide : (.star, .mul) ∈ operators 10)
      (.unary (.signed (by decide : (.minus, .minus) ∈ signs) (operand (.name "d"))))
  have element : Binary 11 [.identifier "f", .punct .leftParen, .identifier "x", .punct .rightParen,
      .punct .leftBracket, .intLit 1, .punct .rightBracket] _ :=
    .unary (.suffixed (.index (.primary (.call (.last (.binary ((name "x").loosen (by decide))))))
      (.binary ((Binary.unary (operand (.literal (.int 1)))).loosen (by decide)))))
  have difference : Binary 9 _ _ :=
    .operation (.operation ((name "b").loosen (by decide)) (by decide : (.minus, .sub) ∈ operators 9)
      product) (by decide : (.minus, .sub) ∈ operators 9) (element.loosen (by decide))
  have hstops : Token.Stops [⟨.punct .semicolon, .unknown⟩, ⟨.endOfFile, .unknown⟩] := by
    intro t ht p hp
    obtain rfl : _ = t := Option.some.inj ht
    cases hp
    rintro (⟨l, op, h⟩ | ⟨op, h⟩ | h)
    · cases binaryOperator?_eq_some_iff.2 ⟨_, rfl, h⟩
    · cases assignOperator?_eq_some_iff.2 ⟨_, rfl, h⟩
    · exact absurd h (by decide)
  refine ((Parser.expr_accepts_grammar (by decide) hstops).1 _).mpr ?_
  exact .assign ((name "a").loosen (by decide)) (by decide : (.equal, .assign) ∈ assignments)
    (.binary (difference.loosen (by decide)))

end MiniC
