import MiniC.Proofs.Ast.Phrase

/-!
# What parsing does

One walk through the rules of the parser shows what all of them have in common (`Parses`). A rule takes tokens
from the front of the stream and leaves the others. It looks neither at ranges nor at the bound on its recursion:
on the stream without ranges, under the next larger bound, it does what it does on the stream, and what comes out,
tree, failure and rest of the stream, has lost its ranges. And its tree is read from the tokens that were taken
(`ReadFrom`); an expression is derived from them in the grammar.

The rules are proved by the recursion they are defined by, on the number of tokens to go. A rule that has come to
the bound stands at the end of the stream, where it would not go on under a larger bound either. Operators are read
by climbing: one loop with a least level takes the place of the ten levels of the grammar. What goes through the
loop is that its left operand stands at a level which the next operator does not exceed.
-/

set_option autoImplicit false

namespace MiniC

open Ast

/-! ### Streams without ranges -/

@[simp] theorem Span.extend_unknown : Span.unknown.extend Span.unknown = .unknown := rfl

/-- The token without its range. -/
def Token.erase (t : Token) : Token := ⟨t.kind, .unknown⟩

theorem Token.kind_erase (t : Token) : t.erase.kind = t.kind := rfl

theorem Token.next_erase (ts : List Token) : Token.next (ts.map Token.erase) = Token.next ts := by
  cases ts <;> rfl

theorem Token.kind_head (ts : List Token) (s : Span) : (ts.head?.getD ⟨.endOfFile, s⟩).kind = Token.next ts := by
  cases ts <;> rfl

/-- The failure without its place. -/
def ParseError.erase : ParseError → ParseError
  | unexpectedToken expected found => unexpectedToken expected found.erase
  | unexpectedEnd expected _ => unexpectedEnd expected .unknown
  | badArrayLength found _ => badArrayLength found .unknown
  | overflow => overflow

theorem ParseError.message_erase (e : ParseError) : e.erase.message = e.message := by
  cases e <;> rfl

namespace Cursor

variable {n : Nat}

/-- The place in the stream without ranges, under the next larger bound. -/
def erase (c : Cursor n) : Cursor (n + 1) :=
  ⟨c.tokens.map Token.erase, .unknown, by rw [List.length_map]; exact Nat.le_succ_of_le c.bounded⟩

theorem peek_erase (c : Cursor n) : c.erase.peek = c.peek.erase := by
  obtain ⟨_ | ⟨t, ts⟩, endSpan, hc⟩ := c <;> rfl

theorem peekSecond_erase (c : Cursor n) : c.erase.peekSecond = c.peekSecond.erase := by
  obtain ⟨_ | ⟨t, _ | ⟨t', ts⟩⟩, endSpan, hc⟩ := c <;> rfl

theorem advance_erase (c : Cursor n) : c.erase.advance = c.advance.erase := by
  simp only [Cursor.advance, Cursor.erase, List.map_tail]

theorem drop_erase (c : Cursor (n + 1)) : c.erase.drop = c.drop.erase := by
  simp only [Cursor.drop, Cursor.erase, List.map_tail]

theorem drained (c : Cursor 0) : c.tokens = [] := List.length_eq_zero_iff.mp (Nat.le_zero.mp c.bounded)

/-- Where tokens have been taken, there is room under the next smaller bound. -/
theorem length_le (c : Cursor (n + 1)) {ts : List Token} {c' : Cursor (n + 1)} (h : c.tokens = ts ++ c'.tokens)
    (hne : ts ≠ []) : c'.tokens.length ≤ n := by
  have hbound := c.bounded
  have hpos := List.length_pos_iff.mpr hne
  rw [h, List.length_append] at hbound
  omega

end Cursor

namespace Parser

variable {n : Nat} {α β γ δ : Type}

/-- What a parser does at a place of a stream: the second parser, under the next larger bound, does the same without
ranges, and tokens have been taken. What they, the result and the tokens left have to do with each other is `R`. -/
def Parses (forget : α → β) (R : List Token → α → List Token → Prop) (p : Parser n α) (p' : Parser (n + 1) β)
    (c : Cursor n) : Prop :=
  p'.run c.erase = (((p.run c).1.map forget).mapError ParseError.erase, (p.run c).2.erase) ∧
  ∃ ts, c.tokens = ts ++ (p.run c).2.tokens ∧ (p.run c).2.endSpan = c.endSpan ∧
    ∀ a, (p.run c).1 = .ok a → R ts a (p.run c).2.tokens

/-- A rule under a bound whose trees are read from tokens as `R` says. -/
abbrev Makes (n : Nat) (forget : α → α) (R : List Token → α → Prop) (p : (n : Nat) → Parser n α) : Prop :=
  ∀ c, Parses forget (fun ts a _ => R ts a) (p n) (p (n + 1)) c

/-! ### Combinators -/

section Combinators

variable {forget : α → β} {forget' : γ → δ} {R : List Token → α → List Token → Prop}
  {Q : List Token → γ → List Token → Prop} {p : Parser n α} {p' : Parser (n + 1) β} {c : Cursor n}

theorem parses_pure {a : α} {b : β} (h : b = forget a) (hR : R [] a c.tokens) :
    Parses forget R (pure a) (pure b) c := by
  subst h
  exact ⟨rfl, [], rfl, rfl, fun _ ha => by cases ha; exact hR⟩

theorem Parses.mono {R' : List Token → α → List Token → Prop} (h : Parses forget R p p' c)
    (himp : ∀ ts a rest, R ts a rest → R' ts a rest) : Parses forget R' p p' c := by
  obtain ⟨herased, ts, hts, hend, hR⟩ := h
  exact ⟨herased, ts, hts, hend, fun a ha => himp ts a _ (hR a ha)⟩

theorem Parses.bindFrom {f : α → Parser n γ} {f' : β → Parser (n + 1) δ} (hp : Parses forget R p p' c)
    (hf : ∀ ts a c', c.tokens = ts ++ c'.tokens → c'.endSpan = c.endSpan → R ts a c'.tokens →
      Parses forget' (fun us b rest => Q (ts ++ us) b rest) (f a) (f' (forget a)) c') :
    Parses forget' Q (p >>= f) (p' >>= f') c := by
  obtain ⟨herased, ts, hts, hend, hR⟩ := hp
  unfold Parses
  rw [run_bind, run_bind, herased]
  cases hrun : p.run c with
  | mk result c' =>
    rw [hrun] at hts hend hR
    cases result with
    | error e => exact ⟨rfl, ts, hts, hend, fun _ hb => by cases hb⟩
    | ok a =>
      obtain ⟨herased', us, hus, hend', hQ⟩ := hf ts a c' hts hend (hR a rfl)
      exact ⟨herased', ts ++ us, by rw [hts, hus, List.append_assoc]; rfl, hend'.trans hend, hQ⟩

theorem Parses.bind {f : α → Parser n γ} {f' : β → Parser (n + 1) δ} (hp : Parses forget R p p' c)
    (hf : ∀ ts a c', R ts a c'.tokens →
      Parses forget' (fun us b rest => Q (ts ++ us) b rest) (f a) (f' (forget a)) c') :
    Parses forget' Q (p >>= f) (p' >>= f') c :=
  hp.bindFrom fun ts a c' _ _ => hf ts a c'

theorem parses_peek {f : Token → Parser n α} {f' : Token → Parser (n + 1) β}
    (h : Parses forget R (f c.peek) (f' c.peek.erase) c) :
    Parses forget R (peek >>= f) (peek >>= f') c := by
  unfold Parses
  rw [run_peek_bind, run_peek_bind, Cursor.peek_erase]
  exact h

theorem parses_peekSecond {f : Token → Parser n α} {f' : Token → Parser (n + 1) β}
    (h : Parses forget R (f c.peekSecond) (f' c.peekSecond.erase) c) :
    Parses forget R (peekSecond >>= f) (peekSecond >>= f') c := by
  unfold Parses
  rw [run_peekSecond_bind, run_peekSecond_bind, Cursor.peekSecond_erase]
  exact h

/-- At the end of the stream a rule under a larger bound sees the end of the file. -/
theorem parses_drained {p : Parser 0 α} {g : Token → Parser 1 β} {c : Cursor 0}
    (h : Parses forget R p (g ⟨.endOfFile, .unknown⟩) c) : Parses forget R p (peek >>= g) c := by
  unfold Parses
  have hpeek : c.erase.peek = ⟨.endOfFile, .unknown⟩ := by
    rw [Cursor.peek_erase, Cursor.peek, c.drained]
    rfl
  rw [run_peek_bind, hpeek]
  exact h

theorem parses_at_drained {q : Punct} {p : Parser 0 α} {yes' no' : Parser 1 β} {c : Cursor 0}
    (h : Parses forget R p no' c) : Parses forget R p (do if ← at? q then yes' else no') c :=
  parses_drained (g := fun t => if t.kind.isPunct q then yes' else no') h

theorem parses_advance : Parses Token.erase (fun ts t _ => t.kind.isEnd = false → ts = [t]) advance advance c := by
  constructor
  · show (Except.ok c.erase.peek, c.erase.advance) = _
    rw [Cursor.peek_erase, Cursor.advance_erase]
    rfl
  · refine ⟨c.tokens.take 1, ?_, rfl, fun t ht hend => ?_⟩
    · show c.tokens = _ ++ c.tokens.tail
      rw [← List.drop_one, List.take_append_drop]
    · cases ht
      rw [Cursor.tokens_eq_of_not_end hend]
      rfl

theorem parses_advance_bind {f : Token → Parser n α} {f' : Token → Parser (n + 1) β} (hend : c.peek.kind.isEnd = false)
    (h : ∀ c', Parses forget (fun ts a rest => R (c.peek :: ts) a rest) (f c.peek) (f' c.peek.erase) c') :
    Parses forget R (advance >>= f) (advance >>= f') c := by
  have htokens := Cursor.tokens_eq_of_not_end hend
  unfold Parses
  rw [run_advance_bind, run_advance_bind, Cursor.peek_erase, Cursor.advance_erase]
  obtain ⟨herased, ts, hts, hspan, hR⟩ := h c.advance
  exact ⟨herased, c.peek :: ts, by rw [htokens, List.cons_append, ← hts]; rfl, hspan, hR⟩

theorem parses_take {next : Token → Parser n α} {next' : Token → Parser (n + 1) β} {c : Cursor (n + 1)}
    (hend : c.peek.kind.isEnd = false)
    (h : ∀ c', Parses forget (fun ts a rest => R (c.peek :: ts) a rest) (next c.peek) (next' c.peek.erase) c') :
    Parses forget R (take next) (take next') c := by
  have htokens := Cursor.tokens_eq_of_not_end hend
  obtain ⟨herased, ts, hts, hspan, hR⟩ := h c.drop
  constructor
  · show ((run (next' c.erase.peek) c.erase.drop).1, (run (next' c.erase.peek) c.erase.drop).2.widen) = _
    rw [Cursor.peek_erase, Cursor.drop_erase, herased]
    rfl
  · exact ⟨c.peek :: ts, by rw [htokens, List.cons_append]; exact congrArg _ hts, hspan, hR⟩

theorem parses_afterProgress {c : Cursor (n + 1)} {otherwise : α} {otherwise' : β} (hbound : c.tokens.length ≤ n)
    (h : ∀ c', Parses forget R p p' c') :
    Parses forget R (afterProgress p otherwise) (afterProgress p' otherwise') c := by
  have hrun : run (afterProgress p otherwise) c =
      ((p.run ⟨c.tokens, c.endSpan, hbound⟩).1, (p.run ⟨c.tokens, c.endSpan, hbound⟩).2.widen) :=
    dif_pos hbound
  have hbound' : c.erase.tokens.length ≤ n + 1 := by
    rw [Cursor.erase, List.length_map]
    exact Nat.le_succ_of_le hbound
  have hrun' : run (afterProgress p' otherwise') c.erase =
      ((p'.run (Cursor.erase ⟨c.tokens, c.endSpan, hbound⟩)).1,
        (p'.run (Cursor.erase ⟨c.tokens, c.endSpan, hbound⟩)).2.widen) :=
    dif_pos hbound'
  obtain ⟨herased, htaken⟩ := h ⟨c.tokens, c.endSpan, hbound⟩
  unfold Parses
  rw [hrun, hrun', herased]
  exact ⟨rfl, htaken⟩

theorem parses_unexpected (expected : Expected) :
    Parses forget R (unexpected expected) (unexpected expected) c := by
  refine ⟨?_, [], rfl, rfl, fun a ha => by cases ha⟩
  show (Except.error (if c.erase.peek.kind.isEnd then _ else _), c.erase) =
    ((Except.error (if c.peek.kind.isEnd then _ else _) : Except ParseError α).map forget
      |>.mapError ParseError.erase, c.erase)
  rw [Cursor.peek_erase]
  show (Except.error (if c.peek.kind.isEnd then _ else _), c.erase) = _
  split
  · rfl
  · rfl

theorem parses_throw (e : ParseError) : Parses forget R (throw e) (throw e.erase) c :=
  ⟨rfl, [], rfl, rfl, fun a ha => by cases ha⟩

theorem parses_ite {b : Prop} [Decidable b] {q : Parser n α} {q' : Parser (n + 1) β}
    (hp : b → Parses forget R p p' c) (hq : ¬ b → Parses forget R q q' c) :
    Parses forget R (if b then p else q) (if b then p' else q') c := by
  split
  next h => exact hp h
  next h => exact hq h

theorem isEnd_of_punct {k : TokenKind} {q : Punct} (h : k = .punct q) : k.isEnd = false := by
  subst h
  rfl

/-- A token that something is made of does not end the stream. -/
theorem isEnd_of_some {f : TokenKind → Option γ} {k : TokenKind} {x : γ} (h : f k = some x)
    (hf : f .endOfFile = none) : k.isEnd = false := by
  cases k with
  | endOfFile =>
    rw [hf] at h
    cases h
  | _ => rfl

theorem parses_at {q : Punct} {no : Parser n α} {no' : Parser (n + 1) β}
    (hyes : c.peek.kind = .punct q → Parses forget R p p' c) (hno : Parses forget R no no' c) :
    Parses forget R (do if ← at? q then p else no) (do if ← at? q then p' else no') c := by
  unfold Parses
  rw [run_at_bind, run_at_bind, Cursor.peek_erase]
  exact parses_ite (fun h => hyes (TokenKind.isPunct_iff.1 h)) (fun _ => hno)

theorem parses_accept {q : Punct} {f : Bool → Parser n α} {f' : Bool → Parser (n + 1) β}
    (hyes : c.peek.kind = .punct q →
      ∀ c', Parses forget (fun ts a rest => R (c.peek :: ts) a rest) (f true) (f' true) c')
    (hno : Parses forget R (f false) (f' false) c) :
    Parses forget R (accept q >>= f) (accept q >>= f') c := by
  have hrun : ∀ {α : Type} {n : Nat} (f : Bool → Parser n α) (c : Cursor n), run (accept q >>= f) c =
      run (do if ← at? q then (do let _ ← advance; f true) else f false) c := by
    intro α n f c
    rw [run_at_bind, run_bind, accept, run_at_bind]
    cases c.peek.kind.isPunct q <;> rfl
  unfold Parses
  rw [hrun, hrun]
  exact parses_at (fun h => parses_advance_bind (isEnd_of_punct h) (hyes h)) hno

theorem parses_expect {q : Punct} {context : String} {f : Token → Parser n α} {f' : Token → Parser (n + 1) β}
    (h : ∀ t c', t.kind = .punct q →
      Parses forget (fun ts a rest => R (t :: ts) a rest) (f t) (f' t.erase) c') :
    Parses forget R (expect q context >>= f) (expect q context >>= f') c := by
  have hexpect : Parses Token.erase (fun ts t _ => ts = [t] ∧ t.kind = .punct q) (expect q context)
      (expect q context) c := by
    refine parses_at (fun hq => ?_) (parses_unexpected _)
    obtain ⟨herased, ts, hts, hspan, hone⟩ := parses_advance
    refine ⟨herased, ts, hts, hspan, fun t ht => ?_⟩
    cases ht
    exact ⟨hone _ rfl (isEnd_of_punct hq), hq⟩
  refine hexpect.bind fun ts t c' ht => ?_
  obtain ⟨rfl, hkind⟩ := ht
  exact h t c' hkind

theorem parses_identifier {context : String} {f : String × Span → Parser n α} {f' : String × Span → Parser (n + 1) β}
    (h : ∀ t name c', t.kind = .identifier name →
      Parses forget (fun ts a rest => R (t :: ts) a rest) (f (name, t.span)) (f' (name, .unknown)) c') :
    Parses forget R (identifier context >>= f) (identifier context >>= f') c := by
  have hname : Parses (fun named : String × Span => (named.1, Span.unknown))
      (fun ts named _ => ts = [c.peek] ∧ named.2 = c.peek.span ∧ c.peek.kind = .identifier named.1)
      (identifier context) (identifier context) c := by
    refine parses_peek ?_
    rw [Token.kind_erase]
    cases hkind : c.peek.kind with
    | identifier name =>
      exact parses_advance_bind (by rw [hkind]; rfl) fun _ => parses_pure rfl ⟨rfl, rfl, rfl⟩
    | _ => exact parses_unexpected _
  refine hname.bind fun ts named c' hnamed => ?_
  obtain ⟨name, span⟩ := named
  obtain ⟨rfl, rfl, hkind⟩ := hnamed
  exact h c.peek name c' hkind

theorem parses_baseType {f : BaseType → Parser n α} {f' : BaseType → Parser (n + 1) β}
    (h : ∀ base word c', c.peek.kind = .keyword word → (word, base) ∈ Grammar.typeWords →
      Parses forget (fun ts a rest => R (c.peek :: ts) a rest) (f base) (f' base) c') :
    Parses forget R (baseType >>= f) (baseType >>= f') c := by
  have hbase : Parses id (fun ts base _ => ts = [c.peek] ∧ baseType? c.peek.kind = some base) baseType baseType c := by
    refine parses_peek ?_
    rw [Token.kind_erase]
    cases hkind : baseType? c.peek.kind with
    | some base => exact parses_advance_bind (isEnd_of_some hkind rfl) fun _ => parses_pure rfl ⟨rfl, rfl⟩
    | none => exact parses_unexpected _
  refine hbase.bind fun ts base c' hts => ?_
  obtain ⟨rfl, hkind⟩ := hts
  obtain ⟨word, hword, hmem⟩ := Grammar.baseType?_eq_some_iff.1 hkind
  exact h base word c' hword hmem

/-- A level of pointers is counted without taking a token, if the count fits its byte. -/
theorem parses_deepen {depth : Nat} {f : Nat → Parser n α} {f' : Nat → Parser (n + 1) β}
    (h : depth < 255 → Parses forget R (f (depth + 1)) (f' (depth + 1)) c) :
    Parses forget R (deepen depth >>= f) (deepen depth >>= f') c := by
  unfold deepen
  by_cases hroom : depth + 1 < UInt8.size
  · rw [if_pos hroom, if_pos hroom]
    exact h (Nat.lt_of_succ_lt_succ hroom)
  · rw [if_neg hroom, if_neg hroom]
    exact parses_throw .overflow

/-- The stars that are taken are added to those counted before, and all of them fit a byte. -/
theorem parses_starsFrom {before : Nat} (hbefore : before ≤ 255) (n : Nat) (c : Cursor n) :
    Parses id (fun ts depth _ => before ≤ depth ∧ depth ≤ 255 ∧
        ts.map Token.kind = List.replicate (depth - before) (.punct .star))
      (starsFrom before n) (starsFrom before (n + 1)) c := by
  have hstop : before ≤ before ∧ before ≤ 255 ∧
      ([] : List Token).map Token.kind = List.replicate (before - before) (.punct .star) :=
    ⟨Nat.le_refl _, hbefore, by simp⟩
  induction n generalizing before with
  | zero => exact parses_at_drained (parses_pure rfl hstop)
  | succ n ih =>
    refine parses_at (fun hstar => parses_take (isEnd_of_punct hstar) fun c' => ?_)
      (parses_pure rfl hstop)
    refine parses_deepen fun hroom => (ih hroom c' ⟨Nat.le_refl _, hroom, by simp⟩).mono ?_
    rintro ts depth rest ⟨hle, hfits, hts⟩
    refine ⟨Nat.le_of_succ_le hle, hfits, ?_⟩
    rw [show depth - before = depth - (before + 1) + 1 by omega, List.replicate_succ]
    simp [hstar, hts]

theorem parses_stars {f : Nat → Parser n α} {f' : Nat → Parser (n + 1) β}
    (h : ∀ ts depth c', depth ≤ 255 → ts.map Token.kind = List.replicate depth (.punct .star) →
      Parses forget (fun us a rest => R (ts ++ us) a rest) (f depth) (f' depth) c') :
    Parses forget R (stars n >>= f) (stars (n + 1) >>= f') c :=
  (parses_starsFrom (Nat.zero_le _) n c).bind fun ts depth c' hts => h ts depth c' hts.2.1 hts.2.2

end Combinators

/-! ### Expressions -/

open Ast.Grammar

/-- No operator of a level is next. -/
def Below (level : Nat) (rest : List Token) : Prop :=
  ∀ l op, binaryOperator? (Token.next rest) = some (l, op) → l < level

/-- The expression is derived in the grammar and read from the tokens. -/
def Derived (G : List TokenKind → Expr → Prop) (ts : List Token) (e : Expr) : Prop :=
  G (ts.map Token.kind) e.erase ∧ (Node.expr e).Read ts

/-- The trees are read from the tokens, with commas between them. -/
def Listed (f : α → Node) (as : List α) (ts : List Token) : Prop :=
  ∃ parts, Commas (as.map f) parts ∧ ReadAll parts ts

theorem listed_nil (f : α → Node) : Listed f [] [] := ⟨[], .nil, readAll_nil⟩

theorem listed_one {f : α → Node} {a : α} {ts : List Token} (h : (f a).Read ts) : Listed f [a] ts :=
  ⟨[.node (f a)], .last _, h.begun.readAll⟩

theorem Listed.more {f : α → Node} {a : α} {as : List α} {ts us : List Token} {comma : Token} (ha : (f a).Read ts)
    (hcomma : comma.kind = .punct .comma) (h : Listed f as us) : Listed f (a :: as) (ts ++ comma :: us) := by
  obtain ⟨parts, hparts, hread⟩ := h
  exact ⟨_, .more hparts, ReadFrom.cons ha ((readFrom_word hcomma).cons hread)⟩

/-- The rules for expressions under a bound. -/
structure ExprParses (n : Nat) : Prop where
  expr : Makes n Expr.erase (Derived Assignment) expr
  binary (least : Nat) (hleast : least ≤ 11) (c : Cursor n) :
    Parses Expr.erase (fun ts e rest => Derived (Binary least) ts e ∧ Below least rest) (binary n least)
      (binary (n + 1) least) c
  climb (least : Nat) {l : Nat} {left : Expr} {ls : List Token} (hl : Derived (Binary l) ls left) (hle : least ≤ l)
    (c : Cursor n) (hnext : Below (l + 1) c.tokens) :
    Parses Expr.erase (fun ts e rest => Derived (Binary least) (ls ++ ts) e ∧ Below least rest) (climb n least left)
      (climb (n + 1) least left.erase) c
  unary : Makes n Expr.erase (Derived Unary) unary
  suffixes {operand : Expr} {ls : List Token} (ho : Derived Suffixed ls operand) (c : Cursor n) :
    Parses Expr.erase (fun ts e _ => Derived Suffixed (ls ++ ts) e) (suffixes n operand)
      (suffixes (n + 1) operand.erase) c
  named {t : Token} {name : String} (ht : t.kind = .identifier name) (c : Cursor n) :
    Parses Expr.erase (fun ts e _ => Derived Primary (t :: ts) e) (named n name t.span)
      (named (n + 1) name .unknown) c
  arguments : Makes n (List.map Expr.erase)
    (fun ts args => Arguments (ts.map Token.kind) (args.map Expr.erase) ∧ Listed .expr args ts) arguments

section Rules

variable {n : Nat} (ih : ∀ m, n = m + 1 → ExprParses m)
include ih

theorem parses_assignment {target : Expr} {ls : List Token} (ht : Derived (Binary 1) ls target) (c : Cursor n) :
    Parses Expr.erase (fun ts e _ => Derived Assignment (ls ++ ts) e) (assignment n target)
      (assignment (n + 1) target.erase) c := by
  have hnone : Derived Assignment (ls ++ []) target := by
    rw [List.append_nil]
    exact ⟨.binary ht.1, ht.2⟩
  cases n with
  | zero =>
    rw [assignment, assignment]
    exact parses_drained (parses_pure rfl hnone)
  | succ n =>
    rw [assignment, assignment]
    refine parses_peek ?_
    rw [Token.kind_erase]
    cases hop : assignOperator? c.peek.kind with
    | none => exact parses_pure rfl hnone
    | some op =>
      obtain ⟨p, hkind, hp⟩ := assignOperator?_eq_some_iff.1 hop
      refine parses_take (isEnd_of_punct hkind) fun c1 => ((ih n rfl).expr c1).bind fun ts value c2 hv => ?_
      refine parses_pure (by simp [Expr.erase]) ⟨?_, ?_⟩
      · simpa [hkind, Expr.erase] using Assignment.assign ht.1 hp hv.1
      · rw [List.append_nil]
        exact (ht.2.begun.extend (readAll_word hkind) hv.2).readWhole (.assign hp)

theorem parses_climb (least : Nat) {l : Nat} {left : Expr} {ls : List Token} (hl : Derived (Binary l) ls left)
    (hle : least ≤ l) (c : Cursor n) (hnext : Below (l + 1) c.tokens) :
    Parses Expr.erase (fun ts e rest => Derived (Binary least) (ls ++ ts) e ∧ Below least rest) (climb n least left)
      (climb (n + 1) least left.erase) c := by
  have hnone : Derived (Binary least) (ls ++ []) left := by
    rw [List.append_nil]
    exact ⟨hl.1.loosen hle, hl.2⟩
  cases n with
  | zero =>
    rw [climb, climb]
    refine parses_drained (parses_pure rfl ⟨hnone, fun m op hop => ?_⟩)
    rw [c.drained] at hop
    cases hop
  | succ n =>
    rw [climb, climb]
    refine parses_peek ?_
    rw [Token.kind_erase]
    cases hop : binaryOperator? c.peek.kind with
    | none =>
      refine parses_pure rfl ⟨hnone, fun m op hop' => ?_⟩
      rw [← Cursor.kind_peek, hop] at hop'
      cases hop'
    | some found =>
      obtain ⟨m, op⟩ := found
      obtain ⟨p, hkind, hp⟩ := binaryOperator?_eq_some_iff.1 hop
      refine parses_ite (fun hlow => parses_pure rfl ⟨hnone, fun m' op' hop' => ?_⟩) fun hhigh => ?_
      · rw [← Cursor.kind_peek, hop] at hop'
        cases hop'
        exact hlow
      · have hm : m ≤ l := Nat.le_of_lt_succ (hnext m op (by rw [← Cursor.kind_peek, hop]))
        have hm10 : m ≤ 10 := level_le hop
        refine parses_take (isEnd_of_punct hkind) fun c1 => ?_
        refine ((ih n rfl).binary (m + 1) (by omega) c1).bind fun ts right c2 hr => ?_
        rw [Expr.span_erase, Expr.span_erase, Span.extend_unknown]
        -- the right operand has taken all tighter operators, so the next one has at most this level
        have hoperation : Derived (Binary m) (ls ++ c.peek :: ts)
            (Expr.binary op left right (left.span.extend right.span)) := by
          refine ⟨?_, (hl.2.begun.extend (readAll_word hkind) hr.1.2).readWhole (.binary hp)⟩
          rw [Expr.erase, List.map_append, List.map_cons, hkind]
          exact .operation (hl.1.loosen hm) hp hr.1.1
        refine ((ih n rfl).climb least hoperation (by omega) c2 hr.2).mono fun us e rest he => ?_
        simpa using he

theorem parses_suffixes {operand : Expr} {ls : List Token} (ho : Derived Suffixed ls operand) (c : Cursor n) :
    Parses Expr.erase (fun ts e _ => Derived Suffixed (ls ++ ts) e) (suffixes n operand)
      (suffixes (n + 1) operand.erase) c := by
  have hnone : Derived Suffixed (ls ++ []) operand := by
    rw [List.append_nil]
    exact ho
  cases n with
  | zero =>
    rw [suffixes, suffixes]
    exact parses_drained (parses_pure rfl hnone)
  | succ n =>
    rw [suffixes, suffixes]
    refine parses_peek (parses_ite (fun hbracket => ?_) fun _ => ?_)
    · have hkind := TokenKind.isPunct_iff.1 hbracket
      refine parses_take (isEnd_of_punct hkind) fun c1 => ((ih n rfl).expr c1).bind fun ts i c2 hi => ?_
      refine parses_expect fun close c3 hclose => ?_
      rw [Expr.span_erase]
      have hindex : Derived Suffixed (ls ++ (c.peek :: ts ++ [close]))
          (.index operand i (operand.span.extend close.span)) := by
        refine ⟨?_, (ho.2.begun.extend ((readFrom_word hkind).cons hi.2.begun.readAll)
          (readFrom_word hclose)).readWhole .index⟩
        simpa [hkind, hclose, Expr.erase] using Suffixed.index ho.1 hi.1
      refine ((ih n rfl).suffixes hindex c3).mono fun us e rest he => ?_
      simpa using he
    · rw [Token.kind_erase]
      cases hop : stepOperator? c.peek.kind with
      | none => exact parses_pure rfl hnone
      | some op =>
        obtain ⟨p, hkind, hp⟩ := stepOperator?_eq_some_iff.1 hop
        refine parses_take (isEnd_of_punct hkind) fun c1 => ?_
        rw [Expr.span_erase]
        have hstep : Derived Suffixed (ls ++ [c.peek]) (.unary op operand (operand.span.extend c.peek.span)) := by
          refine ⟨?_, (ho.2.begun.extend readAll_nil (readFrom_word hkind)).readWhole (.step hp)⟩
          simpa [hkind, Expr.erase] using Suffixed.step ho.1 hp
        refine ((ih n rfl).suffixes hstep c1).mono fun us e rest he => ?_
        simpa using he

theorem parses_moreArguments {first : Expr} {ls : List Token} (hf : Derived Assignment ls first) (c : Cursor n) :
    Parses (List.map Expr.erase)
      (fun ts args _ => Arguments ((ls ++ ts).map Token.kind) (args.map Expr.erase) ∧ Listed .expr args (ls ++ ts))
      (moreArguments n first) (moreArguments (n + 1) first.erase) c := by
  have hnone : Arguments ((ls ++ []).map Token.kind) [first.erase] ∧ Listed .expr [first] (ls ++ []) := by
    rw [List.append_nil]
    exact ⟨.last hf.1, listed_one hf.2⟩
  cases n with
  | zero =>
    rw [moreArguments, moreArguments]
    exact parses_at_drained (parses_pure rfl hnone)
  | succ n =>
    rw [moreArguments, moreArguments]
    refine parses_at (fun hcomma => ?_) (parses_pure rfl hnone)
    refine parses_take (isEnd_of_punct hcomma) fun c1 => ((ih n rfl).arguments c1).bind fun ts others c2 hs => ?_
    refine parses_pure rfl ⟨?_, ?_⟩
    · simpa [hcomma] using Arguments.more hf.1 hs.1
    · rw [List.append_nil]
      exact .more hf.2 hcomma hs.2

theorem parses_named {t : Token} {name : String} (ht : t.kind = .identifier name) (c : Cursor n) :
    Parses Expr.erase (fun ts e _ => Derived Primary (t :: ts) e) (named n name t.span)
      (named (n + 1) name .unknown) c := by
  have hname : Derived Primary [t] (.name name t.span) :=
    ⟨by simpa [ht, Expr.erase] using Primary.name name, (readFrom_word ht).covered.readWhole .name⟩
  cases n with
  | zero =>
    rw [named, named]
    exact parses_at_drained (parses_pure rfl hname)
  | succ n =>
    rw [named, named]
    have hcall : ∀ {args : List Expr} {us : List Token} {close : Token}, c.peek.kind = .punct .leftParen →
        Listed .expr args us → close.kind = .punct .rightParen →
        (Node.expr (.call name args (t.span.extend close.span))).Read (t :: c.peek :: (us ++ [close])) := by
      rintro args us close hopen ⟨parts, hparts, hread⟩ hclose
      exact ((readFrom_word ht).begun.extend ((readFrom_word hopen).cons hread) (readFrom_word hclose)).readWhole
        (.call hparts)
    refine parses_at (fun hopen => ?_) (parses_pure rfl hname)
    refine parses_take (isEnd_of_punct hopen) fun c1 => parses_at (fun _ => ?_) ?_
    · refine parses_expect fun close c2 hclose => parses_pure rfl ⟨?_, hcall hopen (listed_nil _) hclose⟩
      simpa [ht, hopen, hclose, Expr.erase] using Primary.emptyCall name
    · refine ((ih n rfl).arguments c1).bind fun ts args c2 hargs => parses_expect fun close c3 hclose => ?_
      refine parses_pure (by rw [Expr.erase, Expr.eraseAll_eq_map]; rfl) ⟨?_, hcall hopen hargs.2 hclose⟩
      simpa [ht, hopen, hclose, Expr.erase] using Primary.call hargs.1

theorem parses_primary : Makes n Expr.erase (Derived Primary) primary := by
  intro c
  cases n with
  | zero =>
    rw [primary, primary]
    exact parses_drained (parses_unexpected _)
  | succ n =>
    rw [primary, primary]
    refine parses_peek ?_
    rw [Token.kind_erase]
    cases hvalue : literal? c.peek.kind with
    | some value =>
      have hliteral := literal?_eq_some_iff.1 hvalue
      refine parses_take (isEnd_of_some hvalue rfl) fun c1 => parses_pure rfl ⟨.literal hliteral, ?_⟩
      exact (ReadFrom.word c.peek).covered.readWhole (.literal hliteral)
    | none =>
      cases hkind : c.peek.kind with
      | identifier name => exact parses_take (by rw [hkind]; rfl) fun c1 => (ih n rfl).named hkind c1
      | punct p =>
        cases p with
        | leftParen =>
          refine parses_take (isEnd_of_punct hkind) fun c1 => ((ih n rfl).expr c1).bind fun ts inner c2 hi => ?_
          refine parses_expect fun close c3 hclose => parses_pure ?_ ⟨?_, ?_⟩
          · rw [Expr.erase_withSpan]
            exact Expr.withSpan_eq inner.span_erase
          · simpa [hkind, hclose] using Primary.parenthesized hi.1
          · have hcovered := (readFrom_word hkind).begun.extend hi.2.begun.readAll (readFrom_word hclose)
            rw [← Expr.span_withSpan inner (c.peek.span.extend close.span)] at hcovered
            exact hcovered.readWhole (n := .expr _) (.parenthesized rfl)
        | _ => exact parses_unexpected _
      | _ => exact parses_unexpected _

theorem parses_unary : Makes n Expr.erase (Derived Unary) unary := by
  intro c
  have hsuffixed : Parses Expr.erase (fun ts e _ => Derived Unary ts e) (primary n >>= suffixes n)
      (primary (n + 1) >>= suffixes (n + 1)) c := by
    refine (parses_primary ih c).bind fun ts operand c1 hp => ?_
    exact (parses_suffixes ih ⟨.primary hp.1, hp.2⟩ c1).mono fun us e rest he => ⟨.suffixed he.1, he.2⟩
  cases n with
  | zero =>
    have hzero : unary 0 = (primary 0 >>= suffixes 0) := by
      rw [unary, primary]
      rfl
    rw [hzero, unary]
    exact parses_drained hsuffixed
  | succ n =>
    rw [unary, unary]
    refine parses_peek ?_
    rw [Token.kind_erase]
    cases hop : unaryOperator? c.peek.kind with
    | some op =>
      obtain ⟨p, hkind, hp⟩ := unaryOperator?_eq_some_iff.1 hop
      refine parses_take (isEnd_of_punct hkind) fun c1 => ((ih n rfl).unary c1).bind fun ts operand c2 ho => ?_
      refine parses_pure (by rw [Expr.span_erase]; rfl) ⟨?_, ?_⟩
      · simpa [hkind, Expr.erase] using Unary.signed hp ho.1
      · rw [List.append_nil]
        exact ((readFrom_word hkind).begun.extend readAll_nil ho.2).readWhole (.sign hp)
    | none =>
      refine parses_peekSecond ?_
      rw [Token.kind_erase]
      refine parses_ite (fun hcast => ?_) fun _ => hsuffixed
      have hopen := TokenKind.isPunct_iff.1 (Bool.and_eq_true_iff.mp hcast).1
      refine parses_take (isEnd_of_punct hopen) fun c1 => parses_baseType fun base word c2 hword hmem => ?_
      refine parses_stars fun stars depth c3 hdepth hstars => parses_expect fun close c4 hclose => ?_
      refine ((ih n rfl).unary c4).bind fun ts operand c5 ho => ?_
      refine parses_pure (by rw [Expr.span_erase]; rfl) ⟨?_, ?_⟩
      · simpa [hopen, hword, hstars, hclose, Expr.erase] using Unary.cast hmem hdepth ho.1
      · have hmid := (readFrom_word hword).cons ((readAll_words hstars).append (readAll_word hclose))
        have hread : (Node.expr (.cast ⟨base, depth, none⟩ operand (c.peek.span.extend operand.span))).Read _ :=
          ((readFrom_word hopen).begun.extend hmid ho.2).readWhole (.cast hmem)
        simpa using hread

theorem parses_binary (least : Nat) (hleast : least ≤ 11) (c : Cursor n) :
    Parses Expr.erase (fun ts e rest => Derived (Binary least) ts e ∧ Below least rest) (binary n least)
      (binary (n + 1) least) c := by
  rw [binary, binary]
  refine (parses_unary ih c).bind fun ts left c1 hl => ?_
  have hnext : Below 12 c1.tokens := fun l op hop => by
    have hlevel := level_le hop
    omega
  exact parses_climb ih least ⟨.unary hl.1, hl.2⟩ hleast c1 hnext

theorem parses_expr_of : Makes n Expr.erase (Derived Assignment) expr := by
  intro c
  rw [expr, expr]
  exact (parses_binary ih 1 (by decide) c).bind fun ts target c1 ht => parses_assignment ih ht.1 c1

theorem parses_arguments : Makes n (List.map Expr.erase)
    (fun ts args => Arguments (ts.map Token.kind) (args.map Expr.erase) ∧ Listed .expr args ts) arguments := by
  intro c
  rw [arguments, arguments]
  exact (parses_expr_of ih c).bind fun ts first c1 hf => parses_moreArguments ih hf c1

theorem ExprParses.ofSmaller : ExprParses n where
  expr := parses_expr_of ih
  binary := parses_binary ih
  climb := parses_climb ih
  unary := parses_unary ih
  suffixes := parses_suffixes ih
  named := parses_named ih
  arguments := parses_arguments ih

end Rules

theorem exprParses (n : Nat) : ExprParses n := forall_bound (fun _ ih => .ofSmaller ih) n

theorem parses_expr : Makes n Expr.erase (fun ts e => (Node.expr e).Read ts) expr :=
  fun c => ((exprParses n).expr c).mono fun _ _ _ he => he.2

/-! ### Declarations -/

/-- The length of an array, or nothing, is read from the tokens. -/
def LengthRead (ts : List Token) : Prop := ∃ parts, Length parts ∧ ReadAll parts ts

theorem parses_arrayLength : Makes n id (fun ts _ => LengthRead ts) fun _ => arrayLength := by
  intro c
  refine parses_accept (fun hopen c1 => ?_) (parses_pure rfl ⟨_, .none, readAll_nil⟩)
  refine parses_advance.bind fun ts length c2 htaken => ?_
  rw [Token.kind_erase]
  cases hkind : length.kind with
  | intLit v =>
    refine parses_ite (fun _ => parses_expect fun close _ hclose => parses_pure rfl ?_) fun _ => ?_
    · rw [htaken (by rw [hkind]; rfl)]
      exact ⟨_, .some v, (readFrom_word hopen).cons ((readFrom_word hkind).cons (readAll_word hclose))⟩
    · exact parses_throw (.badArrayLength (.intLit v) length.span.start)
  | _ => exact parses_throw (.badArrayLength _ length.span.start)

/-- The rules for initializers under a bound. -/
structure InitializerParses (n : Nat) : Prop where
  initializer : Makes n Initializer.erase (fun ts i => (Node.initializer i).Read ts) initializer
  initializers : Makes n (List.map Initializer.erase) (fun ts is => Listed .initializer is ts) initializers

section Rules

variable {n : Nat} (ih : ∀ m, n = m + 1 → InitializerParses m)
include ih

theorem parses_initializer : Makes n Initializer.erase (fun ts i => (Node.initializer i).Read ts) initializer := by
  intro c
  have hexpr : Parses Initializer.erase (fun ts i _ => (Node.initializer i).Read ts) (do return .expr (← expr n))
      (do return .expr (← expr (n + 1))) c := by
    refine (parses_expr c).bind fun ts e c1 he => parses_pure rfl ?_
    rw [List.append_nil]
    exact Covered.readWhole (n := .initializer (.expr e)) he.covered .value
  cases n with
  | zero =>
    have hzero : initializer 0 = (do return .expr (← expr 0)) := by
      rw [initializer, expr, binary, unary]
      rfl
    rw [hzero, initializer]
    exact parses_at_drained hexpr
  | succ n =>
    rw [initializer, initializer]
    refine parses_at (fun hopen => parses_take (isEnd_of_punct hopen) fun c1 => ?_) hexpr
    refine ((ih n rfl).initializers c1).bind fun ts items c2 hi => parses_expect fun close c3 hclose => ?_
    obtain ⟨parts, hparts, hread⟩ := hi
    refine parses_pure (by rw [Initializer.erase, Initializer.eraseAll_eq_map]; rfl) ?_
    exact ((readFrom_word hopen).begun.extend hread (readFrom_word hclose)).readWhole (.list hparts)

theorem parses_moreInitializers {first : Initializer} {ls : List Token} (hf : (Node.initializer first).Read ls)
    (c : Cursor n) :
    Parses (List.map Initializer.erase) (fun ts items _ => Listed .initializer items (ls ++ ts))
      (moreInitializers n first) (moreInitializers (n + 1) first.erase) c := by
  have hone : Listed .initializer [first] (ls ++ []) := by
    rw [List.append_nil]
    exact listed_one hf
  cases n with
  | zero =>
    rw [moreInitializers, moreInitializers]
    exact parses_at_drained (parses_pure rfl hone)
  | succ n =>
    rw [moreInitializers, moreInitializers]
    refine parses_at (fun hcomma => parses_take (isEnd_of_punct hcomma) fun c1 => ?_) (parses_pure rfl hone)
    refine ((ih n rfl).initializers c1).bind fun ts others c2 ho => parses_pure rfl ?_
    rw [List.append_nil]
    exact .more hf hcomma ho

theorem parses_initializers :
    Makes n (List.map Initializer.erase) (fun ts is => Listed .initializer is ts) initializers := by
  intro c
  rw [initializers, initializers]
  refine parses_at (fun _ => parses_pure rfl (listed_nil _)) ?_
  exact (parses_initializer ih c).bind fun ts first c1 hf => parses_moreInitializers ih hf c1

end Rules

theorem initializerParses (n : Nat) : InitializerParses n :=
  forall_bound (fun _ ih => ⟨parses_initializer ih, parses_initializers ih⟩) n

theorem parses_declaratorTail (base : BaseType) (depth : Nat) {name : String} {span : Span} {before lead : List Part}
    {bs ls : List Token} (hlead : Lead before lead) (hb : ReadAll before bs)
    (hl : Covered (lead ++ [.name name]) ls span) (c : Cursor n) :
    Parses Declaration.erase (fun ts d _ => (Node.declaration d).Read (bs ++ ls ++ ts))
      (declaratorTail n base depth name span) (declaratorTail (n + 1) base depth name .unknown) c := by
  refine (parses_arrayLength c).bind fun ts length c1 hlength => ?_
  obtain ⟨parts, hparts, hread⟩ := hlength
  refine parses_accept (fun hequal c2 => ?_) (parses_pure rfl ?_)
  · refine ((initializerParses n).initializer c2).bind fun us init c3 hi => parses_pure ?_ ?_
    · rw [Initializer.span_erase]
      rfl
    · have hcovered := hl.begun.extend (hread.append (readAll_word hequal)) hi
      simp only [List.append_assoc, List.cons_append, List.nil_append, List.append_nil] at hcovered ⊢
      have hdeclared : (Node.declaration ⟨name, ⟨base, depth, length⟩, some init, span.extend init.span⟩).Read _ :=
        hcovered.read (.initialized hlead hparts) hb readAll_nil
      simpa using hdeclared
  · rw [List.append_nil]
    exact hl.read (.declared hlead hparts) hb hread

theorem parses_declarator (base : BaseType) :
    Makes n Declaration.erase (fun ts d => (Node.declaration d).Read ts) fun n => declarator n base := by
  refine fun c => parses_stars fun ts depth c1 _ hstars => parses_identifier fun t name c2 ht => ?_
  refine (parses_declaratorTail base depth (.stars depth) (readAll_words hstars)
    (readFrom_word ht).covered c2).mono fun us d _ hd => ?_
  simpa using hd

/-- Declared objects are read from the tokens, with commas between them and none after the last. -/
def Declared (ds : List Declaration) (ts : List Token) : Prop :=
  ∃ mid last ms ls, Commas (ds.map .declaration) (mid ++ [.node (.declaration last)]) ∧ ds.getLast? = some last ∧
    ReadAll mid ms ∧ (Node.declaration last).Read ls ∧ ts = ms ++ ls

theorem parses_moreDeclarators (base : BaseType) (n : Nat) {first : Declaration} {ls : List Token}
    (hf : (Node.declaration first).Read ls) (c : Cursor n) :
    Parses (List.map Declaration.erase) (fun ts ds _ => Declared (first :: ds) (ls ++ ts)) (moreDeclarators base n)
      (moreDeclarators base (n + 1)) c := by
  have hone : ∀ {first : Declaration} {ls : List Token}, (Node.declaration first).Read ls →
      Declared [first] (ls ++ []) := fun h => ⟨[], _, [], _, .last _, rfl, readAll_nil, h, by simp⟩
  induction n generalizing first ls with
  | zero => exact parses_at_drained (parses_pure rfl (hone hf))
  | succ n ih =>
    refine parses_at (fun hcomma => parses_take (isEnd_of_punct hcomma) fun c1 => ?_) (parses_pure rfl (hone hf))
    refine (parses_declarator base c1).bind fun ts next c2 hn => (ih hn c2).bind fun us others c3 ho => ?_
    obtain ⟨mid, last, ms, ls', hcommas, hlast, hmid, hread, htokens⟩ := ho
    refine parses_pure rfl ⟨.node (.declaration first) :: .punct .comma :: mid, last, _, ls', .more hcommas, ?_,
      ReadFrom.cons hf ((readFrom_word hcomma).cons hmid), hread, ?_⟩
    · rw [List.getLast?_cons_cons]
      exact hlast
    · simp [htokens]

theorem parses_declarationTail (base : BaseType) {first : Declaration} {ls : List Token}
    (hf : (Node.declaration first).Read ls) (c : Cursor n) :
    Parses (List.map Declaration.erase)
      (fun ts ds _ => ∃ us close, ls ++ ts = us ++ [close] ∧ Declared ds us ∧ close.kind = .punct .semicolon)
      (declarationTail n base first) (declarationTail (n + 1) base first.erase) c := by
  refine (parses_moreDeclarators base n hf c).bind fun ts others c1 ho => parses_expect fun close c2 hclose => ?_
  exact parses_pure rfl ⟨ls ++ ts, close, by simp, ho, hclose⟩

theorem parses_declaration (c : Cursor n) :
    Parses (List.map Declaration.erase)
      (fun ts ds _ => ∃ word us close, c.peek.kind = .keyword word ∧ ts = c.peek :: (us ++ [close]) ∧ Declared ds us ∧
        close.kind = .punct .semicolon)
      (declaration n) (declaration (n + 1)) c := by
  refine parses_baseType fun base word c1 hword _ => (parses_declarator base c1).bind fun ts first c2 hf => ?_
  refine (parses_declarationTail base hf c2).mono fun us ds _ hds => ?_
  obtain ⟨vs, close, htokens, hdeclared, hclose⟩ := hds
  exact ⟨word, vs, close, hword, by rw [htokens], hdeclared, hclose⟩

/-! ### Statements -/

theorem parses_exprStmt : Makes n Stmt.erase (fun ts s => (Node.stmt s).Read ts) exprStmt := by
  intro c
  refine (parses_expr c).bind fun ts e c1 he => parses_expect fun close c2 hclose => parses_pure ?_ ?_
  · rw [Expr.span_erase]
    rfl
  · exact (he.begun.extend readAll_nil (readFrom_word hclose)).readWhole .exprStmt

theorem parses_condition (context : String) :
    Makes n Expr.erase (fun ts e => ReadAll [.punct .leftParen, .expr e, .punct .rightParen] ts)
      fun n => condition n context := by
  refine fun c => parses_expect fun lp c1 hopen => (parses_expr c1).bind fun ts e c2 he => ?_
  exact parses_expect fun rp c3 hclose => parses_pure rfl ((readFrom_word hopen).cons (he.cons (readAll_word hclose)))

theorem parses_exprUnless (stop : Punct) :
    Makes n (Option.map Expr.erase) (fun ts e => ReadAll (e.toList.map .expr) ts) fun n => exprUnless n stop := by
  intro c
  refine parses_at (fun _ => parses_pure rfl readAll_nil) ?_
  exact (parses_expr c).bind fun ts e c1 he => parses_pure rfl (he.cons readAll_nil)

theorem declarationSpan_erase (ds : List Declaration) :
    declarationSpan .unknown (ds.map Declaration.erase) = .unknown := by
  unfold declarationSpan
  rw [List.getLast?_map]
  cases ds.getLast? <;> rfl

/-- The rules for statements under a bound. -/
structure StmtParses (n : Nat) : Prop where
  stmt : Makes n Stmt.erase (fun ts s => (Node.stmt s).Read ts) stmt
  elseTail : Makes n (Option.map Stmt.erase)
    (fun ts e => e = none ∧ ts = [] ∨
      ∃ s word us, e = some s ∧ word.kind = .keyword .else_ ∧ ts = word :: us ∧ (Node.stmt s).Read us) elseTail
  stmts : Makes n (List.map Stmt.erase) (fun ts ss => ReadAll (ss.map .stmt) ts) stmts

section Rules

variable {n : Nat}

theorem StmtParses.forInit (h : StmtParses n) :
    Makes n (Option.map Stmt.erase) (fun ts s => ReadAll [(s.map .stmt).getD (.punct .semicolon)] ts) forInit := by
  intro c
  rw [Parser.forInit, Parser.forInit]
  refine parses_accept (fun hsemicolon c1 => parses_pure rfl (readAll_word hsemicolon))
    (parses_peek (parses_ite (fun _ => ?_) fun _ => ?_))
  · exact (h.stmt c).bind fun ts s c1 hs => parses_pure rfl (hs.cons readAll_nil)
  · exact (parses_exprStmt c).bind fun ts s c1 hs => parses_pure rfl (hs.cons readAll_nil)

theorem StmtParses.blockTail (h : StmtParses n) {t : Token} (ht : t.kind = .punct .leftBrace) (c : Cursor n) :
    Parses Stmt.erase (fun ts s _ => (Node.stmt s).Read (t :: ts)) (blockTail n t.span) (blockTail (n + 1) .unknown) c := by
  rw [Parser.blockTail, Parser.blockTail]
  refine (h.stmts c).bind fun ts body c1 hb => parses_expect fun close c2 hclose => parses_pure ?_ ?_
  · rw [Stmt.erase, Stmt.eraseAll_eq_map]
    rfl
  · exact ((readFrom_word ht).begun.extend hb (readFrom_word hclose)).readWhole .block

variable (ih : ∀ m, n = m + 1 → StmtParses m)
include ih

theorem parses_elseTail : Makes n (Option.map Stmt.erase)
    (fun ts e => e = none ∧ ts = [] ∨
      ∃ s word us, e = some s ∧ word.kind = .keyword .else_ ∧ ts = word :: us ∧ (Node.stmt s).Read us) elseTail := by
  intro c
  cases n with
  | zero =>
    rw [elseTail, elseTail]
    exact parses_drained (parses_pure rfl (.inl ⟨rfl, rfl⟩))
  | succ n =>
    rw [elseTail, elseTail]
    refine parses_peek (parses_ite (fun helse => ?_) fun _ => parses_pure rfl (.inl ⟨rfl, rfl⟩))
    have hword := TokenKind.isKeyword_iff.1 helse
    refine parses_take (by rw [hword]; rfl) fun c1 => ?_
    refine ((ih n rfl).stmt c1).bind fun ts s c2 hs => parses_pure rfl (.inr ⟨s, c.peek, ts, rfl, hword, ?_, hs⟩)
    rw [List.append_nil]

theorem parses_stmt : Makes n Stmt.erase (fun ts s => (Node.stmt s).Read ts) stmt := by
  intro c
  cases n with
  | zero =>
    have hzero : stmt 0 = exprStmt 0 := by
      rw [stmt, exprStmt, expr, binary, unary]
      rfl
    rw [hzero, stmt]
    exact parses_drained (parses_exprStmt c)
  | succ n =>
    rw [stmt, stmt]
    refine parses_peek (parses_ite (fun _ => ?_) fun _ => ?_)
    · refine (parses_declaration c).bind fun ts ds c1 hds => parses_pure ?_ ?_
      · show Stmt.declare _ (declarationSpan .unknown _) = _
        rw [declarationSpan_erase]
        rfl
      · obtain ⟨word, us, close, hword, rfl, ⟨mid, last, ms, ls, hcommas, hlast, hmid, hread, rfl⟩, hclose⟩ := hds
        have hspan : declarationSpan c.peek.span ds = c.peek.span.extend last.span := by
          unfold declarationSpan
          rw [hlast]
        have hcovered := (readFrom_word hword).begun.extend hmid hread
        have hdeclare : (Node.stmt (.declare ds (c.peek.span.extend last.span))).Read _ :=
          hcovered.read (.declare hcommas) readAll_nil (readAll_word hclose)
        rw [hspan]
        simpa using hdeclare
    · rw [Token.kind_erase]
      cases hkind : c.peek.kind with
      | punct p =>
        cases p with
        | leftBrace => exact parses_take (isEnd_of_punct hkind) fun c1 => (ih n rfl).blockTail hkind c1
        | semicolon =>
          exact parses_take (isEnd_of_punct hkind) fun c1 =>
            parses_pure rfl ((readFrom_word hkind).covered.readWhole .empty)
        | _ => exact parses_exprStmt c
      | keyword w =>
        have hend : c.peek.kind.isEnd = false := by rw [hkind]; rfl
        have hfirst := (readFrom_word hkind).begun
        cases w with
        | if_ =>
          refine parses_take hend fun c1 => (parses_condition _ c1).bind fun cs cond c2 hc => ?_
          refine ((ih n rfl).stmt c2).bind fun ts thenBranch c3 ht => ?_
          refine ((ih n rfl).elseTail c3).bind fun es elseBranch c4 he => parses_pure ?_ ?_
          · cases elseBranch <;> simp [Stmt.erase, Token.erase]
          · obtain ⟨rfl, rfl⟩ | ⟨s, word, us, rfl, hword, rfl, hs⟩ := he
            · rw [List.append_nil, List.append_nil]
              exact (hfirst.extend hc ht).readWhole .ifThen
            · rw [List.append_nil]
              have hread : (Node.stmt (.cond cond thenBranch (some s) (c.peek.span.extend s.span))).Read _ :=
                (hfirst.extend (hc.append (ht.cons (readAll_word hword))) hs).readWhole .ifElse
              simpa using hread
        | while_ =>
          refine parses_take hend fun c1 => (parses_condition _ c1).bind fun cs cond c2 hc => ?_
          refine ((ih n rfl).stmt c2).bind fun ts body c3 hb => parses_pure ?_ ?_
          · rw [Stmt.span_erase]
            rfl
          · rw [List.append_nil]
            exact (hfirst.extend hc hb).readWhole .whileLoop
        | for_ =>
          refine parses_take hend fun c1 => parses_expect fun lp c2 hopen => ?_
          refine ((ih n rfl).forInit c2).bind fun is init c3 hi => ?_
          refine (parses_exprUnless _ c3).bind fun cs cond c4 hc => parses_expect fun semicolon c5 hsemicolon => ?_
          refine (parses_exprUnless _ c5).bind fun us update c6 hu => parses_expect fun rp c7 hclose => ?_
          refine ((ih n rfl).stmt c7).bind fun bs body c8 hb => parses_pure ?_ ?_
          · simp [Stmt.erase, Token.erase]
          · have hmid := (readFrom_word hopen).cons (hi.append (hc.append ((readFrom_word hsemicolon).cons
              (hu.append (readAll_word hclose)))))
            have hread : (Node.stmt (.forLoop init cond update body (c.peek.span.extend body.span))).Read _ :=
              (hfirst.extend hmid hb).readWhole (by simpa using .forLoop)
            simpa using hread
        | return_ =>
          refine parses_take hend fun c1 => (parses_exprUnless _ c1).bind fun ts value c2 hv => ?_
          refine parses_expect fun close c3 hclose => parses_pure rfl ?_
          exact (hfirst.extend hv (readFrom_word hclose)).readWhole .ret
        | print =>
          refine parses_take hend fun c1 => (parses_expr c1).bind fun ts value c2 he => ?_
          refine parses_expect fun close c3 hclose => parses_pure rfl ?_
          exact (hfirst.extend he.begun.readAll (readFrom_word hclose)).readWhole .print
        | _ => exact parses_exprStmt c
      | _ => exact parses_exprStmt c

theorem parses_stmts : Makes n (List.map Stmt.erase) (fun ts ss => ReadAll (ss.map .stmt) ts) stmts := by
  intro c
  cases n with
  | zero =>
    rw [stmts, stmts]
    exact parses_drained (parses_pure rfl readAll_nil)
  | succ n =>
    rw [stmts, stmts]
    refine parses_peek (parses_ite (fun _ => parses_pure rfl readAll_nil) fun _ => ?_)
    refine (parses_stmt ih c).bindFrom fun ts first c1 htokens _ hf => ?_
    refine (parses_afterProgress (c.length_le htokens hf.ne_nil) (ih n rfl).stmts).bind fun us others c2 ho => ?_
    refine parses_pure rfl ?_
    rw [List.append_nil]
    exact hf.cons ho

end Rules

theorem stmtParses (n : Nat) : StmtParses n :=
  forall_bound (fun _ ih => ⟨parses_stmt ih, parses_elseTail ih, parses_stmts ih⟩) n

theorem parses_block : Makes n Stmt.erase (fun ts s => (Node.stmt s).Read ts) block := by
  intro c
  cases n with
  | zero => exact parses_at_drained (parses_unexpected _)
  | succ n =>
    refine parses_at (fun hopen => parses_take (isEnd_of_punct hopen) fun c1 => ?_) (parses_unexpected _)
    exact (stmtParses n).blockTail hopen c1

/-! ### Files -/

theorem parses_parameter : Makes n Parameter.erase (fun ts p => (Node.parameter p).Read ts) parameter := by
  intro c
  refine parses_peek (parses_baseType fun base word c1 hword _ => parses_stars fun ss depth c2 _ hstars => ?_)
  refine parses_identifier fun t name c3 ht => ?_
  have hcovered : Covered _ _ (c.peek.span.extend t.span) :=
    (readFrom_word hword).begun.extend (readAll_words hstars) (readFrom_word ht)
  have hread : ∀ {depth : Nat} {ts : List Token}, LengthRead ts →
      (Node.parameter ⟨name, ⟨base, depth, none⟩, c.peek.span.extend t.span⟩).Read (c.peek :: (ss ++ (t :: ts))) := by
    rintro depth ts ⟨parts, hparts, hlength⟩
    have hparameter : (Node.parameter ⟨name, ⟨base, depth, none⟩, c.peek.span.extend t.span⟩).Read _ :=
      hcovered.read (.parameter rfl hparts) readAll_nil hlength
    simpa using hparameter
  have hnone : (Node.parameter ⟨name, ⟨base, depth, none⟩, c.peek.span.extend t.span⟩).Read (c.peek :: (ss ++ [t])) :=
    hread ⟨_, .none, readAll_nil⟩
  refine parses_accept (fun hopen c4 => parses_peek ?_) (parses_pure rfl hnone)
  have hclose : ∀ ls c', (∀ close : Token, close.kind = .punct .rightBracket →
        LengthRead (c3.peek :: (ls ++ [close]))) →
      Parses (n := n) Parameter.erase
      (fun ts p _ => (Node.parameter p).Read (c.peek :: (ss ++ (t :: c3.peek :: (ls ++ ts)))))
      (do
        let _ ← expect .rightBracket "parameter list"
        let depth ← deepen depth
        return ⟨name, ⟨base, depth, none⟩, c.peek.span.extend t.span⟩)
      (do
        let _ ← expect .rightBracket "parameter list"
        let depth ← deepen depth
        return ⟨name, ⟨base, depth, none⟩, .unknown⟩) c' :=
    fun ls c' h => parses_expect fun close _ hclose =>
      parses_deepen fun _ => parses_pure rfl (hread (h close hclose))
  rw [Token.kind_erase]
  cases hkind : c4.peek.kind with
  | intLit v =>
    refine parses_advance_bind (by rw [hkind]; rfl) fun c5 => hclose [c4.peek] c5 fun close h => ?_
    exact ⟨_, .some v, (readFrom_word hopen).cons ((readFrom_word hkind).cons (readAll_word h))⟩
  | _ =>
    exact hclose [] c4 fun close h => ⟨_, .empty, (readFrom_word hopen).cons (readAll_word h)⟩

theorem parses_parameters (n : Nat) :
    Makes n (List.map Parameter.erase) (fun ts ps => Listed .parameter ps ts) parameters := by
  intro c
  induction n with
  | zero =>
    rw [parameters, parameters]
    refine (parses_parameter c).bind fun ts first c1 hf => ?_
    rw [moreParameters, moreParameters]
    refine parses_at_drained (parses_pure rfl ?_)
    rw [List.append_nil]
    exact listed_one hf
  | succ n ih =>
    rw [parameters, parameters]
    refine (parses_parameter c).bind fun ts first c1 hf => ?_
    rw [moreParameters, moreParameters]
    refine parses_at (fun hcomma => parses_take (isEnd_of_punct hcomma) fun c2 => ?_) (parses_pure rfl ?_)
    · refine (ih c2).bind fun us others c3 ho => parses_pure rfl ?_
      rw [List.append_nil]
      exact .more hf hcomma ho
    · rw [List.append_nil]
      exact listed_one hf

/-- The parameters of a function with their parentheses are read from the tokens. -/
def ParametersRead (ps : List Parameter) (ts : List Token) : Prop :=
  ∃ void parts, (void = [] ∨ void = [.keyword .void]) ∧ Commas (ps.map .parameter) parts ∧
    ReadAll (.punct .leftParen :: (void ++ parts ++ [.punct .rightParen])) ts

theorem parses_parameterList :
    Makes n (List.map Parameter.erase) (fun ts ps => ParametersRead ps ts) parameterList := by
  intro c
  have hlist : ∀ {lp : Token} {void : List Part} {vs : List Token} (c' : Cursor n), lp.kind = .punct .leftParen →
      (void = [] ∨ void = [.keyword .void]) → ReadAll void vs →
      Parses (List.map Parameter.erase) (fun ts ps _ => ParametersRead ps (lp :: (vs ++ ts)))
        (do
          let ps ← if ← at? .rightParen then pure [] else parameters n
          let _ ← expect .rightParen "parameter list"
          return ps)
        (do
          let ps ← if ← at? .rightParen then pure [] else parameters (n + 1)
          let _ ← expect .rightParen "parameter list"
          return ps) c' := by
    intro lp void vs c' hopen hvoid hvs
    have hclose : ∀ {ps : List Parameter} {us : List Token} {close : Token}, Listed .parameter ps us →
        close.kind = .punct .rightParen → ParametersRead ps (lp :: (vs ++ (us ++ [close]))) := by
      rintro ps us close ⟨parts, hparts, hread⟩ hclose
      refine ⟨void, parts, hvoid, hparts, ?_⟩
      have hall := (readFrom_word hopen).cons ((hvs.append hread).append (readAll_word hclose))
      rwa [List.append_assoc vs] at hall
    refine parses_at (fun _ => ?_) ?_
    · exact parses_expect fun close _ h => parses_pure rfl (hclose (listed_nil _) h)
    · exact (parses_parameters n c').bind fun us ps c1 hps => parses_expect fun close _ h =>
        parses_pure rfl (hclose hps h)
  refine parses_expect fun lp c1 hopen => parses_peek (parses_peekSecond (parses_ite (fun hvoid => ?_) fun _ => ?_))
  · have hword := TokenKind.isKeyword_iff.1 (Bool.and_eq_true_iff.mp hvoid).1
    refine parses_advance_bind (by rw [hword]; rfl) fun c2 => ?_
    exact hlist c2 hopen (.inr rfl) (readAll_word hword)
  · exact hlist c1 hopen (.inl rfl) readAll_nil

/-- An item is read from tokens that begin with its type. -/
def ItemRead (item : Item) (ts : List Token) : Prop :=
  (∃ parts, item.Written parts ∧ ReadAll parts ts) ∧ ∃ word t us, ts = t :: us ∧ t.kind = .keyword word

theorem parses_item : Makes n Item.erase (fun ts item => ItemRead item ts) item := by
  intro c
  refine parses_peek (parses_baseType fun base word c1 hword _ => parses_stars fun ss depth c2 _ hstars => ?_)
  refine parses_identifier fun t name c3 ht => parses_at (fun _ => ?_) ?_
  · have hfunction : ∀ {ps : List Parameter} {us vs : List Token} {body : Option Stmt} {span : Span},
        ParametersRead ps us → ReadFrom ((body.map .stmt).getD (.punct .semicolon)) ⟨vs, span⟩ →
        ItemRead (.function ⟨name, ⟨base, depth, none⟩, ps, body, c.peek.span.extend span⟩)
          (c.peek :: (ss ++ (t :: (us ++ vs)))) := by
      rintro ps us vs body span ⟨void, parts, hvoid, hparts, hread⟩ hlast
      have hmid := (readAll_words hstars).append ((readFrom_word ht).cons hread)
      have hnode : (Node.function ⟨name, ⟨base, depth, none⟩, ps, body, c.peek.span.extend span⟩).Read _ :=
        ((readFrom_word hword).begun.extend hmid hlast).readWhole (.function hvoid hparts)
      refine ⟨⟨_, .function _, ?_⟩, word, _, _, rfl, hword⟩
      simpa using hnode.begun.readAll
    refine (parses_parameterList c3).bind fun us ps c4 hps => parses_at (fun hsemicolon => ?_) ?_
    · refine parses_advance_bind (isEnd_of_punct hsemicolon) fun c5 => parses_pure rfl ?_
      exact hfunction hps (readFrom_word hsemicolon)
    · refine (parses_block c4).bind fun vs body c5 hb => parses_pure ?_ ?_
      · rw [Stmt.span_erase]
        rfl
      · rw [List.append_nil]
        exact hfunction hps hb
  · have hl : Covered _ _ (c.peek.span.extend t.span) :=
      (readFrom_word hword).begun.extend (readAll_words hstars) (readFrom_word ht)
    refine (parses_declaratorTail base depth (.type word depth) readAll_nil hl c3).bind fun us first c4 hf => ?_
    refine (parses_declarationTail base hf c4).bind fun vs ds c5 hds => parses_pure rfl ?_
    obtain ⟨ws, close, htokens, ⟨mid, last, ms, ls, hcommas, -, hmid, hread, rfl⟩, hclose⟩ := hds
    refine ⟨⟨_, .declare hcommas, ?_⟩, word, _, _, rfl, hword⟩
    have hall := (hmid.append hread.begun.readAll).append (readAll_word hclose)
    rw [← htokens] at hall
    simpa using hall

/-- Items are read from the tokens, of which each begins with its type, up to the end of the file. -/
structure ItemsRead (items : List Item) (ts rest : List Token) : Prop where
  read : ∃ parts, List.Forall₂ Item.Written items parts ∧ ReadAll parts.flatten ts
  type : ∀ t us, ts = t :: us → ∃ word, t.kind = .keyword word
  ended : Token.next rest = .endOfFile

theorem parses_items (n : Nat) (c : Cursor n) :
    Parses (List.map Item.erase) (fun ts is rest => ItemsRead is ts rest) (items n) (items (n + 1)) c := by
  have hnone : ∀ {rest : List Token}, Token.next rest = .endOfFile → ItemsRead [] [] rest :=
    fun h => ⟨⟨[], .nil, readAll_nil⟩, fun _ _ hnil => (by cases hnil), h⟩
  induction n with
  | zero => exact parses_drained (parses_pure rfl (hnone (by rw [c.drained]; rfl)))
  | succ n ih =>
    refine parses_peek (parses_ite (fun hend => parses_pure rfl (hnone ?_)) fun _ => ?_)
    · rw [← Cursor.kind_peek]
      exact TokenKind.isEnd_iff.1 hend
    · refine (parses_item c).bindFrom fun ts first c1 htokens _ hf => ?_
      obtain ⟨⟨parts, hparts, hread⟩, word, t, us, rfl, hword⟩ := hf
      refine (parses_afterProgress (c.length_le htokens (List.cons_ne_nil t us)) ih).bind fun vs others c2 ho => ?_
      obtain ⟨⟨parts', hparts', hread'⟩, -, hended⟩ := ho
      refine parses_pure rfl ⟨⟨parts :: parts', .cons hparts hparts', ?_⟩, fun t' us' h => ?_, hended⟩
      · rw [List.append_nil]
        exact hread.append hread'
      · cases h
        exact ⟨word, hword⟩

theorem parses_program (c : Cursor n) :
    Parses Program.erase (fun ts p rest => Token.next rest = .endOfFile ∧
        (Node.program p).Read (ts ++ [rest.head?.getD ⟨.endOfFile, c.endSpan⟩]))
      (program n) (program (n + 1)) c := by
  refine parses_peek ((parses_items n c).bindFrom fun ts items c1 htokens hspan hi => parses_peek ?_)
  refine parses_pure rfl ⟨hi.ended, ?_⟩
  obtain ⟨parts, hparts, hread⟩ := hi.read
  have hpeek : c1.tokens.head?.getD ⟨.endOfFile, c.endSpan⟩ = c1.peek := by rw [← hspan]; rfl
  have hlast : ReadFrom (.word .endOfFile) ⟨[c1.peek], c1.peek.span⟩ := readFrom_word (by rw [Cursor.kind_peek, hi.ended])
  rw [List.append_nil, hpeek]
  cases ts with
  | nil =>
    have hsame : c.peek = c1.peek := by
      rw [Cursor.peek, Cursor.peek, htokens, hspan]
      rfl
    have hwritten := Written.program (s := c1.peek.span) hparts
    rw [hread.eq_nil] at hwritten
    rw [hsame, Span.extend_self]
    exact Covered.readWhole (n := .program ⟨items, c1.peek.span⟩) hlast.covered hwritten
  | cons t us =>
    obtain ⟨word, hword⟩ := hi.type t us rfl
    have hfirst : c.peek = t := Cursor.peek_of_tokens htokens
    rw [hfirst]
    exact ((begun_items hparts hread (by rw [hword]; exact TokenKind.noConfusion)).extend readAll_nil hlast).readWhole
      (.program hparts)

end Parser

theorem Ast.Program.spelled_of_ofTokens {L : Lexicon} {tokens : List Token} {p : Ast.Program}
    (h : Ast.Program.ofTokens tokens = .ok p) (ht : ∀ t ∈ tokens, t.Spelled L) : p.Spelled L := by
  obtain ⟨_, ts, hts, _, hread⟩ := Parser.parses_program (Cursor.ofTokens tokens).2
  obtain ⟨hended, hread⟩ := hread p h
  have hstream := Cursor.tokens_ofTokens_append tokens
  refine hread.spelled (List.forall_mem_append.mpr ⟨fun t hmem => ht t ?_, List.forall_mem_singleton.mpr ?_⟩)
  · refine (List.mem_filter.mp (?_ : t ∈ tokens.filter fun t => !t.kind.isComment)).1
    rw [← hstream, hts]
    simp [hmem]
  · have hkind := (Token.kind_head _ (Cursor.ofTokens tokens).2.endSpan).trans hended
    exact ⟨fun v hv => (by rw [hkind] at hv; cases hv), fun name hn => (by rw [hkind] at hn; cases hn)⟩

/-! ### Reading a text -/

/-- The tokens before the one that ends the file, without comments. -/
def Token.visible (tokens : List Token) : List Token :=
  (tokens.filter fun t => !t.kind.isComment).dropLast

/-- A text is read with a bound on the recursion that is how many tokens it has. -/
theorem parse_eq {source file : String} {pool pool' : Pool} {tokens : List Token} {last : Token}
    {n : Nat} (htokens : tokenize source file pool = (.ok tokens, pool'))
    (hlast : (tokens.filter fun t => !t.kind.isComment).getLast? = some last)
    (hend : last.kind.isEnd = true) (hn : (Token.visible tokens).length = n) :
    parse source file pool =
      (((Parser.program n).run ⟨Token.visible tokens, last.span, Nat.le_of_eq hn⟩).1.mapError
        ParseError.diagnostic, pool') := by
  subst hn
  have hcursor : Cursor.ofTokens tokens =
      ⟨(Token.visible tokens).length, Token.visible tokens, last.span, Nat.le_refl _⟩ := by
    unfold Cursor.ofTokens
    dsimp only
    split
    next last' h =>
      cases hlast.symm.trans h
      rw [if_pos hend]
      rfl
    next h => cases hlast.symm.trans h
  rw [parse, htokens]
  unfold Ast.Program.ofTokens
  dsimp only
  rw [hcursor]

theorem exists_parse {source file : String} {pool pool' : Pool} {tokens : List Token} {last : Token}
    {n : Nat} {β : Type} {f : Ast.Program → β} {b : β} (htokens : tokenize source file pool = (.ok tokens, pool'))
    (hlast : (tokens.filter fun t => !t.kind.isComment).getLast? = some last)
    (hend : last.kind.isEnd = true) (hn : (Token.visible tokens).length = n)
    (h : ((Parser.program n).run ⟨Token.visible tokens, last.span, Nat.le_of_eq hn⟩).1.toOption.map f = some b) :
    ∃ p, parse source file pool = (.ok p, pool') ∧ f p = b := by
  rw [parse_eq htokens hlast hend hn]
  revert h
  generalize ((Parser.program n).run _).1 = outcome
  intro h
  cases outcome with
  | error e => cases h
  | ok p => exact ⟨p, rfl, Option.some.inj h⟩

end MiniC
