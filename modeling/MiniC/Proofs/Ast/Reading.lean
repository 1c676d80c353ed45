import MiniC.Ast.Parser.Basic
import Mathlib

/-!
# What a parser reads

`Reads p ts a rest`: from tokens `ts` the parser gives `a` and leaves `rest`. What a rule of the grammar
reads is put together from what its parts read (`Reads.bind`, `Reads.take`), under any bound that the
tokens keep.
-/

set_option autoImplicit false

namespace MiniC

/-- What comes next in a stream of tokens; at its end this is the end of the file. -/
def Token.next (ts : List Token) : TokenKind := (ts.head?.map Token.kind).getD .endOfFile

@[simp] theorem Token.next_nil : Token.next [] = .endOfFile := rfl

@[simp] theorem Token.next_cons (t : Token) (ts : List Token) : Token.next (t :: ts) = t.kind := rfl

namespace Cursor

variable {n : Nat}

@[simp] theorem tokens_advance (c : Cursor n) : c.advance.tokens = c.tokens.tail := rfl

@[simp] theorem tokens_drop (c : Cursor (n + 1)) : c.drop.tokens = c.tokens.tail := rfl

@[simp] theorem tokens_widen (c : Cursor n) : c.widen.tokens = c.tokens := rfl

theorem kind_peek (c : Cursor n) : c.peek.kind = Token.next c.tokens := by
  unfold Cursor.peek Token.next
  cases c.tokens <;> rfl

theorem peek_of_tokens {c : Cursor n} {t : Token} {ts : List Token} (h : c.tokens = t :: ts) :
    c.peek = t := by
  rw [Cursor.peek, h]
  rfl

theorem peekSecond_of_tokens {c : Cursor n} {t : Token} {ts : List Token} (h : c.tokens = t :: ts) :
    c.peekSecond.kind = Token.next ts := by
  unfold Cursor.peekSecond Token.next
  rw [h]
  cases ts <;> rfl

/-- A token that is not the end of the file is one of the stream. -/
theorem tokens_eq_of_not_end {c : Cursor n} (h : c.peek.kind.isEnd = false) :
    c.tokens = c.peek :: c.tokens.tail := by
  unfold Cursor.peek at h ⊢
  cases hc : c.tokens with
  | nil =>
    rw [hc] at h
    cases h
  | cons t ts => rfl

end Cursor

/-! ### Streams of token lists -/

theorem TokenKind.isEnd_iff {k : TokenKind} : k.isEnd = true ↔ k = .endOfFile := by
  cases k <;> simp [TokenKind.isEnd]

/-- The token that the stream of a token list sets apart: the last one, if it ends the file. -/
def Token.setApart (tokens : List Token) : List Token :=
  match tokens.getLast? with
  | some last => if last.kind.isEnd then [last] else []
  | none => []

theorem Token.setApart_of_getLast? {tokens : List Token} {last : Token}
    (h : tokens.getLast? = some last) :
    Token.setApart tokens = if last.kind.isEnd then [last] else [] := by
  unfold Token.setApart
  rw [h]

/-- The stream and the token set apart are the list without its comments. -/
theorem Cursor.tokens_ofTokens_append (tokens : List Token) :
    (Cursor.ofTokens tokens).2.tokens ++
        Token.setApart (tokens.filter fun t => !t.kind.isComment) =
      tokens.filter fun t => !t.kind.isComment := by
  generalize hstream : Cursor.ofTokens tokens = stream
  unfold Cursor.ofTokens at hstream
  dsimp only at hstream
  split at hstream
  next last hlast =>
    rw [Token.setApart_of_getLast? hlast]
    by_cases hend : last.kind.isEnd = true
    · rw [if_pos hend] at hstream ⊢
      subst hstream
      show (tokens.filter fun t => !t.kind.isComment).dropLast ++ [last] = _
      exact List.dropLast_append_getLast? last hlast
    · rw [if_neg hend] at hstream ⊢
      subst hstream
      rw [List.append_nil]
  next hnone =>
    subst hstream
    rw [List.getLast?_eq_none_iff.mp hnone]
    rfl

theorem Token.of_mem_setApart {tokens : List Token} {t : Token} (h : t ∈ Token.setApart tokens) :
    t.kind = .endOfFile ∧ Token.setApart tokens = [t] := by
  unfold Token.setApart at h ⊢
  split at h
  next last hlast =>
    split at h
    next hend =>
      obtain rfl := List.mem_singleton.mp h
      exact ⟨TokenKind.isEnd_iff.1 hend, if_pos hend⟩
    next => cases h
  next => cases h

theorem TokenKind.isPunct_iff {k : TokenKind} {p : Punct} : k.isPunct p = true ↔ k = .punct p := by
  cases k <;> simp [TokenKind.isPunct]

theorem TokenKind.isKeyword_iff {k : TokenKind} {w : Keyword} :
    k.isKeyword w = true ↔ k = .keyword w := by
  cases k <;> simp [TokenKind.isKeyword]

namespace Parser

variable {n : Nat} {α β : Type}

/-- What the rules of a grammar have in common under a bound, they have under every bound if they
have it when they do under the next smaller one. -/
theorem forall_bound {P : Nat → Prop} (h : ∀ n, (∀ m, n = m + 1 → P m) → P n) (n : Nat) : P n := by
  induction n with
  | zero => exact h 0 fun m hm => by cases hm
  | succ n ih =>
    refine h (n + 1) fun m hm => ?_
    obtain rfl : n = m := by omega
    exact ih

/-! ### Runs -/

theorem run_bind (p : Parser n α) (f : α → Parser n β) (c : Cursor n) :
    run (p >>= f) c = ExceptT.bindCont f (run p c).1 (run p c).2 := rfl

theorem run_peek_bind (f : Token → Parser n β) (c : Cursor n) :
    run (peek >>= f) c = run (f c.peek) c := rfl

theorem run_peekSecond_bind (f : Token → Parser n β) (c : Cursor n) :
    run (peekSecond >>= f) c = run (f c.peekSecond) c := rfl

theorem run_advance_bind (f : Token → Parser n β) (c : Cursor n) :
    run (advance >>= f) c = run (f c.peek) c.advance := rfl

theorem run_at_bind (p : Punct) (f : Bool → Parser n β) (c : Cursor n) :
    run (at? p >>= f) c = run (f (c.peek.kind.isPunct p)) c := rfl

theorem run_take (next : Token → Parser n α) (c : Cursor (n + 1)) :
    run (take next) c = ((run (next c.peek) c.drop).1, (run (next c.peek) c.drop).2.widen) := rfl

/-! ### What is read -/

/-- From the tokens `ts` the parser gives `a` and leaves `rest`. -/
def Reads (p : Parser n α) (ts : List Token) (a : α) (rest : List Token) : Prop :=
  ∀ c : Cursor n, c.tokens = ts → ∃ c' : Cursor n, p.run c = (.ok a, c') ∧ c'.tokens = rest

variable {p : Parser n α} {a : α} {b : β} {t : Token} {ts mid rest : List Token}

theorem Reads.pure (a : α) (ts : List Token) : Reads (pure a : Parser n α) ts a ts :=
  fun c hc => ⟨c, rfl, hc⟩

theorem Reads.bind {f : α → Parser n β} (hp : Reads p ts a mid) (hf : Reads (f a) mid b rest) :
    Reads (p >>= f) ts b rest := by
  intro c hc
  obtain ⟨c1, h1, hc1⟩ := hp c hc
  obtain ⟨c2, h2, hc2⟩ := hf c1 hc1
  refine ⟨c2, ?_, hc2⟩
  rw [run_bind, h1]
  exact h2

theorem Reads.map {f : α → β} (hp : Reads p ts a rest) : Reads (f <$> p) ts (f a) rest :=
  hp.bind (.pure (f a) rest)

/-- A look at the next token; where the stream is empty, only its kind is known. -/
theorem Reads.peek {f : Token → Parser n α} (h : ∀ t, t.kind = Token.next ts → Reads (f t) ts a rest) :
    Reads (Parser.peek >>= f) ts a rest := by
  intro c hc
  rw [run_peek_bind]
  exact h c.peek (by rw [Cursor.kind_peek, hc]) c hc

theorem Reads.peekCons {f : Token → Parser n α} (h : Reads (f t) (t :: ts) a rest) :
    Reads (Parser.peek >>= f) (t :: ts) a rest := by
  intro c hc
  rw [run_peek_bind, Cursor.peek_of_tokens hc]
  exact h c hc

theorem Reads.peekSecond {f : Token → Parser n α}
    (h : ∀ s, s.kind = Token.next ts → Reads (f s) (t :: ts) a rest) :
    Reads (Parser.peekSecond >>= f) (t :: ts) a rest := by
  intro c hc
  rw [run_peekSecond_bind]
  exact h c.peekSecond (Cursor.peekSecond_of_tokens hc) c hc

theorem Reads.atYes {p : Punct} {yes no : Parser n α} (ht : t.kind = .punct p)
    (h : Reads yes (t :: ts) a rest) :
    Reads (do if ← Parser.at? p then yes else no) (t :: ts) a rest := by
  intro c hc
  rw [run_at_bind, Cursor.peek_of_tokens hc, if_pos (TokenKind.isPunct_iff.2 ht)]
  exact h c hc

theorem Reads.atNo {p : Punct} {yes no : Parser n α} (hts : (Token.next ts).isPunct p = false)
    (h : Reads no ts a rest) : Reads (do if ← Parser.at? p then yes else no) ts a rest := by
  intro c hc
  rw [run_at_bind, Cursor.kind_peek, hc, hts, if_neg Bool.false_ne_true]
  exact h c hc

theorem Reads.advance (t : Token) (ts : List Token) :
    Reads (Parser.advance : Parser n Token) (t :: ts) t ts := by
  intro c hc
  refine ⟨c.advance, ?_, by rw [Cursor.tokens_advance, hc, List.tail_cons]⟩
  rw [← Cursor.peek_of_tokens hc]
  rfl

theorem Reads.take {next : Token → Parser n α} (h : Reads (next t) ts a rest) :
    Reads (Parser.take next) (t :: ts) a rest := by
  intro c hc
  obtain ⟨c1, hrun, hc1⟩ := h c.drop (by rw [Cursor.tokens_drop, hc, List.tail_cons])
  refine ⟨c1.widen, ?_, hc1⟩
  rw [run_take, Cursor.peek_of_tokens hc, hrun]

theorem Reads.expect {p : Punct} (ht : t.kind = .punct p) (context : String) (ts : List Token) :
    Reads (Parser.expect p context : Parser n Token) (t :: ts) t ts := by
  unfold Parser.expect
  exact .atYes ht (.advance t ts)

/-- A rule that is defined by recursion on the bound, on tokens of which there is one. -/
theorem Reads.ofSucc {p : (n : Nat) → Parser n α} (h : ∀ n, Reads (p (n + 1)) (t :: ts) a rest) (n : Nat) :
    Reads (p n) (t :: ts) a rest := by
  cases n with
  | zero =>
    intro c hc
    have := c.bounded
    rw [hc, List.length_cons] at this
    omega
  | succ n => exact h n

end Parser

end MiniC
