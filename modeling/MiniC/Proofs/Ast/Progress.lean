import MiniC.Proofs.Ast.Parsing

/-!
# Parsing goes forward

A rule of the parser recurses under a bound, the number of tokens to go. The bound is no limit on what is read: under
any larger one a rule ends in the same way at the same token (`Ends`). So each call ends because the tokens do.
It leaves the end of the stream it was called on, also where it fails, and an expression, a statement or an item takes
at least one token (`Progresses`).

All of this is read off from what the rules have in common (`Parses`): the outcome without ranges is the same under
the next larger bound, and a failure keeps its message and a stream its length when ranges are forgotten.
-/

set_option autoImplicit false

namespace MiniC

open Ast

/-- A place in a token list. With the token that the stream sets apart, the tokens to go are the end of the list
without its comments. -/
def Cursor.IsIn {n : Nat} (c : Cursor n) (tokens : List Token) : Prop :=
  c.tokens ++ Token.setApart (tokens.filter fun t => !t.kind.isComment) <:+ tokens.filter fun t => !t.kind.isComment

/-- The same place under a bound that is not smaller. -/
def Cursor.under {n m : Nat} (c : Cursor n) (h : n ≤ m) : Cursor m := ⟨c.tokens, c.endSpan, c.bounded.trans h⟩

namespace Parser

variable {n : Nat} {α : Type}

/-- How a run has ended: whether it failed and with which message, and the tokens left. -/
def ending (r : Except ParseError α × Cursor n) : Except String Unit × List Token :=
  ((r.1.map fun _ => ()).mapError ParseError.message, r.2.tokens)

/-- How a rule ends at a place of a stream, whether it succeeds or fails. -/
structure Ends (p : (n : Nat) → Parser n α) (c : Cursor n) : Prop where
  left : (run (p n) c).2.tokens <:+ c.tokens
  within (tokens : List Token) : c.IsIn tokens → (run (p n) c).2.IsIn tokens
  settled {m : Nat} (h : n ≤ m) : ending (run (p m) (c.under h)) = ending (run (p n) c)

/-- A rule ends, and it takes a token if it succeeds. -/
structure Progresses (p : (n : Nat) → Parser n α) (c : Cursor n) : Prop extends Ends p c where
  taken (a : α) : (run (p n) c).1 = .ok a → (run (p n) c).2.tokens.length < c.tokens.length

section Runs

variable {forget : α → α} {R : {n : Nat} → Cursor n → List Token → α → List Token → Prop}
  {p : (n : Nat) → Parser n α} (hp : ∀ {n : Nat} (c : Cursor n), Parses forget (R c) (p n) (p (n + 1)) c)
include hp

theorem left_suffix (c : Cursor n) : (run (p n) c).2.tokens <:+ c.tokens := by
  obtain ⟨_, ts, hts, _⟩ := hp c
  exact ⟨ts, hts.symm⟩

/-- The next larger bound: what comes out is compared on the stream that has lost its ranges twice. -/
theorem ending_widen (c : Cursor n) : ending (run (p (n + 1)) c.widen) = ending (run (p n) c) := by
  have htwice : c.widen.erase = c.erase.erase := by
    simp only [Cursor.erase, Cursor.widen, List.map_map]
    rfl
  have hwide := (hp c.widen).1
  rw [htwice, (hp c.erase).1, (hp c).1] at hwide
  have hleft := left_suffix hp c.widen
  have hleft' := left_suffix hp c
  generalize run (p (n + 1)) c.widen = wide at hwide hleft
  generalize run (p n) c = narrow at hwide hleft'
  obtain ⟨hresult, hcursor⟩ := Prod.mk.inj hwide
  obtain ⟨result, c1⟩ := narrow
  obtain ⟨result', c2⟩ := wide
  have hlength : c2.tokens.length = c1.tokens.length := by
    simpa [Cursor.erase] using (congrArg (fun c => c.tokens.length) hcursor).symm
  have htokens : c2.tokens = c1.tokens :=
    (List.suffix_of_suffix_length_le hleft hleft' hlength.le).eq_of_length hlength
  have hmessage : (result'.map fun _ => ()).mapError ParseError.message =
      (result.map fun _ => ()).mapError ParseError.message := by
    cases result with
    | ok a =>
      cases result' with
      | ok b => rfl
      | error e => cases hresult
    | error e =>
      cases result' with
      | ok b => cases hresult
      | error e' =>
        have herror := congrArg ParseError.message (Except.error.inj hresult)
        rw [ParseError.message_erase, ParseError.message_erase, ParseError.message_erase] at herror
        exact congrArg Except.error herror.symm
  exact Prod.ext hmessage htokens

theorem ends (c : Cursor n) : Ends p c where
  left := left_suffix hp c
  within tokens hc := by
    obtain ⟨before, hbefore⟩ := hc
    obtain ⟨ts, hts⟩ := left_suffix hp c
    exact ⟨before ++ ts, by rw [List.append_assoc, ← List.append_assoc ts, hts, hbefore]⟩
  settled {m} h := by
    induction m, h using Nat.le_induction with
    | base => rfl
    | succ m h ih => exact (ending_widen hp (c.under h)).trans ih

theorem progresses (c : Cursor n) (hR : ∀ ts a rest, R c ts a rest → ts ≠ []) : Progresses p c where
  toEnds := ends hp c
  taken a ha := by
    obtain ⟨_, ts, hts, _, htaken⟩ := hp c
    have hpos := List.length_pos_iff.mpr (hR ts a _ (htaken a ha))
    rw [hts, List.length_append]
    omega

end Runs

end Parser

/-- The parser ends on every token list, with comments anywhere and the token that ends the file at the end, in the
middle or missing. Wherever in the list a rule is called, under whatever bound, it ends as it does under any larger
bound, and the tokens left are the end of the list without its comments, also where it fails. An expression, a
statement or an item that is read takes a token. A file is read only up to the token that ends it, or to the end of
the list. -/
theorem parsing_progresses :
    (∀ tokens, (Cursor.ofTokens tokens).2.IsIn tokens) ∧
    ∀ {n : Nat} (c : Cursor n),
      Parser.Progresses Parser.expr c ∧ Parser.Progresses Parser.stmt c ∧ Parser.Progresses Parser.item c ∧
      Parser.Ends Parser.program c ∧
      ∀ p, (Parser.run (Parser.program n) c).1 = .ok p →
        Token.next (Parser.run (Parser.program n) c).2.tokens = .endOfFile := by
  refine ⟨fun tokens => ⟨[], Cursor.tokens_ofTokens_append tokens⟩, fun c => ⟨?_, ?_, ?_, ?_, fun p hp => ?_⟩⟩
  · exact Parser.progresses Parser.parses_expr c fun _ _ _ h => h.ne_nil
  · exact Parser.progresses (fun {n} => (Parser.stmtParses n).stmt) c fun _ _ _ h => h.ne_nil
  · refine Parser.progresses Parser.parses_item c fun _ _ _ h => ?_
    obtain ⟨-, _, _, _, rfl, -⟩ := h
    exact List.cons_ne_nil _ _
  · exact Parser.ends Parser.parses_program c
  · obtain ⟨-, _, -, -, hread⟩ := Parser.parses_program c
    exact (hread p hp).1

end MiniC
