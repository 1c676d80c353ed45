import MiniC.Proofs.Ast.Parsing

/-!
# Parsing does not look at ranges

Forgetting the ranges of tokens before parsing is the same as forgetting those of the tree after it
(`Parser.parses_program`). So token lists that differ in comments and ranges only are parsed alike.
-/

set_option autoImplicit false

namespace MiniC

open Ast

theorem Cursor.length_ofTokens (tokens : List Token) :
    (Cursor.ofTokens tokens).2.tokens.length = (Cursor.ofTokens tokens).1 := by
  unfold Cursor.ofTokens
  dsimp only
  cases (tokens.filter fun t => !t.kind.isComment).getLast? with
  | none => rfl
  | some last =>
    dsimp only
    cases last.kind.isEnd <;> rfl

/-- What is set apart depends on the kinds of the tokens only. -/
theorem Token.map_kind_setApart {ts ts' : List Token} (h : ts.map Token.kind = ts'.map Token.kind) :
    (Token.setApart ts).map Token.kind = (Token.setApart ts').map Token.kind := by
  have hlast : ts.getLast?.map Token.kind = ts'.getLast?.map Token.kind := by
    rw [← List.getLast?_map, h, List.getLast?_map]
  unfold Token.setApart
  cases ht : ts.getLast? with
  | none =>
    rw [ht, Option.map_none, eq_comm, Option.map_eq_none_iff] at hlast
    rw [hlast]
  | some last =>
    rw [ht, Option.map_some, eq_comm, Option.map_eq_some_iff] at hlast
    obtain ⟨last', hlast', hkind⟩ := hlast
    rw [hlast']
    dsimp only
    rw [hkind]
    split
    · rw [List.map_singleton, List.map_singleton, hkind]
    · rfl

/-- Token lists that differ in comments and ranges only give the same stream without ranges. -/
theorem Cursor.ofTokens_alike {tokens tokens' : List Token}
    (h : (tokens.filter fun t => !t.kind.isComment).map Token.kind =
      (tokens'.filter fun t => !t.kind.isComment).map Token.kind) :
    (⟨_, (Cursor.ofTokens tokens).2.erase⟩ : (n : Nat) × Cursor n) = ⟨_, (Cursor.ofTokens tokens').2.erase⟩ := by
  have hkinds : (Cursor.ofTokens tokens).2.tokens.map Token.kind =
      (Cursor.ofTokens tokens').2.tokens.map Token.kind := by
    have happ := h
    rw [← Cursor.tokens_ofTokens_append tokens, ← Cursor.tokens_ofTokens_append tokens', List.map_append,
      List.map_append, Token.map_kind_setApart h] at happ
    exact List.append_cancel_right happ
  have hlength := congrArg List.length hkinds
  rw [List.length_map, List.length_map, Cursor.length_ofTokens, Cursor.length_ofTokens] at hlength
  generalize Cursor.ofTokens tokens = stream at hkinds hlength
  generalize Cursor.ofTokens tokens' = stream' at hkinds hlength
  obtain ⟨n, c⟩ := stream
  obtain ⟨n', c'⟩ := stream'
  obtain rfl : n = n' := hlength
  have herase := congrArg (List.map fun k => (⟨k, .unknown⟩ : Token)) hkinds
  rw [List.map_map, List.map_map] at herase
  have hcursor : c.erase = c'.erase := Cursor.mk.injEq _ _ _ _ _ _ ▸ ⟨herase, rfl⟩
  exact congrArg (Sigma.mk (n + 1)) hcursor

/-- **Reading a program does not look at layout**: token lists that differ in comments and ranges
only spell the same program, up to the ranges of its nodes, or fail in the same way. -/
theorem Ast.Program.ofTokens_alike {tokens tokens' : List Token}
    (h : (tokens.filter fun t => !t.kind.isComment).map Token.kind =
      (tokens'.filter fun t => !t.kind.isComment).map Token.kind) :
    ((Program.ofTokens tokens).map Program.erase).mapError ParseError.erase =
      ((Program.ofTokens tokens').map Program.erase).mapError ParseError.erase := by
  have halike := Cursor.ofTokens_alike h
  unfold Program.ofTokens
  generalize Cursor.ofTokens tokens = stream at halike
  generalize Cursor.ofTokens tokens' = stream' at halike
  obtain ⟨n, c⟩ := stream
  obtain ⟨n', c'⟩ := stream'
  obtain ⟨rfl, herase⟩ : n = n' ∧ HEq c.erase c'.erase := by simpa using halike
  have hrun := (Parser.parses_program c).1
  rw [eq_of_heq herase, (Parser.parses_program c').1] at hrun
  exact congrArg Prod.fst hrun.symm

end MiniC
