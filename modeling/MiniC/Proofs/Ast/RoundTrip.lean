import MiniC.Proofs.Ast.Spelling

/-!
# Programs are read back from what they are written as

Every program that tokens can spell is read back from the tokens it is written as
(`Program.ofTokens_written`), up to the ranges of its nodes. What a parenthesis or a semicolon after
the name of an item decides, and where the list of items ends, is settled here; the phrases inside
are those of `MiniC.Proofs.Ast.Spelling`.
-/

set_option autoImplicit false

namespace MiniC

open Ast Ast.Grammar
open MiniC.Parser (Reads Spells)

/-! ### Parameters -/

namespace Ast

/-- What can follow a parameter. -/
def EndsParameter (k : TokenKind) : Prop := k = .punct .comma ∨ k = .punct .rightParen

theorem Parameter.spells {p : Parameter} (h : p.type.Plain) :
    Spells Parser.parameter p.tokens p.erase EndsParameter := by
  obtain ⟨name, ⟨base, depth, length⟩, span⟩ := p
  obtain rfl : length = none := h.single
  intro n rest hrest
  simp only [Parameter.tokens, Token.bare_cons, Token.bare_append, Token.bare_nil]
  refine .peekCons (.bind (.baseType rfl (mem_typeWords base) _) (.bind (Parser.reads_stars h.depth rfl n) ?_))
  refine .bind (.identifier rfl _ _) (.bind (.acceptNo ?_) (.pure _ _))
  obtain hrest | hrest := hrest
  all_goals
    rw [hrest]
    rfl

theorem spells_parameters {p : Parameter} {ps : List Parameter} (h : ∀ q ∈ p :: ps, q.type.Plain) :
    Spells Parser.parameters (parameterTokens (p :: ps)) ((p :: ps).map Parameter.erase) (· = .punct .rightParen) := by
  induction ps generalizing p with
  | nil =>
    intro n rest hrest
    rw [parameterTokens, List.flatMap_nil, List.append_nil, Parser.parameters]
    refine .bind (Parameter.spells (h p List.mem_cons_self) (.inr hrest)) ?_
    cases n with
    | zero =>
      rw [Parser.moreParameters]
      exact .pure _ _
    | succ n =>
      rw [Parser.moreParameters]
      exact .atNo (by rw [hrest]; rfl) (.pure _ _)
  | cons q qs ih =>
    intro n rest hrest
    rw [parameterTokens, Token.bare_append, Parser.parameters]
    refine .bind ((Parameter.spells (h p List.mem_cons_self)).before (.inl rfl)) ?_
    refine Reads.ofSucc (p := fun n => Parser.moreParameters n p.erase) (fun n => ?_) n
    rw [Parser.moreParameters]
    exact .atYes rfl (.take (.bind (ih (fun r hr => h r (.tail p hr)) hrest) (.pure _ _)))

theorem spells_parameterList {ps : List Parameter} (h : ∀ p ∈ ps, p.type.Plain) :
    Spells Parser.parameterList (.punct .leftParen :: (parameterTokens ps ++ [.punct .rightParen]))
      (ps.map Parameter.erase) TokenKind.Any := by
  intro n rest _
  rw [Token.bare_cons, Token.bare_append]
  refine .bind (.expect rfl _ _) ?_
  cases ps with
  | nil =>
    refine .peekCons (.peekSecond fun second hsecond => ?_)
    rw [hsecond, if_pos (by rfl)]
    exact .bind (.advance _ _) (.atYes rfl (.bind (.pure _ _) (.bind (.expect rfl _ _) (.pure _ _))))
  | cons p ps =>
    refine .peekCons (.peekSecond fun second hsecond => ?_)
    -- After the first token of a parameter comes a star or its name.
    have hopen : second.kind.isPunct .rightParen = false := by
      rw [hsecond]
      show (Token.next ((p.type.stars ++ _ ++ _).map Token.bare ++ _)).isPunct .rightParen = false
      rw [TypeName.stars]
      cases p.type.pointerDepth <;> rfl
    rw [hopen, Bool.and_false, if_neg Bool.false_ne_true]
    exact .atNo rfl (.bind ((spells_parameters h).before rfl) (.bind (.expect rfl _ _) (.pure _ _)))

/-! ### Items -/

theorem Stmt.Concrete.spells_block {body : List Stmt} {span : Span}
    (h : (Stmt.block body span).Concrete) :
    Spells Parser.block (Stmt.block body span).tokens (Stmt.block body span).erase TokenKind.Any := by
  obtain _ | ⟨_, hb⟩ := h
  intro n rest _
  rw [Stmt.tokens, Token.bare_cons]
  refine Reads.ofSucc (p := Parser.block) (fun n => ?_) n
  exact .atYes rfl (.take (Stmt.spells_blockTail hb (fun s hs => (hb s hs).spells) span trivial))

theorem Function.Concrete.spells {f : Function} (h : f.Concrete) :
    Spells Parser.item f.tokens (.function f.erase) TokenKind.Any := by
  obtain ⟨name, ⟨base, depth, length⟩, ps, body, span⟩ := f
  obtain rfl : length = none := h.result.single
  intro n rest _
  have hlist : ∀ {us : List Token}, Reads (Parser.parameterList n) (.bare (.punct .leftParen) ::
      ((parameterTokens ps).map Token.bare ++ .bare (.punct .rightParen) :: us)) (ps.map Parameter.erase) us := by
    intro us
    simpa using @spells_parameterList ps h.parameters n us trivial
  simp only [Function.tokens, Token.bare_cons, Token.bare_append]
  refine .peekCons (.bind (.baseType rfl (mem_typeWords base) _) ?_)
  refine .bind (Parser.reads_stars h.result.depth rfl n) (.bind (.identifier rfl _ _) ?_)
  refine .atYes rfl (.bind hlist ?_)
  cases body with
  | none => exact .atYes rfl (.bind (.advance _ _) (.pure _ _))
  | some s =>
    obtain ⟨hs, body, bspan, rfl⟩ := h.body s rfl
    refine .atNo rfl (.bind (hs.spells_block trivial) ?_)
    rw [Stmt.span_erase]
    exact .pure _ _

theorem Declaration.next_tail (d : Declaration) {rest : List Token} (hrest : EndsDeclarator (Token.next rest)) :
    (Token.next (d.tailTokens.map Token.bare ++ rest)).isPunct .leftParen = false := by
  rw [Declaration.tailTokens, TypeName.lengthTokens]
  cases d.type.arrayLength with
  | some length => rfl
  | none =>
    cases d.init with
    | some i => rfl
    | none => exact hrest.endsExpr.notCall

theorem Declared.spells_item {ds : List Declaration} (h : Declared ds) :
    Spells Parser.item (declarationTokens ds) (Item.declare ds).erase TokenKind.Any := by
  cases ds with
  | nil => exact absurd rfl h.nonempty
  | cons d ds =>
    intro n rest hrest
    have hd := h.each d List.mem_cons_self
    have hends := endsDeclarator_further ds rest
    simp only [declarationTokens, Declaration.tokens, Token.bare_cons, Token.bare_append]
    refine .peekCons (.bind (.baseType rfl (mem_typeWords _) _) ?_)
    refine .bind (Parser.reads_stars hd.depth rfl n) (.bind (.identifier rfl _ _) ?_)
    exact .atNo (d.next_tail hends) (.bind (hd.spells_tail hends) (.bind (h.spells_further hrest) (.pure _ _)))

theorem Item.Concrete.spells {item : Item} (h : item.Concrete) :
    Spells Parser.item item.tokens item.erase TokenKind.Any := by
  cases item with
  | function f => exact Function.Concrete.spells h
  | declare ds => exact Declared.spells_item h

theorem Item.Concrete.begins {item : Item} (h : item.Concrete) :
    ∃ word us, item.tokens = .keyword word :: us := by
  cases item with
  | function f => exact ⟨_, _, rfl⟩
  | declare ds =>
    cases ds with
    | nil => exact absurd rfl h.nonempty
    | cons d ds => exact ⟨_, _, rfl⟩

/-- An item ends with a semicolon or with the brace of a body. -/
theorem Item.Concrete.ends {item : Item} (h : item.Concrete) :
    ∃ p, item.tokens.getLast? = some (.punct p) := by
  cases item with
  | function f =>
    obtain ⟨name, result, ps, body, span⟩ := f
    cases body with
    | none => exact ⟨.semicolon, by simp [Item.tokens, Function.tokens, List.getLast?_cons]⟩
    | some s =>
      obtain ⟨-, body, bspan, rfl⟩ := h.body s rfl
      exact ⟨.rightBrace, by simp [Item.tokens, Function.tokens, Stmt.tokens, List.getLast?_cons]⟩
  | declare ds =>
    cases ds with
    | nil => exact absurd rfl h.nonempty
    | cons d ds =>
      exact ⟨.semicolon, by
        simp [Item.tokens, declarationTokens, furtherTokens, List.getLast?_cons]⟩

/-! ### Files -/

theorem spells_items {is : List Item} (h : ∀ item ∈ is, item.Concrete) :
    Spells Parser.items (is.flatMap Item.tokens) (is.map Item.erase) (· = .endOfFile) := by
  induction is with
  | nil =>
    intro n rest hrest
    cases n with
    | zero => exact .pure _ _
    | succ n =>
      refine .peek fun t ht => ?_
      rw [ht, List.flatMap_nil, Token.bare_nil, hrest]
      exact .pure _ _
  | cons item is ih =>
    intro n rest hrest
    have hread : ∀ {n us}, Reads (Parser.item n) (item.tokens.map Token.bare ++ us) item.erase us :=
      fun {_ _} => (h item List.mem_cons_self).spells trivial
    have hreads := ih fun i hi => h i (.tail item hi)
    obtain ⟨word, us, hus⟩ := (h item List.mem_cons_self).begins
    rw [hus] at hread
    rw [List.flatMap_cons, Token.bare_append, hus]
    refine Reads.ofSucc (p := Parser.items) (fun n => ?_) n
    refine .peekCons ?_
    rw [if_neg (by simp [TokenKind.isEnd])]
    refine .bounded fun hlen => .bind hread (.bind (.afterProgress ?_ (hreads hrest) []) (.pure _ _))
    rw [List.length_cons, List.append_eq, List.length_append] at hlen
    omega

theorem Program.Concrete.ends {u : Program} (h : u.Concrete) :
    u.tokens.getLast? ≠ some .endOfFile := by
  obtain ⟨is, span⟩ := u
  show (is.flatMap Item.tokens).getLast? ≠ some .endOfFile
  induction is with
  | nil => simp
  | cons item is ih =>
    obtain ⟨p, hp⟩ := (h item List.mem_cons_self).ends
    specialize ih fun i hi => h i (.tail item hi)
    rw [List.flatMap_cons, List.getLast?_append, hp]
    cases hlast : (is.flatMap Item.tokens).getLast? with
    | none => simp
    | some k =>
      rw [hlast] at ih
      exact ih

end Ast

/-- The stream of tokens that end in something else than the end of the file, however they are
commented and whether or not the end of the file stands after them. -/
theorem Cursor.kinds_ofTokens {tokens : List Token} {ks : List TokenKind}
    (hlast : ks.getLast? ≠ some .endOfFile)
    (h : (tokens.filter fun t => !t.kind.isComment).map Token.kind = ks ∨
      (tokens.filter fun t => !t.kind.isComment).map Token.kind = ks ++ [.endOfFile]) :
    (Cursor.ofTokens tokens).2.tokens.map Token.kind = ks := by
  have hstream := Cursor.tokens_ofTokens_append tokens
  generalize (tokens.filter fun t => !t.kind.isComment) = visible at h hstream
  unfold Token.setApart at hstream
  obtain h | h := h
  · have hnot : ∀ last, visible.getLast? = some last → last.kind.isEnd = false := by
      intro last hvisible
      refine Bool.eq_false_iff.mpr fun hend => hlast ?_
      rw [← h, List.getLast?_map, hvisible, Option.map_some, TokenKind.isEnd_iff.1 hend]
    cases hvisible : visible.getLast? with
    | none =>
      rw [hvisible, List.append_nil] at hstream
      rw [hstream, h]
    | some last =>
      rw [hvisible] at hstream
      dsimp only at hstream
      rw [hnot last hvisible, if_neg Bool.false_ne_true, List.append_nil] at hstream
      rw [hstream, h]
  · obtain ⟨init, ends, rfl, hinit, hends⟩ := List.map_eq_append_iff.mp h
    obtain ⟨last, rfl, hkind⟩ := List.map_eq_singleton_iff.mp hends
    rw [List.getLast?_concat] at hstream
    dsimp only at hstream
    rw [if_pos (TokenKind.isEnd_iff.2 hkind)] at hstream
    rw [List.append_cancel_right hstream, hinit]

/-- **A program is read back from the tokens it is written as**, up to the ranges of its nodes. The
tokens may have comments anywhere between them, and the end of the file may stand after them. -/
theorem Ast.Program.ofTokens_written {u : Program} (h : u.Concrete) {tokens : List Token}
    (htokens : (tokens.filter fun t => !t.kind.isComment).map Token.kind = u.tokens ∨
      (tokens.filter fun t => !t.kind.isComment).map Token.kind = u.tokens ++ [.endOfFile]) :
    ∃ u', Program.ofTokens tokens = .ok u' ∧ u'.erase = u.erase := by
  have hkinds := Cursor.kinds_ofTokens h.ends htokens
  unfold Program.ofTokens
  generalize Cursor.ofTokens tokens = stream at hkinds
  obtain ⟨n, c⟩ := stream
  have hread := @spells_items u.items h (n + 1) [] rfl
  rw [← Program.tokens, ← hkinds] at hread
  obtain ⟨is', c', hrun, his', -⟩ := (Parser.parses_items n c).reads (List.append_nil _).symm hread
  refine ⟨⟨is', c.peek.span.extend c'.peek.span⟩, ?_, by rw [Program.erase, his', Program.erase]⟩
  show (Parser.run (Parser.program n) c).1 = _
  unfold Parser.program
  rw [Parser.run_peek_bind, Parser.run_bind, hrun]
  rfl

namespace Ast

/-- `{ if (x) for (int i; ; i++) if (x) x += 1; if (x) return 1; else if (x) ; print ...; }`: the first
`if` ends in an open one, and so does the `else` of the second. -/
def Stmt.specimen : Stmt :=
  let x : Expr := .name "x" .unknown
  let one : Expr := .literal (.int 1) .unknown
  let inner : Stmt := .cond x (.expr (.assign (.compound .add) x one .unknown) .unknown) none .unknown
  let loop : Stmt :=
    .forLoop (some (.declare [⟨"i", ⟨.int, 0, none⟩, none, .unknown⟩] .unknown)) none
      (some (.unary .postIncrement (.name "i" .unknown) .unknown)) inner .unknown
  .block [.cond x loop none .unknown,
    .cond x (.ret (some one) .unknown) (some (.cond x (.empty .unknown) none .unknown)) .unknown,
    .print (.cast ⟨.char, 1, none⟩ (.index x (.call "f" [x, one] .unknown) .unknown) .unknown)
      .unknown] .unknown

theorem Stmt.concrete_specimen : Stmt.specimen.Concrete := by
  have hone : (Expr.literal (.int 1) .unknown).Concrete := .literal _ _
  have hx : (Expr.name "x" .unknown).Concrete := .name _ _
  have hi : Declared [⟨"i", ⟨.int, 0, none⟩, none, .unknown⟩] :=
    ⟨by simp, by simp, by simpa using ⟨by decide, by simp, by simp⟩⟩
  refine .block _ ?_
  simp only [List.forall_mem_cons, List.not_mem_nil, IsEmpty.forall_iff, implies_true, and_true]
  refine ⟨.cond _ hx ?_ (by simp) (by simp), .cond _ hx (.ret _ (by simpa)) ?_ (by simp [endsOpen]),
    .print _ (.cast _ ⟨by decide, rfl⟩ (.index _ hx (.call _ _ (by simp [hx, hone]))))⟩
  · refine .forLoop _ (by simp [isClause]) ?_ (by simp) ?_ ?_
    · simpa using Stmt.Concrete.declare _ hi
    · simpa using Expr.Concrete.unary _ _ (.name _ _)
    · exact .cond _ hx (.expr _ (.assign _ rfl hx hone)) (by simp) (by simp)
  · simpa using Stmt.Concrete.cond _ hx (.empty _) (by simp) (by simp)

/-- `int f(char *s); int t[2] = { 1, { 1 } }, *p; int f(char *s) { ... }` -/
def Program.specimen : Program :=
  let one : Initializer := .expr (.literal (.int 1) .unknown)
  let s : Parameter := ⟨"s", ⟨.char, 1, none⟩, .unknown⟩
  ⟨[.function ⟨"f", ⟨.int, 0, none⟩, [s], none, .unknown⟩,
    .declare [⟨"t", ⟨.int, 0, some 2⟩, some (.list [one, .list [one] .unknown] .unknown), .unknown⟩,
      ⟨"p", ⟨.int, 1, none⟩, none, .unknown⟩],
    .function ⟨"f", ⟨.int, 0, none⟩, [s], some Stmt.specimen, .unknown⟩], .unknown⟩

theorem Program.concrete_specimen : Program.specimen.Concrete := by
  have hone : (Initializer.expr (.literal (.int 1) .unknown)).Concrete := .expr (.literal _ _)
  have hs : ∀ p ∈ [(⟨"s", ⟨.char, 1, none⟩, .unknown⟩ : Parameter)], p.type.Plain := by
    simpa using ⟨by decide, rfl⟩
  unfold Program.Concrete Program.specimen
  simp only [List.forall_mem_cons, List.not_mem_nil, IsEmpty.forall_iff, implies_true, and_true]
  refine ⟨⟨⟨by decide, rfl⟩, hs, by simp⟩, ⟨by simp, by simp, ?_⟩, ⟨⟨by decide, rfl⟩, hs, ?_⟩⟩
  · simp only [List.forall_mem_cons, List.not_mem_nil, IsEmpty.forall_iff, implies_true, and_true]
    refine ⟨⟨by decide, by simp, ?_⟩, ⟨by decide, by simp, by simp⟩⟩
    simpa using Initializer.Concrete.list _ (by simp [hone, Initializer.Concrete.list])
  · simpa using ⟨Stmt.concrete_specimen, _, _, rfl⟩

/-- The tokens of a program, each behind a comment, and the end of the file with one after it. -/
def Program.commented (u : Program) : List Token :=
  (u.tokens ++ [TokenKind.endOfFile]).flatMap
      (fun k => [⟨.blockComment "", .unknown⟩, ⟨k, .unknown⟩]) ++
    [⟨.lineComment "", .unknown⟩]

theorem Program.ofTokens_commented_specimen :
    Program.specimen.Concrete ∧
      (Program.specimen.commented.filter fun t => !t.kind.isComment).map Token.kind =
        Program.specimen.tokens ++ [.endOfFile] ∧
      ∃ u', Program.ofTokens Program.specimen.commented = .ok u' ∧
        u'.erase = Program.specimen.erase :=
  ⟨concrete_specimen, by rfl, Program.ofTokens_written concrete_specimen (.inr (by rfl))⟩

end Ast

end MiniC
