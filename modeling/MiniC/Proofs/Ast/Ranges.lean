import MiniC.Proofs.Ast.Parsing
import MiniC.Proofs.Token.Offsets

/-!
# The ranges of a program nest

What the walk through the parser says of the tokens of a tree (`Parser.parses_program`) holds of every text that is
read, since a scan gives its tokens in order (`Scanner.inOrder_of_tokens`). From it follows that the range of a tree
encloses those of all trees below it. The range of an expression is that of its tokens, from the first to the last;
those of a declared object may reach further on both sides.
-/

set_option autoImplicit false

namespace MiniC

/-! ### Tokens of a scan -/

theorem Location.precedes_advance (l : Location) (c : Char) : l.Precedes (l.advance c) := by
  unfold Location.advance
  split
  · exact ⟨rfl, .inl (Nat.lt_succ_self _)⟩
  · exact ⟨rfl, .inr ⟨rfl, Nat.le_succ _⟩⟩

theorem Location.precedes_advanceBy (l : Location) (cs : List Char) : l.Precedes (l.advanceBy cs) := by
  induction cs generalizing l with
  | nil => exact .refl l
  | cons c cs ih => exact (l.precedes_advance c).trans (ih (l.advance c))

theorem Scanner.inOrder_of_tokens {s : Scanner} {ts : List Token} (h : s.tokens.1 = .ok ts) : Token.InOrder ts := by
  refine (Scanner.tokens_induction (motive := fun s ts =>
    Token.InOrder ts ∧ ∀ t ∈ ts, s.place.Precedes t.span.start) ?_ ?_ h).1
  · intro s _
    refine ⟨⟨List.pairwise_singleton .., ?_⟩, ?_⟩
    · exact List.forall_mem_singleton.mpr (.refl _)
    · exact List.forall_mem_singleton.mpr (s.place.precedes_advanceBy s.rest)
  · intro s gap text rest kind ts _ ih
    obtain ⟨⟨hapart, hforward⟩, hafter⟩ := ih
    have hstart : s.place.Precedes (s.place.advanceBy gap) := s.place.precedes_advanceBy gap
    have hstop : (s.place.advanceBy gap).Precedes (s.place.advanceBy (gap ++ text)) := by
      rw [Location.advanceBy_append]
      exact Location.precedes_advanceBy _ text
    exact ⟨⟨List.pairwise_cons.mpr ⟨hafter, hapart⟩, List.forall_mem_cons.mpr ⟨hstop, hforward⟩⟩,
      List.forall_mem_cons.mpr ⟨hstart, fun t ht => (hstart.trans hstop).trans (hafter t ht)⟩⟩

namespace Ast

/-! ### Trees below a tree -/

/-- The second tree is the first one or somewhere below it. -/
def Node.Below : Node → Node → Prop := Relation.ReflTransGen fun n m => m ∈ n.children

theorem Commas.mem {ns : List Node} {parts : List Part} (h : Commas ns parts) : ∀ n ∈ ns, .node n ∈ parts := by
  induction h with
  | nil => simp
  | last n => simp
  | more _ ih => exact List.forall_mem_cons.mpr ⟨by simp, fun n hn => by simp [ih n hn]⟩

/-- The trees below a tree are parts that its range covers, or those of the expression that it is in parentheses. -/
theorem Written.children {n : Node} {before within after : List Part} (h : Written n before within after) :
    (∀ m ∈ n.children, .node m ∈ within) ∨ ∃ e, n.children = (Node.expr e).children ∧ .expr e ∈ within := by
  cases h with
  | @parenthesized e inner _ h =>
    subst h
    exact .inr ⟨inner, by cases inner <;> rfl, by simp⟩
  | call h | list h | declare h => exact .inl fun m hm => by simp [h.mem m hm]
  | function hvoid h =>
    refine .inl fun m hm => ?_
    obtain hm | hm := List.mem_append.mp hm
    · simp [h.mem m hm]
    · obtain ⟨s, hs, rfl⟩ := List.mem_map.mp hm
      rw [Option.mem_toList.mp hs]
      simp
  | program h =>
    refine .inl fun m hm => List.mem_append_left _ ?_
    obtain ⟨item, hitem, hm⟩ := List.mem_flatMap.mp hm
    obtain ⟨parts, hparts, hwritten⟩ := exists_of_forall₂ h hitem
    refine List.mem_flatten_of_mem hparts ?_
    cases hwritten with
    | function f => simpa [Item.nodes] using hm
    | declare h => exact List.mem_append_left _ (h.mem m hm)
  | forLoop =>
    refine .inl fun m hm => ?_
    simp only [Node.children, List.mem_append, List.mem_map, Option.mem_toList, List.mem_singleton] at hm
    obtain ((⟨s, hs, rfl⟩ | ⟨e, he, rfl⟩) | ⟨e, he, rfl⟩) | rfl := hm
    · rw [Option.mem_def.mp hs]
      simp
    · simp [Option.mem_def.mp he]
    · simp [Option.mem_def.mp he]
    · simp
  | _ => exact .inl (by simp [Node.children, Expr.operands])

theorem ReadFrom.span_eq {n : Node} {p : Piece} (h : ReadFrom (.node n) p) : p.span = n.span := by
  cases h
  rfl

/-- What is read in order encloses the trees right below it, and they are read from tokens of it. -/
theorem ReadFrom.child {n m : Node} {p : Piece} (h : ReadFrom (.node n) p) (ho : Token.InOrder p.tokens)
    (hm : m ∈ n.children) : ∃ us, us <:+: p.tokens ∧ m.Read us ∧ n.span.Encloses m.span := by
  generalize hpart : Part.node n = part at h
  refine @ReadFrom.rec
    (fun part p _ => ∀ n m, .node n = part → Token.InOrder p.tokens → m ∈ n.children →
      ∃ us, us <:+: p.tokens ∧ m.Read us ∧ n.span.Encloses m.span)
    (fun parts ps _ => ∀ part ∈ parts, ∃ p ∈ ps, ReadFrom part p ∧ ∀ n m, .node n = part → Token.InOrder p.tokens →
      m ∈ n.children → ∃ us, us <:+: p.tokens ∧ m.Read us ∧ n.span.Encloses m.span)
    (fun _ _ _ h => by cases h) ?_ (by simp) ?_ part p h n m hpart ho hm
  · intro n before within after ps qs rs hwritten _ hw _ hspan _ ih _ _ m hn ho hm
    cases hn
    have hsub : (qs.flatMap Piece.tokens) <:+: ((ps ++ qs ++ rs).flatMap Piece.tokens) :=
      ⟨ps.flatMap Piece.tokens, rs.flatMap Piece.tokens, by simp⟩
    have hqs := ho.sublist hsub.sublist
    have hencloses : ∀ p ∈ qs, n.span.Encloses p.span := fun p hp =>
      covers_encloses (hspan ho) (fits_of_forall₂ hw) hqs hp
    have hpiece : ∀ p ∈ qs, p.tokens <:+: ((ps ++ qs ++ rs).flatMap Piece.tokens) := fun p hp => by
      obtain ⟨as, bs, rfl⟩ := List.append_of_mem hp
      exact .trans ⟨as.flatMap Piece.tokens, bs.flatMap Piece.tokens, by simp⟩ hsub
    obtain hparts | ⟨e, hsame, he⟩ := hwritten.children
    · obtain ⟨q, hq, hread, -⟩ := ih _ (hparts m hm)
      obtain ⟨us, span⟩ := q
      obtain rfl := hread.span_eq
      exact ⟨us, hpiece _ hq, hread, hencloses _ hq⟩
    · obtain ⟨q, hq, hread, hbelow⟩ := ih _ he
      obtain ⟨us, hus, hm, hinner⟩ := hbelow _ m rfl (ho.sublist (hpiece q hq).sublist) (hsame ▸ hm)
      have houter := hencloses q hq
      rw [hread.span_eq] at houter
      exact ⟨us, hus.trans (hpiece q hq), hm, houter.1.trans hinner.1, hinner.2.trans houter.2⟩
  · intro part p parts ps hread _ hp hps
    refine List.forall_mem_cons.mpr ⟨⟨p, List.mem_cons_self, hread, hp⟩, fun part hpart => ?_⟩
    obtain ⟨q, hq, h⟩ := hps part hpart
    exact ⟨q, List.mem_cons_of_mem _ hq, h⟩

theorem Node.Read.below {n m : Node} {ts : List Token} (h : n.Read ts) (ho : Token.InOrder ts) (hm : n.Below m) :
    ∃ us, us <:+: ts ∧ m.Read us ∧ n.span.Encloses m.span := by
  induction hm with
  | refl => exact ⟨ts, List.infix_refl ts, h, .refl _, .refl _⟩
  | tail _ hchild ih =>
    obtain ⟨us, hus, hread, houter⟩ := ih
    obtain ⟨vs, hvs, hread, hinner⟩ := ReadFrom.child hread (ho.sublist hus.sublist) hchild
    exact ⟨vs, hvs.trans hus, hread, houter.1.trans hinner.1, hinner.2.trans houter.2⟩

/-! ### Expressions -/

/-- A word or an expression. -/
def Part.IsPhrase : Part → Prop
  | word _ => True
  | node (.expr _) => True
  | node _ => False

theorem Commas.phrases {ns : List Node} {parts : List Part} (h : Commas ns parts)
    (hns : ∀ n ∈ ns, (Part.node n).IsPhrase) : ∀ part ∈ parts, part.IsPhrase := by
  induction h with
  | nil => simp
  | last n => simpa using hns
  | more _ ih =>
    obtain ⟨hn, hns⟩ := List.forall_mem_cons.mp hns
    exact List.forall_mem_cons.mpr ⟨hn, List.forall_mem_cons.mpr ⟨trivial, ih hns⟩⟩

theorem Written.phrases {e : Expr} {before within after : List Part} (h : Written (.expr e) before within after) :
    before = [] ∧ after = [] ∧ ∀ part ∈ within, part.IsPhrase := by
  cases h with
  | call h =>
    have hargs := h.phrases (List.forall_mem_map.mpr fun _ _ => trivial)
    simpa [Part.IsPhrase, or_imp, forall_and] using hargs
  | cast => exact ⟨rfl, rfl, by simp [Part.IsPhrase, List.mem_replicate, or_imp, forall_and]⟩
  | _ => exact ⟨rfl, rfl, by simp [Part.IsPhrase]⟩

theorem covers_flatMap {s : Span} {ps : List Piece} (hs : s.Covers (ps.map Piece.span))
    (h : ∀ p ∈ ps, p.span.Covers (p.tokens.map Token.span)) : s.Covers ((ps.flatMap Piece.tokens).map Token.span) := by
  obtain ⟨hstart, hstop⟩ := hs
  constructor
  · cases ps with
    | nil => cases hstart
    | cons q qs =>
      obtain ⟨t, ht, hfirst⟩ := Option.map_eq_some_iff.mp (h q List.mem_cons_self).1
      rw [List.flatMap_cons, List.map_append, List.head?_append, ht, ← hstart, Option.some_or, Option.map_some, hfirst]
      rfl
  · obtain rfl | ⟨qs, q, rfl⟩ := List.eq_nil_or_concat' ps
    · cases hstop
    · obtain ⟨t, ht, hlast⟩ := Option.map_eq_some_iff.mp (h q (by simp)).2
      rw [List.map_append, List.map_singleton, List.getLast?_concat] at hstop
      rw [List.flatMap_append, List.flatMap_singleton, List.map_append, List.getLast?_append, ht, ← hstop,
        Option.some_or, Option.map_some, hlast]
      rfl

/-- The range of an expression goes from its first token to its last. -/
theorem ReadFrom.covers_tokens {part : Part} {p : Piece} (h : ReadFrom part p) (hpart : part.IsPhrase)
    (ho : Token.InOrder p.tokens) : p.span.Covers (p.tokens.map Token.span) := by
  refine @ReadFrom.rec
    (fun part p _ => part.IsPhrase → Token.InOrder p.tokens → p.span.Covers (p.tokens.map Token.span))
    (fun parts ps _ => (∀ part ∈ parts, part.IsPhrase) →
      ∀ p ∈ ps, Token.InOrder p.tokens → p.span.Covers (p.tokens.map Token.span))
    (fun _ _ _ => ⟨rfl, rfl⟩) ?_ (by simp) ?_ part p h hpart ho
  · intro n before within after ps qs rs hwritten hb _ ha hspan _ ih _ hpart ho
    cases n with
    | expr e =>
      obtain ⟨rfl, rfl, hphrases⟩ := hwritten.phrases
      obtain rfl := List.forall₂_nil_left_iff.mp hb
      obtain rfl := List.forall₂_nil_left_iff.mp ha
      rw [List.nil_append, List.append_nil] at *
      exact covers_flatMap (hspan ho) fun p hp => ih hphrases p hp (ho.sublist (Piece.sublist_of_mem hp))
    | _ => cases hpart
  · intro part p parts ps _ _ hp hps hparts
    obtain ⟨hpart, hparts⟩ := List.forall_mem_cons.mp hparts
    exact List.forall_mem_cons.mpr ⟨hp hpart, hps hparts⟩

end Ast

/-! ### Texts -/

/-- A program that is read from a text is read from its tokens, comments apart, the one that ends the file included. -/
theorem read_of_parse {source file : String} {pool pool' : Pool} {p : Ast.Program}
    (h : parse source file pool = (.ok p, pool')) :
    ∃ tokens, (tokenize source file pool).1 = .ok tokens ∧ Token.InOrder tokens ∧
      (Ast.Node.program p).Read (tokens.filter fun t => !t.kind.isComment) := by
  cases htokens : tokenize source file pool with
  | mk result pool1 =>
    cases result with
    | error e =>
      unfold parse at h
      rw [htokens] at h
      cases h
    | ok tokens =>
      have hscan : (Scanner.start source file pool).tokens.1 = .ok tokens := congrArg Prod.fst htokens
      refine ⟨tokens, rfl, Scanner.inOrder_of_tokens hscan, ?_⟩
      obtain ⟨cuts, htiling⟩ := Scanner.tiling_of_tokens hscan (Location.advanceBy_nil _).symm
      obtain ⟨body, hbody, hcovers⟩ := htiling.covers
      generalize (Location.ofOffset _ _ _) = place at hbody
      have hvisible : (tokens.filter fun t => !t.kind.isComment) =
          (body.filter fun t => !t.kind.isComment) ++ [⟨.endOfFile, .point place⟩] := by
        rw [hbody, List.filter_append]
        rfl
      have hstream : Token.visible tokens = body.filter fun t => !t.kind.isComment := by
        rw [Token.visible, hvisible, List.dropLast_concat]
      rw [parse_eq htokens (by rw [hvisible, List.getLast?_concat]) rfl rfl] at h
      obtain ⟨_, ts, hts, _, hread⟩ :=
        Parser.parses_program ⟨Token.visible tokens, .point place, Nat.le_refl (Token.visible tokens).length⟩
      generalize Parser.run _ _ = outcome at h hts hread
      obtain ⟨result, c⟩ := outcome
      cases result with
      | error e => cases h
      | ok p' =>
        cases h
        obtain ⟨hended, hread⟩ := hread p rfl
        have hdrained : c.tokens = [] := by
          cases hc : c.tokens with
          | nil => rfl
          | cons t rest =>
            rw [hc, Token.next_cons] at hended
            rw [hc, hstream] at hts
            have hmem : t ∈ body := (List.mem_filter.mp (hts ▸ List.mem_append_right ts List.mem_cons_self)).1
            obtain ⟨cut, _, hcut⟩ := Ast.exists_of_forall₂ hcovers hmem
            exact absurd hended hcut.kind_ne
        rw [hdrained, List.append_nil, hstream] at hts
        rw [hdrained, ← hts] at hread
        rw [hvisible]
        exact hread

/-- The trees of a program that is read from a text are read from its tokens, comments apart, the one that ends the
file included. Every range goes forward and encloses the ranges of all trees below it, and that of an expression goes
from the first of its tokens to the last. Parentheses around an expression are tokens of it. -/
theorem parse_ranges_nest {source file : String} {pool pool' : Pool} {p : Ast.Program}
    (h : parse source file pool = (.ok p, pool')) :
    ∃ tokens visible, (tokenize source file pool).1 = .ok tokens ∧
      visible = tokens.filter (fun t => !t.kind.isComment) ∧ Token.InOrder visible ∧
      (Ast.Node.program p).Read visible ∧
      (∀ n, (Ast.Node.program p).Below n →
        n.span.start.Precedes n.span.stop ∧ ∀ m, n.Below m → n.span.Encloses m.span) ∧
      ∀ e, (Ast.Node.program p).Below (.expr e) →
        ∃ ts, ts <:+: visible ∧ (Ast.Node.expr e).Read ts ∧ e.span.Covers (ts.map Token.span) := by
  obtain ⟨tokens, htokens, horder, hread⟩ := read_of_parse h
  have ho : Token.InOrder (tokens.filter fun t => !t.kind.isComment) := horder.sublist List.filter_sublist
  refine ⟨tokens, _, htokens, rfl, ho, hread, fun n hn => ?_, fun e he => ?_⟩
  · obtain ⟨ts, hts, hn, -⟩ := hread.below ho hn
    have hots := ho.sublist hts.sublist
    refine ⟨(hn.fits hots).2.2, fun m hm => ?_⟩
    obtain ⟨_, _, _, hencloses⟩ := hn.below hots hm
    exact hencloses
  · obtain ⟨ts, hts, he, -⟩ := hread.below ho he
    exact ⟨ts, hts, he, he.covers_tokens trivial (ho.sublist hts.sublist)⟩

/-- A function that returns a sum with parentheses and a comment in it. -/
def sumSource : String := "int f(int a) { return (a + (a)) /* 3a */ + a; }"

def sumTokens : List Token := (tokenize sumSource "a.c" {}).1.toOption.getD []

theorem parse_ranges_nest_sum :
    ∃ p, parse sumSource "a.c" {} = (.ok p, {}) ∧ p.span = ⟨⟨"a.c", 1, 1⟩, ⟨"a.c", 1, 48⟩⟩ ∧
      ∀ n, (Ast.Node.program p).Below n → ∀ m, n.Below m → n.span.Encloses m.span := by
  have htokens : tokenize sumSource "a.c" {} = (.ok sumTokens, {}) := by cbv
  have hlast : (sumTokens.filter fun t => !t.kind.isComment).getLast? =
      some ⟨.endOfFile, ⟨⟨"a.c", 1, 48⟩, ⟨"a.c", 1, 48⟩⟩⟩ := by cbv
  have hn : (Token.visible sumTokens).length = 19 := by cbv
  obtain ⟨p, hparse, hspan⟩ : ∃ p, parse sumSource "a.c" {} = (.ok p, {}) ∧
      p.span = ⟨⟨"a.c", 1, 1⟩, ⟨"a.c", 1, 48⟩⟩ := exists_parse htokens hlast rfl hn (by cbv)
  obtain ⟨_, _, _, _, _, _, hnest, _⟩ := parse_ranges_nest hparse
  exact ⟨p, hparse, hspan, fun n hn => (hnest n hn).2⟩

end MiniC
