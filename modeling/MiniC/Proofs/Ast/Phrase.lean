import MiniC.Proofs.Ast.Grammar
import MiniC.Proofs.Ast.Spelled

/-!
# Trees and the tokens they are read from

`Written` lists the words and the parts of a tree in the order in which they stand in a text, and says which of
them its range covers: most ranges cover all, but that of a declared object begins at its name and ends before
the length of an array, and no semicolon belongs to a declaration. `ReadFrom` follows this down to the tokens: a
tree is read from tokens if its words and parts are read from them one after the other, and its range goes from
the start of the first part that it covers to the stop of the last.

The parser joins ranges by `Span.extend`, which takes the smaller start and the larger stop. Where tokens stand in
order this is the start of one range and the stop of the other (`covers_extend`).
-/

set_option autoImplicit false

namespace MiniC

/-! ### Places in order -/

/-- The first place does not come after the second one in their file. -/
def Location.Precedes (a b : Location) : Prop := a.file = b.file ∧ a ≤ b

theorem Location.le_iff {a b : Location} :
    a ≤ b ↔ a.line < b.line ∨ a.line = b.line ∧ a.column ≤ b.column := Iff.rfl

theorem Location.Precedes.refl (a : Location) : a.Precedes a := ⟨rfl, .inr ⟨rfl, Nat.le_refl _⟩⟩

theorem Location.Precedes.trans {a b c : Location} (hab : a.Precedes b) (hbc : b.Precedes c) : a.Precedes c := by
  refine ⟨hab.1.trans hbc.1, ?_⟩
  have h := Location.le_iff.1 hab.2
  have h' := Location.le_iff.1 hbc.2
  rw [Location.le_iff]
  omega

/-- Tokens in order, as they stand in a file. -/
structure Token.InOrder (ts : List Token) : Prop where
  apart : ts.Pairwise fun t u => t.span.stop.Precedes u.span.start
  forward : ∀ t ∈ ts, t.span.start.Precedes t.span.stop

theorem Token.InOrder.sublist {ts us : List Token} (h : InOrder us) (hsub : ts.Sublist us) : InOrder ts :=
  ⟨h.apart.sublist hsub, fun t ht => h.forward t (hsub.subset ht)⟩

/-- The place where one of the tokens starts or stops. -/
def Token.IsEnd (ts : List Token) (l : Location) : Prop := ∃ t ∈ ts, l = t.span.start ∨ l = t.span.stop

theorem Token.IsEnd.mono {ts us : List Token} {l : Location} (h : IsEnd ts l) (hsub : ts ⊆ us) : IsEnd us l := by
  obtain ⟨t, ht, hl⟩ := h
  exact ⟨t, hsub ht, hl⟩

theorem Token.InOrder.precedes {ts us : List Token} {a b : Location} (h : InOrder (ts ++ us)) (ha : IsEnd ts a)
    (hb : IsEnd us b) : a.Precedes b := by
  obtain ⟨t, ht, ha⟩ := ha
  obtain ⟨u, hu, hb⟩ := hb
  have htu := (List.pairwise_append.mp h.apart).2.2 t ht u hu
  have hafter : a.Precedes t.span.stop := by
    obtain rfl | rfl := ha
    · exact h.forward t (List.mem_append_left _ ht)
    · exact .refl _
  have hbefore : u.span.start.Precedes b := by
    obtain rfl | rfl := hb
    · exact .refl _
    · exact h.forward u (List.mem_append_right _ hu)
  exact hafter.trans (htu.trans hbefore)

/-- The range goes from the start of the first of some ranges to the stop of the last. -/
def Span.Covers (s : Span) (spans : List Span) : Prop :=
  spans.head?.map Span.start = some s.start ∧ spans.getLast?.map Span.stop = some s.stop

/-- Another range lies within the range. -/
def Span.Encloses (s t : Span) : Prop := s.start.Precedes t.start ∧ t.stop.Precedes s.stop

theorem Span.extend_self (s : Span) : s.extend s = s := by
  simp [Span.extend]

theorem Span.extend_eq {s t : Span} (hstart : s.start.Precedes t.start) (hstop : s.stop.Precedes t.stop) :
    s.extend t = ⟨s.start, t.stop⟩ := by
  unfold Span.extend
  rw [if_pos hstart.2]
  split
  next hback =>
    obtain ⟨hfile, hle⟩ := hstop
    rw [Location.le_iff] at hle hback
    have heq : s.stop = t.stop := by
      cases hs : s.stop
      cases ht : t.stop
      simp only [hs, ht, Location.mk.injEq] at hfile hle hback ⊢
      exact ⟨hfile, by omega, by omega⟩
    rw [heq]
  next => rfl

open Ast in
/-- A token whose constant and name are in the lexicon. -/
structure Token.Spelled (L : Lexicon) (t : Token) : Prop where
  constant : ∀ v, Parser.literal? t.kind = some v → L.constants v
  name : ∀ name, t.kind = .identifier name → L.names name

namespace Ast

/-! ### Trees -/

/-- A tree that has a range. -/
inductive Node where
  | expr (e : Expr)
  | initializer (i : Initializer)
  | declaration (d : Declaration)
  | stmt (s : Stmt)
  | parameter (p : Parameter)
  | function (f : Function)
  | program (p : Program)

def Node.span : Node → Span
  | expr e => e.span
  | initializer i => i.span
  | declaration d => d.span
  | stmt s => s.span
  | parameter p => p.span
  | function f => f.span
  | program p => p.span

/-- The expressions right below an expression. -/
def Expr.operands : Expr → List Expr
  | literal _ _ | name _ _ => []
  | unary _ e _ | cast _ e _ => [e]
  | binary _ l r _ | assign _ l r _ | index l r _ => [l, r]
  | call _ args _ => args

/-- The trees of an item. A list of declarations has no range of its own. -/
def Item.nodes : Item → List Node
  | function f => [.function f]
  | declare ds => ds.map .declaration

/-- The trees right below a tree. -/
def Node.children : Node → List Node
  | expr e => e.operands.map expr
  | initializer (.expr e) => [expr e]
  | initializer (.list items _) => items.map initializer
  | declaration d => d.init.toList.map initializer
  | stmt (.expr e _) | stmt (.print e _) => [expr e]
  | stmt (.block body _) => body.map stmt
  | stmt (.declare ds _) => ds.map declaration
  | stmt (.cond c t e _) => expr c :: stmt t :: e.toList.map stmt
  | stmt (.whileLoop c b _) => [expr c, stmt b]
  | stmt (.forLoop i c u b _) => i.toList.map stmt ++ c.toList.map expr ++ u.toList.map expr ++ [stmt b]
  | stmt (.ret v _) => v.toList.map expr
  | stmt (.empty _) | parameter _ => []
  | function f => f.parameters.map parameter ++ f.body.toList.map stmt
  | program p => p.items.flatMap Item.nodes

/-! ### How trees are written -/

/-- What stands in a text: a word, or what a tree is written as. -/
inductive Part where
  | word (k : TokenKind)
  | node (n : Node)

/-- An operator or delimiter. -/
abbrev Part.punct (p : Punct) : Part := .word (.punct p)

abbrev Part.keyword (w : Keyword) : Part := .word (.keyword w)

abbrev Part.name (n : String) : Part := .word (.identifier n)

abbrev Part.expr (e : Expr) : Part := .node (.expr e)

abbrev Part.stmt (s : Stmt) : Part := .node (.stmt s)

/-- Trees with commas between them; one may follow the last. -/
inductive Commas : List Node → List Part → Prop
  | nil : Commas [] []
  | last (n : Node) : Commas [n] [.node n]
  | more {n : Node} {ns : List Node} {parts : List Part} (h : Commas ns parts) :
    Commas (n :: ns) (.node n :: .punct .comma :: parts)

/-- What stands before the name of an object. Its range begins there if the type does, too. -/
inductive Lead : List Part → List Part → Prop
  | stars (depth : Nat) : Lead (List.replicate depth (.punct .star)) []
  | type (w : Keyword) (depth : Nat) : Lead [] (.keyword w :: List.replicate depth (.punct .star))

/-- The length of an array in brackets, or nothing. -/
inductive Length : List Part → Prop
  | none : Length []
  | empty : Length [.punct .leftBracket, .punct .rightBracket]
  | some (k : Int64) : Length [.punct .leftBracket, .word (.intLit k), .punct .rightBracket]

/-- The words and trees of a declaration list or a function at the top level. -/
inductive Item.Written : Item → List Part → Prop
  | function (f : Function) : Written (.function f) [.node (.function f)]
  | declare {ds : List Declaration} {parts : List Part} (h : Commas (ds.map .declaration) parts) :
    Written (.declare ds) (parts ++ [.punct .semicolon])

/-- The words and trees that a tree is written as: those before its range, those that it covers, and those after
it. -/
inductive Written : Node → List Part → List Part → List Part → Prop
  | literal {k : TokenKind} {v : Value} {s : Span} (h : Grammar.Literal k v) :
    Written (.expr (.literal v s)) [] [.word k] []
  | name {n : String} {s : Span} : Written (.expr (.name n s)) [] [.name n] []
  | binary {l : Nat} {p : Punct} {op : BinaryOp} {left right : Expr} {s : Span} (h : (p, op) ∈ Grammar.operators l) :
    Written (.expr (.binary op left right s)) [] [.expr left, .punct p, .expr right] []
  | sign {p : Punct} {op : UnaryOp} {e : Expr} {s : Span} (h : (p, op) ∈ Grammar.signs) :
    Written (.expr (.unary op e s)) [] [.punct p, .expr e] []
  | step {p : Punct} {op : UnaryOp} {e : Expr} {s : Span} (h : (p, op) ∈ Grammar.steps) :
    Written (.expr (.unary op e s)) [] [.expr e, .punct p] []
  | assign {p : Punct} {op : AssignOp} {t v : Expr} {s : Span} (h : (p, op) ∈ Grammar.assignments) :
    Written (.expr (.assign op t v s)) [] [.expr t, .punct p, .expr v] []
  | call {f : String} {args : List Expr} {s : Span} {parts : List Part} (h : Commas (args.map .expr) parts) :
    Written (.expr (.call f args s)) [] (.name f :: .punct .leftParen :: (parts ++ [.punct .rightParen])) []
  | index {a i : Expr} {s : Span} :
    Written (.expr (.index a i s)) [] [.expr a, .punct .leftBracket, .expr i, .punct .rightBracket] []
  | cast {w : Keyword} {base : BaseType} {depth : Nat} {e : Expr} {s : Span} (h : (w, base) ∈ Grammar.typeWords) :
    Written (.expr (.cast ⟨base, depth, none⟩ e s)) []
      (.punct .leftParen :: .keyword w :: (List.replicate depth (.punct .star) ++ [.punct .rightParen] ++ [.expr e])) []
  /-- Parentheses leave no tree, but the range of what they enclose is theirs. -/
  | parenthesized {e inner : Expr} {s : Span} (h : e = inner.withSpan s) :
    Written (.expr e) [] [.punct .leftParen, .expr inner, .punct .rightParen] []
  | value {e : Expr} : Written (.initializer (.expr e)) [] [.expr e] []
  | list {items : List Initializer} {s : Span} {parts : List Part} (h : Commas (items.map .initializer) parts) :
    Written (.initializer (.list items s)) [] (.punct .leftBrace :: (parts ++ [.punct .rightBrace])) []
  | declared {n : String} {type : TypeName} {s : Span} {before lead length : List Part} (h : Lead before lead)
    (hlength : Length length) : Written (.declaration ⟨n, type, none, s⟩) before (lead ++ [.name n]) length
  | initialized {n : String} {type : TypeName} {i : Initializer} {s : Span} {before lead length : List Part}
    (h : Lead before lead) (hlength : Length length) :
    Written (.declaration ⟨n, type, some i, s⟩) before
      (lead ++ .name n :: (length ++ [.punct .equal, .node (.initializer i)])) []
  | exprStmt {e : Expr} {s : Span} : Written (.stmt (.expr e s)) [] [.expr e, .punct .semicolon] []
  | block {body : List Stmt} {s : Span} :
    Written (.stmt (.block body s)) [] (.punct .leftBrace :: (body.map .stmt ++ [.punct .rightBrace])) []
  | declare {w : Keyword} {ds : List Declaration} {s : Span} {parts : List Part}
    (h : Commas (ds.map .declaration) parts) :
    Written (.stmt (.declare ds s)) [] (.keyword w :: parts) [.punct .semicolon]
  | print {e : Expr} {s : Span} : Written (.stmt (.print e s)) [] [.keyword .print, .expr e, .punct .semicolon] []
  | ifThen {c : Expr} {t : Stmt} {s : Span} :
    Written (.stmt (.cond c t none s)) []
      [.keyword .if_, .punct .leftParen, .expr c, .punct .rightParen, .stmt t] []
  | ifElse {c : Expr} {t e : Stmt} {s : Span} :
    Written (.stmt (.cond c t (some e) s)) []
      [.keyword .if_, .punct .leftParen, .expr c, .punct .rightParen, .stmt t, .keyword .else_, .stmt e] []
  | whileLoop {c : Expr} {b : Stmt} {s : Span} :
    Written (.stmt (.whileLoop c b s)) []
      [.keyword .while_, .punct .leftParen, .expr c, .punct .rightParen, .stmt b] []
  /-- The first clause brings its own semicolon. -/
  | forLoop {i : Option Stmt} {c u : Option Expr} {b : Stmt} {s : Span} :
    Written (.stmt (.forLoop i c u b s)) []
      (.keyword .for_ :: .punct .leftParen :: ((i.map .stmt).getD (.punct .semicolon) :: (c.toList.map .expr ++
        .punct .semicolon :: (u.toList.map .expr ++ [.punct .rightParen, .stmt b])))) []
  | ret {v : Option Expr} {s : Span} :
    Written (.stmt (.ret v s)) [] (.keyword .return_ :: (v.toList.map .expr ++ [.punct .semicolon])) []
  | empty {s : Span} : Written (.stmt (.empty s)) [] [.punct .semicolon] []
  | parameter {w : Keyword} {depth : Nat} {p : Parameter} {length : List Part} (h : p.type.arrayLength = none)
    (hlength : Length length) :
    Written (.parameter p) [] (.keyword w :: (List.replicate depth (.punct .star) ++ [.name p.name])) length
  /-- `void` alone stands for no parameters. -/
  | function {w : Keyword} {depth : Nat} {f : Function} {void : List Part} {parts : List Part}
    (hvoid : void = [] ∨ void = [.keyword .void]) (h : Commas (f.parameters.map .parameter) parts) :
    Written (.function f) []
      (.keyword w :: (List.replicate depth (.punct .star) ++ .name f.name :: .punct .leftParen ::
        (void ++ parts ++ [.punct .rightParen])) ++ [(f.body.map .stmt).getD (.punct .semicolon)]) []
  | program {items : List Item} {s : Span} {parts : List (List Part)} (h : List.Forall₂ Item.Written items parts) :
    Written (.program ⟨items, s⟩) [] (parts.flatten ++ [.word .endOfFile]) []

/-! ### What trees are read from -/

/-- Tokens that a part is read from, and its range. -/
structure Piece where
  tokens : List Token
  span : Span

/-- A word is read from a token, a tree from those of its parts. If these are in order, the range of the tree goes
from the first part that it covers to the last. -/
inductive ReadFrom : Part → Piece → Prop
  | word (t : Token) : ReadFrom (.word t.kind) ⟨[t], t.span⟩
  | node {n : Node} {before within after : List Part} {ps qs rs : List Piece} (h : Written n before within after)
    (hb : List.Forall₂ ReadFrom before ps) (hw : List.Forall₂ ReadFrom within qs) (ha : List.Forall₂ ReadFrom after rs)
    (hspan : Token.InOrder ((ps ++ qs ++ rs).flatMap Piece.tokens) → n.span.Covers (qs.map Piece.span)) :
    ReadFrom (.node n) ⟨(ps ++ qs ++ rs).flatMap Piece.tokens, n.span⟩

/-- The tree is read from the tokens. -/
abbrev Node.Read (n : Node) (ts : List Token) : Prop := ReadFrom (.node n) ⟨ts, n.span⟩

/-- The ends of a range are ends of the tokens it stands for, in order if these are. -/
def Piece.Fits (p : Piece) : Prop :=
  Token.InOrder p.tokens →
    Token.IsEnd p.tokens p.span.start ∧ Token.IsEnd p.tokens p.span.stop ∧ p.span.start.Precedes p.span.stop

theorem Piece.sublist_of_mem {p : Piece} {ps : List Piece} (hp : p ∈ ps) :
    p.tokens.Sublist (ps.flatMap Piece.tokens) :=
  List.sublist_flatten_of_mem (List.mem_map_of_mem hp)

section Covers

variable {s : Span} {ps : List Piece} {p : Piece}

theorem Piece.Fits.isEnd (h : p.Fits) (hp : p ∈ ps) (ho : Token.InOrder (ps.flatMap Piece.tokens)) :
    Token.IsEnd (ps.flatMap Piece.tokens) p.span.start ∧ Token.IsEnd (ps.flatMap Piece.tokens) p.span.stop := by
  have hsub := Piece.sublist_of_mem hp
  obtain ⟨hstart, hstop, -⟩ := h (ho.sublist hsub)
  exact ⟨hstart.mono hsub.subset, hstop.mono hsub.subset⟩

variable (hs : s.Covers (ps.map Piece.span)) (hfits : ∀ p ∈ ps, p.Fits)
  (ho : Token.InOrder (ps.flatMap Piece.tokens))
include hs hfits ho

theorem covers_isEnd :
    Token.IsEnd (ps.flatMap Piece.tokens) s.start ∧ Token.IsEnd (ps.flatMap Piece.tokens) s.stop := by
  obtain ⟨hstart, hstop⟩ := hs
  simp only [List.head?_map, List.getLast?_map, Option.map_map, Option.map_eq_some_iff] at hstart hstop
  obtain ⟨p, hp, hpstart⟩ := hstart
  obtain ⟨q, hq, hqstop⟩ := hstop
  rw [← hpstart, ← hqstop]
  have hp := List.mem_of_head? hp
  have hq := List.mem_of_getLast? hq
  exact ⟨((hfits p hp).isEnd hp ho).1, ((hfits q hq).isEnd hq ho).2⟩

/-- A range from the first of some parts to the last encloses them all. -/
theorem covers_encloses (hp : p ∈ ps) : s.Encloses p.span := by
  obtain ⟨hstart, hstop⟩ := hs
  constructor
  · cases ps with
    | nil => cases hp
    | cons q qs =>
      rw [← Option.some.inj hstart]
      obtain rfl | hp := List.mem_cons.mp hp
      · exact .refl _
      · have hq := hfits q List.mem_cons_self (ho.sublist (List.sublist_append_left _ _))
        have hrest := (hfits p (List.mem_cons_of_mem _ hp)).isEnd hp (ho.sublist (List.sublist_append_right _ _))
        exact Token.InOrder.precedes ho hq.1 hrest.1
  · obtain rfl | ⟨qs, q, rfl⟩ := List.eq_nil_or_concat' ps
    · cases hp
    · rw [List.map_append, List.map_singleton, List.getLast?_concat] at hstop
      rw [← Option.some.inj hstop]
      rw [List.flatMap_append, List.flatMap_singleton] at ho
      obtain hp | hp := List.mem_append.mp hp
      · have hq := hfits q (by simp) (ho.sublist (List.sublist_append_right _ _))
        have hrest := (hfits p (by simp [hp])).isEnd hp (ho.sublist (List.sublist_append_left _ _))
        exact ho.precedes hrest.2 hq.2.1
      · rw [List.mem_singleton.mp hp]
        exact .refl _

end Covers

theorem ReadFrom.fits {part : Part} {p : Piece} (h : ReadFrom part p) : p.Fits := by
  refine @ReadFrom.rec (fun _ p _ => p.Fits) (fun _ ps _ => ∀ p ∈ ps, p.Fits) ?_ ?_ (by simp)
    (fun _ _ hp hps => List.forall_mem_cons.mpr ⟨hp, hps⟩) part p h
  · intro t ho
    exact ⟨⟨t, by simp, .inl rfl⟩, ⟨t, by simp, .inr rfl⟩, ho.forward t (by simp)⟩
  · intro n before within after ps qs rs _ _ _ _ hspan _ hfits _ ho
    have hcovers := hspan ho
    have hsub : (qs.flatMap Piece.tokens).Sublist ((ps ++ qs ++ rs).flatMap Piece.tokens) :=
      List.Sublist.flatMap (List.sublist_append_of_sublist_left (List.sublist_append_right _ _)) _
    have hqs := ho.sublist hsub
    obtain ⟨hstart, hstop⟩ := covers_isEnd hcovers hfits hqs
    refine ⟨hstart.mono hsub.subset, hstop.mono hsub.subset, ?_⟩
    cases qs with
    | nil => cases hcovers.1
    | cons q qs =>
      have hq := List.mem_cons_self (a := q) (l := qs)
      obtain ⟨hbefore, hafter⟩ := covers_encloses hcovers hfits hqs hq
      exact hbefore.trans ((hfits q hq (hqs.sublist (Piece.sublist_of_mem hq))).2.2.trans hafter)

theorem ReadFrom.ne_nil {part : Part} {p : Piece} (h : ReadFrom part p) : p.tokens ≠ [] := by
  refine @ReadFrom.rec (fun _ p _ => p.tokens ≠ []) (fun parts ps _ => parts ≠ [] → ps.flatMap Piece.tokens ≠ [])
    (by simp) ?_ (by simp) (fun _ _ hp _ _ => by simp [hp]) part p h
  intro n before within after ps qs rs hwritten _ _ _ _ _ hqs _ hnil
  have hwithin : within ≠ [] := by cases hwritten <;> simp
  simp only [List.flatMap_append, List.append_eq_nil_iff] at hnil
  exact hqs hwithin hnil.1.2

theorem fits_of_forall₂ {parts : List Part} {ps : List Piece} (h : List.Forall₂ ReadFrom parts ps) :
    ∀ p ∈ ps, p.Fits := by
  induction h with
  | nil => simp
  | cons h _ ih => exact List.forall_mem_cons.mpr ⟨h.fits, ih⟩

/-! ### Reading part after part -/

/-- The parts are read from the tokens one after the other. -/
def ReadAll (parts : List Part) (ts : List Token) : Prop :=
  ∃ ps, List.Forall₂ ReadFrom parts ps ∧ ts = ps.flatMap Piece.tokens

/-- So are they here, and the range begins with the first of them and ends within the tokens. -/
def Begun (parts : List Part) (ts : List Token) (s : Span) : Prop :=
  ∃ ps, List.Forall₂ ReadFrom parts ps ∧ ts = ps.flatMap Piece.tokens ∧
    (Token.InOrder ts → ps.head?.map (·.span.start) = some s.start ∧ Token.IsEnd ts s.stop)

/-- So are they here, and the range goes from the first of them to the last. -/
def Covered (parts : List Part) (ts : List Token) (s : Span) : Prop :=
  ∃ ps, List.Forall₂ ReadFrom parts ps ∧ ts = ps.flatMap Piece.tokens ∧
    (Token.InOrder ts → s.Covers (ps.map Piece.span))

section Reading

variable {parts qs : List Part} {part : Part} {ts us : List Token} {s : Span}

theorem readAll_nil : ReadAll [] [] := ⟨[], .nil, rfl⟩

theorem ReadAll.eq_nil (h : ReadAll parts []) : parts = [] := by
  obtain ⟨ps, hps, hts⟩ := h
  cases hps with
  | nil => rfl
  | cons hp _ => exact absurd (List.append_eq_nil_iff.mp hts.symm).1 hp.ne_nil

theorem ReadAll.append (hp : ReadAll parts ts) (hq : ReadAll qs us) : ReadAll (parts ++ qs) (ts ++ us) := by
  obtain ⟨ps', hps, rfl⟩ := hp
  obtain ⟨qs', hqs, rfl⟩ := hq
  exact ⟨ps' ++ qs', List.rel_append hps hqs, by rw [List.flatMap_append]⟩

theorem Begun.readAll (h : Begun parts ts s) : ReadAll parts ts := by
  obtain ⟨ps, hps, hts, -⟩ := h
  exact ⟨ps, hps, hts⟩

theorem Covered.begun (h : Covered parts ts s) : Begun parts ts s := by
  obtain ⟨ps, hps, rfl, hs⟩ := h
  refine ⟨ps, hps, rfl, fun ho => ⟨?_, (covers_isEnd (hs ho) (fits_of_forall₂ hps) ho).2⟩⟩
  rw [← (hs ho).1, List.head?_map, Option.map_map]
  rfl

theorem ReadFrom.covered (h : ReadFrom part ⟨ts, s⟩) : Covered [part] ts s :=
  ⟨[⟨ts, s⟩], .cons h .nil, by simp, fun _ => ⟨rfl, rfl⟩⟩

theorem ReadFrom.begun (h : ReadFrom part ⟨ts, s⟩) : Begun [part] ts s := h.covered.begun

theorem ReadFrom.cons (h : ReadFrom part ⟨ts, s⟩) (hall : ReadAll parts us) : ReadAll (part :: parts) (ts ++ us) :=
  h.begun.readAll.append hall

theorem readFrom_word {t : Token} {k : TokenKind} (h : t.kind = k) : ReadFrom (.word k) ⟨[t], t.span⟩ := by
  subst h
  exact .word t

theorem readAll_word {t : Token} {k : TokenKind} (h : t.kind = k) : ReadAll [.word k] [t] :=
  (readFrom_word h).begun.readAll

theorem readAll_words {depth : Nat} {k : TokenKind} (h : ts.map Token.kind = List.replicate depth k) :
    ReadAll (List.replicate depth (.word k)) ts := by
  induction depth generalizing ts with
  | zero =>
    obtain rfl := List.map_eq_nil_iff.mp h
    exact readAll_nil
  | succ depth ih =>
    obtain ⟨t, ts, rfl, ht, hts⟩ := List.map_eq_cons_iff.mp h
    exact (readFrom_word ht).cons (ih hts)

/-- A range that is extended to one further on covers all up to it. -/
theorem Begun.extend {lead mid : List Part} {last : Part} {ls ms : List Token} {t : Span} (hl : Begun lead ls s)
    (hm : ReadAll mid ms) (ht : ReadFrom last ⟨ts, t⟩) :
    Covered (lead ++ (mid ++ [last])) (ls ++ (ms ++ ts)) (s.extend t) := by
  obtain ⟨ps, hps, rfl, hs⟩ := hl
  obtain ⟨qs, hqs, rfl⟩ := hm
  refine ⟨ps ++ (qs ++ [⟨ts, t⟩]), List.rel_append hps (List.rel_append hqs (.cons ht .nil)), by simp, fun ho => ?_⟩
  have hps' := ho.sublist (List.sublist_append_left _ _)
  obtain ⟨hfirst, hstop⟩ := hs hps'
  cases ps with
  | nil => cases hfirst
  | cons p ps =>
    have hstart := ((fits_of_forall₂ hps p List.mem_cons_self).isEnd List.mem_cons_self hps').1
    have hsame : p.span.start = s.start := Option.some.inj hfirst
    rw [hsame] at hstart
    obtain ⟨hstart', hstop', -⟩ := ht.fits
      (ho.sublist (List.sublist_append_of_sublist_right (List.sublist_append_right _ _)))
    have hsub : ts ⊆ qs.flatMap Piece.tokens ++ ts := List.subset_append_right _ _
    rw [Span.extend_eq (ho.precedes hstart (hstart'.mono hsub)) (ho.precedes hstop (hstop'.mono hsub))]
    refine ⟨hfirst, ?_⟩
    rw [← List.append_assoc, List.map_append, List.map_singleton, List.getLast?_concat]
    rfl

theorem Covered.read {n : Node} {before after : List Part} {bs as : List Token} (hl : Covered parts ts n.span)
    (h : Written n before parts after) (hb : ReadAll before bs) (ha : ReadAll after as) :
    n.Read (bs ++ ts ++ as) := by
  obtain ⟨ps, hps, rfl, hs⟩ := hl
  obtain ⟨bs, hbs, rfl⟩ := hb
  obtain ⟨as, has, rfl⟩ := ha
  have hread := ReadFrom.node h hbs hps has fun ho => hs (ho.sublist (by simp))
  rwa [List.flatMap_append, List.flatMap_append] at hread

theorem Covered.readWhole {n : Node} (hl : Covered parts ts n.span) (h : Written n [] parts []) : n.Read ts := by
  have hread := hl.read h readAll_nil readAll_nil
  rwa [List.nil_append, List.append_nil] at hread

end Reading

theorem ReadFrom.eq_of_word {k : TokenKind} {p : Piece} (h : ReadFrom (.word k) p) :
    ∃ t : Token, t.kind = k ∧ p = ⟨[t], t.span⟩ := by
  generalize hpart : Part.word k = part at h
  cases h with
  | word t =>
    cases hpart
    exact ⟨t, rfl, rfl⟩
  | node => cases hpart

/-- A function or a declared object begins with its first token, unless this is a star. -/
theorem Written.first {n : Node} {before within after : List Part} (h : Written n before within after)
    (hn : (∃ f, n = .function f) ∨ ∃ d, n = .declaration d) :
    (before = [] ∨ ∃ others, before = .punct .star :: others) ∧ ∃ k others, within = .word k :: others := by
  have hlead : ∀ {before lead : List Part} {name : String} (others : List Part), Lead before lead →
      (before = [] ∨ ∃ others, before = .punct .star :: others) ∧ ∃ k ps, lead ++ .name name :: others = .word k :: ps := by
    rintro _ _ name others (⟨_ | depth⟩ | ⟨w, depth⟩)
    · exact ⟨.inl rfl, _, _, rfl⟩
    · exact ⟨.inr ⟨_, rfl⟩, _, _, rfl⟩
    · exact ⟨.inl rfl, _, _, rfl⟩
  obtain ⟨f, rfl⟩ | ⟨d, rfl⟩ := hn
  · cases h
    exact ⟨.inl rfl, _, _, rfl⟩
  · cases h with
    | declared h _ => exact hlead _ h
    | initialized h _ => exact hlead _ h

theorem ReadFrom.start {n : Node} {p : Piece} (h : ReadFrom (.node n) p)
    (hn : (∃ f, n = .function f) ∨ ∃ d, n = .declaration d) {t : Token} {ts : List Token} (hts : p.tokens = t :: ts)
    (ht : t.kind ≠ .punct .star) (ho : Token.InOrder p.tokens) : p.span.start = t.span.start := by
  cases h with
  | node hwritten hb hw _ hspan =>
    obtain ⟨rfl | ⟨others, rfl⟩, k, parts, rfl⟩ := hwritten.first hn
    · obtain rfl := List.forall₂_nil_left_iff.mp hb
      obtain ⟨q, qs, hq, -, rfl⟩ := List.forall₂_cons_left_iff.mp hw
      obtain ⟨u, -, rfl⟩ := hq.eq_of_word
      obtain rfl : u = t := (List.cons.inj hts).1
      exact (Option.some.inj (hspan ho).1).symm
    · obtain ⟨q, qs, hq, -, rfl⟩ := List.forall₂_cons_left_iff.mp hb
      obtain ⟨u, hu, rfl⟩ := hq.eq_of_word
      obtain rfl : u = t := (List.cons.inj hts).1
      exact absurd hu ht

theorem Item.Written.first {item : Item} {parts : List Part} (h : item.Written parts) :
    ∃ part others, parts = part :: others ∧
      ((∃ k, part = .word k) ∨ ∃ n, part = .node n ∧ ((∃ f, n = .function f) ∨ ∃ d, n = .declaration d)) := by
  cases h with
  | function f => exact ⟨_, _, rfl, .inr ⟨_, rfl, .inl ⟨f, rfl⟩⟩⟩
  | @declare ds parts h =>
    cases ds with
    | nil =>
      cases h
      exact ⟨_, _, rfl, .inl ⟨_, rfl⟩⟩
    | cons d ds =>
      generalize hns : List.map Node.declaration (d :: ds) = ns at h
      cases h with
      | nil => cases hns
      | last n => exact ⟨_, _, rfl, .inr ⟨n, rfl, .inr ⟨d, (List.cons.inj hns).1.symm⟩⟩⟩
      | more h => exact ⟨_, _, rfl, .inr ⟨_, rfl, .inr ⟨d, (List.cons.inj hns).1.symm⟩⟩⟩

/-- Items begin with their first token, unless this is a star. -/
theorem begun_items {items : List Item} {parts : List (List Part)} (h : List.Forall₂ Item.Written items parts)
    {t : Token} {ts : List Token} (hread : ReadAll parts.flatten (t :: ts)) (ht : t.kind ≠ .punct .star) :
    Begun parts.flatten (t :: ts) t.span := by
  obtain ⟨ps, hps, hts⟩ := hread
  refine ⟨ps, hps, hts, fun ho => ⟨?_, ⟨t, List.mem_cons_self, .inr rfl⟩⟩⟩
  cases h with
  | nil =>
    obtain rfl := List.forall₂_nil_left_iff.mp hps
    cases hts
  | cons hitem _ =>
    obtain ⟨part, others, rfl, hpart⟩ := hitem.first
    obtain ⟨p, ps, hp, -, rfl⟩ := List.forall₂_cons_left_iff.mp hps
    obtain ⟨u, us, hus⟩ := List.exists_cons_of_ne_nil hp.ne_nil
    have hsub : p.tokens.Sublist (t :: ts) := hts ▸ Piece.sublist_of_mem List.mem_cons_self
    rw [List.flatMap_cons, hus] at hts
    obtain rfl : t = u := (List.cons.inj hts).1
    refine congrArg some ?_
    obtain ⟨k, rfl⟩ | ⟨n, rfl, hn⟩ := hpart
    · obtain ⟨v, -, rfl⟩ := hp.eq_of_word
      obtain rfl : v = t := (List.cons.inj hus).1
      rfl
    · exact hp.start hn hus ht (ho.sublist hsub)

/-! ### Words of a lexicon -/

def Node.Spelled (L : Lexicon) : Node → Prop
  | expr e => e.Spelled L
  | initializer i => i.Spelled L
  | declaration d => d.Spelled L
  | stmt s => s.Spelled L
  | parameter p => p.Spelled L
  | function f => f.Spelled L
  | program p => p.Spelled L

def Part.Spelled (L : Lexicon) : Part → Prop
  | word k => (∀ v, Parser.literal? k = some v → L.constants v) ∧ ∀ name, k = .identifier name → L.names name
  | node n => n.Spelled L

section Lexicon

variable {L : Lexicon}

theorem Commas.spelled {ns : List Node} {parts : List Part} (h : Commas ns parts) (hparts : ∀ p ∈ parts, p.Spelled L) :
    ∀ n ∈ ns, n.Spelled L := by
  induction h with
  | nil => simp
  | last n => simpa [Part.Spelled] using hparts
  | more _ ih =>
    simp only [List.forall_mem_cons] at hparts ⊢
    exact ⟨hparts.1, ih hparts.2.2⟩

theorem exists_of_forall₂ {α β : Type} {R : α → β → Prop} {as : List α} {bs : List β} (h : List.Forall₂ R as bs)
    {a : α} (ha : a ∈ as) : ∃ b ∈ bs, R a b := by
  induction h with
  | nil => cases ha
  | cons hab _ ih =>
    obtain rfl | ha := List.mem_cons.mp ha
    · exact ⟨_, List.mem_cons_self, hab⟩
    · obtain ⟨b, hb, hR⟩ := ih ha
      exact ⟨b, List.mem_cons_of_mem _ hb, hR⟩

theorem Written.spelled {n : Node} {before within after : List Part} (h : Written n before within after)
    (hw : ∀ p ∈ within, p.Spelled L) : n.Spelled L := by
  have hname : ∀ name, Part.name name ∈ within → L.names name := fun name hp =>
    (hw _ hp).2 name rfl
  have hlist : ∀ {α : Type} {f : α → Node} {as : List α} {parts : List Part}, Commas (as.map f) parts →
      parts ⊆ within → ∀ a ∈ as, (f a).Spelled L :=
    fun h hsub => List.forall_mem_map.mp (h.spelled fun p hp => hw p (hsub hp))
  have hnode : ∀ n, Part.node n ∈ within → n.Spelled L := fun n hp => hw _ hp
  cases h with
  | literal h => exact .literal ((hw (.word _) (by simp)).1 _ (Grammar.literal?_eq_some_iff.2 h))
  | name => exact .name
  | binary => exact .binary (hnode (.expr _) (by simp)) (hnode (.expr _) (by simp))
  | sign | step => exact .unary (hnode (.expr _) (by simp))
  | assign => exact .assign (hnode (.expr _) (by simp)) (hnode (.expr _) (by simp))
  | call h => exact .call (hlist h fun p hp => by simp [hp])
  | index => exact .index (hnode (.expr _) (by simp)) (hnode (.expr _) (by simp))
  | cast => exact .cast (hnode (.expr _) (by simp))
  | parenthesized h =>
    subst h
    exact Expr.Spelled.withSpan (hnode (.expr _) (by simp)) _
  | value => exact .expr (hnode (.expr _) (by simp))
  | list h => exact .list (hlist h fun p hp => by simp [hp])
  | declared => exact ⟨hname _ (by simp), by simp⟩
  | initialized => exact ⟨hname _ (by simp), fun _ hi => by cases hi; exact hnode (.initializer _) (by simp)⟩
  | exprStmt => exact .expr (hnode (.expr _) (by simp))
  | block => exact .block fun s hs => hnode (.stmt s) (by simp [hs])
  | declare h => exact .declare (hlist h fun p hp => by simp [hp])
  | print => exact .print (hnode (.expr _) (by simp))
  | ifThen => exact .cond (hnode (.expr _) (by simp)) (hnode (.stmt _) (by simp)) (by simp)
  | ifElse =>
    refine .cond (hnode (.expr _) (by simp)) (hnode (.stmt _) (by simp)) ?_
    rintro _ ⟨⟩
    exact hnode (.stmt _) (by simp)
  | whileLoop => exact .whileLoop (hnode (.expr _) (by simp)) (hnode (.stmt _) (by simp))
  | forLoop =>
    refine .forLoop ?_ ?_ ?_ (hnode (.stmt _) (by simp))
    · rintro s rfl
      exact hnode (.stmt s) (by simp)
    · rintro e rfl
      exact hnode (.expr e) (by simp)
    · rintro e rfl
      exact hnode (.expr e) (by simp)
  | ret =>
    refine .ret ?_
    rintro e rfl
    exact hnode (.expr e) (by simp)
  | empty => exact .empty
  | parameter h => exact ⟨hname _ (by simp), h⟩
  | function hvoid h =>
    refine ⟨hname _ (by simp), hlist h fun p hp => by simp [hp], fun s hs => hnode (.stmt s) ?_⟩
    rw [Option.mem_def.mp hs]
    simp
  | program h =>
    refine fun item hitem => ?_
    obtain ⟨parts, hparts, hwritten⟩ := exists_of_forall₂ h hitem
    have hsub : ∀ p ∈ parts, p.Spelled L := fun p hp => hw p (List.mem_append_left _ (List.mem_flatten_of_mem hparts hp))
    cases hwritten with
    | function f => exact hsub _ List.mem_cons_self
    | declare h =>
      have hds := h.spelled fun p hp => hsub p (List.mem_append_left _ hp)
      exact fun d hd => hds _ (List.mem_map_of_mem hd)

theorem ReadFrom.spelled {part : Part} {p : Piece} (h : ReadFrom part p)
    (ht : ∀ t ∈ p.tokens, t.Spelled L) : part.Spelled L := by
  refine @ReadFrom.rec (fun part p _ => (∀ t ∈ p.tokens, t.Spelled L) → part.Spelled L)
    (fun parts ps _ => (∀ t ∈ ps.flatMap Piece.tokens, t.Spelled L) → ∀ part ∈ parts, part.Spelled L)
    (fun t ht => ⟨(ht t (by simp)).constant, (ht t (by simp)).name⟩) ?_ (by simp) ?_ part p h ht
  · intro n before within after ps qs rs hwritten _ _ _ _ _ ih _ ht
    refine hwritten.spelled (ih fun t h => ht t ?_)
    rw [List.flatMap_append, List.flatMap_append]
    exact List.mem_append_left _ (List.mem_append_right _ h)
  · intro part p parts ps _ _ hp hps ht
    simp only [List.flatMap_cons, List.forall_mem_append] at ht
    exact List.forall_mem_cons.mpr ⟨hp ht.1, hps ht.2⟩

end Lexicon

end Ast

end MiniC
