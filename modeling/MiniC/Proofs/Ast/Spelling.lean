import MiniC.Proofs.Ast.Climbing
import MiniC.Proofs.Ast.Written

/-!
# Written phrases are read back

`Spells` says of one rule of the grammar that it reads the tokens a phrase is written as, and stops
there if the token after them does not belong to it. For an expression, what follows must not be an
operator; for a statement that ends in an `if` without an `else`, it must not be `else`.
-/

set_option autoImplicit false

namespace MiniC

open Ast Ast.Grammar
open MiniC.Parser (Reads)

/-! ### Reading -/

namespace Parser

variable {n : Nat} {α β : Type} {p : Parser n α} {a : α} {t : Token} {ts mid rest : List Token}

theorem Reads.bounded (h : ts.length ≤ n → Reads p ts a rest) : Reads p ts a rest :=
  fun c hc => h (hc ▸ c.bounded) c hc

theorem Reads.afterProgress (hlen : ts.length ≤ n) (h : Reads p ts a rest) (otherwise : α) :
    Reads (Parser.afterProgress p otherwise) ts a rest := by
  intro c hc
  have hc' : c.tokens.length ≤ n := hc ▸ hlen
  obtain ⟨c1, hrun, hc1⟩ := h ⟨c.tokens, c.endSpan, hc'⟩ hc
  refine ⟨c1.widen, ?_, hc1⟩
  show (if h : c.tokens.length ≤ n then _ else _) = _
  rw [dif_pos hc']
  show ((p.run _).1, (p.run _).2.widen) = _
  rw [hrun]

theorem Reads.acceptYes {p : Punct} (ht : t.kind = .punct p) (ts : List Token) :
    Reads (Parser.accept p : Parser n Bool) (t :: ts) true ts :=
  .atYes ht ((Reads.advance t ts).bind (.pure true ts))

theorem Reads.acceptNo {p : Punct} (hts : (Token.next ts).isPunct p = false) :
    Reads (Parser.accept p : Parser n Bool) ts false ts :=
  .atNo hts (.pure false ts)

theorem Reads.identifier {name : String} (ht : t.kind = .identifier name) (context : String)
    (ts : List Token) :
    Reads (Parser.identifier context : Parser n (String × Span)) (t :: ts) (name, t.span) ts := by
  unfold Parser.identifier
  refine .peekCons ?_
  rw [ht]
  exact (Reads.advance t ts).bind (.pure _ ts)

end Parser

open MiniC.Parser (Spells)

/-- After phrases that each stand behind a separator comes a separator or what follows them. -/
theorem Token.next_separated {α : Type} {separator : TokenKind} {phrase : α → List TokenKind} (as : List α)
    (rest : List Token) :
    Token.next ((as.flatMap fun a => separator :: phrase a).map Token.bare ++ rest) = separator ∨
      Token.next ((as.flatMap fun a => separator :: phrase a).map Token.bare ++ rest) = Token.next rest := by
  cases as with
  | nil => exact .inr rfl
  | cons a as => exact .inl rfl

/-- Nothing that follows matters. -/
def TokenKind.Any (_ : TokenKind) : Prop := True

/-! ### Expressions -/

namespace Ast.Grammar

variable {ts : List TokenKind} {e : Expr}

theorem Primary.binary (h : Primary ts e) {l : Nat} (hl : l ≤ 11) : Binary l ts e :=
  (Binary.unary (.suffixed (.primary h))).loosen hl

theorem Primary.assignment (h : Primary ts e) : Assignment ts e := .binary (h.binary (by omega))

theorem Unary.assignment (h : Unary ts e) : Assignment ts e :=
  .binary ((Binary.unary h).loosen (by omega))

theorem exists_level (op : BinaryOp) : ∃ l, 1 ≤ l ∧ l ≤ 10 ∧ (op.punct, op) ∈ operators l := by
  cases op
  case add | sub => exact ⟨9, by omega, by omega, by decide⟩
  case mul | div | mod => exact ⟨10, by omega, by omega, by decide⟩
  case bitAnd => exact ⟨5, by omega, by omega, by decide⟩
  case bitOr => exact ⟨3, by omega, by omega, by decide⟩
  case bitXor => exact ⟨4, by omega, by omega, by decide⟩
  case leftShift | rightShift => exact ⟨8, by omega, by omega, by decide⟩
  case logicalAnd => exact ⟨2, by omega, by omega, by decide⟩
  case logicalOr => exact ⟨1, by omega, by omega, by decide⟩
  case equal | notEqual => exact ⟨6, by omega, by omega, by decide⟩
  case less | greater | lessEqual | greaterEqual => exact ⟨7, by omega, by omega, by decide⟩

theorem mem_steps {op : UnaryOp} (h : op.isAfter = true) : (op.punct, op) ∈ steps := by
  cases op
  case postIncrement | postDecrement => decide
  all_goals cases h

theorem mem_signs {op : UnaryOp} (h : op.isAfter = false) : (op.punct, op) ∈ signs := by
  cases op
  case postIncrement | postDecrement => cases h
  all_goals decide

theorem mem_assignments {op : AssignOp} {p : Punct} (h : op.punct? = some p) :
    (p, op) ∈ assignments := by
  unfold AssignOp.punct? at h
  split at h
  all_goals
    cases h <;> decide

theorem mem_typeWords (base : BaseType) : (base.keyword, base) ∈ typeWords := by
  cases base <;> decide

theorem isTypeKeyword_keyword (base : BaseType) :
    (TokenKind.keyword base.keyword).isTypeKeyword = true :=
  isTypeKeyword_iff.2 ⟨base, baseType?_eq_some_iff.2 ⟨_, rfl, mem_typeWords base⟩⟩

theorem literal_token (v : Value) : Literal v.token v := by
  cases v with
  | int v => simpa [Value.token] using Literal.int v.toInt64
  | char v => exact .char v
  | long v => exact .long v
  | float v => exact .float v
  | str s => exact .string s

theorem arguments_of_each {args : List Expr}
    (h : ∀ a ∈ args, Primary (a.wrap a.tokens) a.erase) (hne : args ≠ []) :
    Arguments (Expr.argumentTokens args) (args.map Expr.erase) := by
  induction args with
  | nil => exact absurd rfl hne
  | cons a as ih =>
    have ha := (h a List.mem_cons_self).assignment
    cases as with
    | nil => exact .last ha
    | cons b bs => exact .more ha (ih (fun c hc => h c (.tail a hc)) (by simp))

end Ast.Grammar

namespace Ast

/-- An expression that is written out is derived, by itself and as an operand. -/
theorem Expr.Concrete.derives {e : Expr} (h : e.Concrete) :
    Assignment e.tokens e.erase ∧ Primary (e.wrap e.tokens) e.erase := by
  -- A form that is not primary stands in parentheses as an operand.
  have wrapped : ∀ {e : Expr}, e.isPrimary = false → Assignment e.tokens e.erase →
      Assignment e.tokens e.erase ∧ Primary (e.wrap e.tokens) e.erase := by
    intro e hprimary h
    refine ⟨h, ?_⟩
    rw [Expr.wrap, hprimary]
    exact .parenthesized h
  induction h with
  | literal v span =>
    have h : Primary [v.token] (.literal v .unknown) := .literal (literal_token v)
    exact ⟨h.assignment, h⟩
  | name n span => exact ⟨(Primary.name n).assignment, .name n⟩
  | binary op span hl hr ihl ihr =>
    obtain ⟨l, hl1, hl10, hop⟩ := exists_level op
    exact wrapped rfl (.binary ((Binary.operation (ihl.2.binary (by omega)) hop
      (ihr.2.binary (by omega))).loosen hl1))
  | @unary op e span he ih =>
    refine wrapped rfl ?_
    rw [Expr.tokens]
    split
    next hafter => exact (Unary.suffixed (.step (.primary ih.2) (mem_steps hafter))).assignment
    next hafter =>
      exact (Unary.signed (mem_signs (by simpa using hafter))
        (.suffixed (.primary ih.2))).assignment
  | @assign op t v span hop ht hv iht ihv =>
    obtain ⟨p, hp⟩ := Option.isSome_iff_exists.mp hop
    refine wrapped rfl ?_
    rw [Expr.tokens, hp]
    exact .assign (iht.2.binary (by omega)) (mem_assignments hp) ihv.2.assignment
  | @call f args span ha ih =>
    have h : Primary (Expr.call f args span).tokens (Expr.call f args span).erase := by
      rw [Expr.tokens, Expr.erase, Expr.eraseAll_eq_map]
      by_cases hargs : args = []
      · subst hargs
        exact .emptyCall f
      · exact .call (arguments_of_each (fun a ha => (ih a ha).2) hargs)
    exact ⟨h.assignment, h⟩
  | index span ha hi iha ihi =>
    exact wrapped rfl (Unary.suffixed (.index (.primary iha.2) ihi.2.assignment)).assignment
  | @cast t e span ht he ih =>
    refine wrapped rfl ?_
    obtain ⟨base, depth, length⟩ := t
    obtain rfl : length = none := ht.single
    exact (Unary.cast (mem_typeWords base) ht.depth (.suffixed (.primary ih.2))).assignment

theorem Expr.Concrete.spells {e : Expr} (h : e.Concrete) : Spells Parser.expr e.tokens e.erase EndsExpr :=
  h.derives.1.read

theorem Expr.Concrete.begins {e : Expr} (h : e.Concrete) : ∃ k us, e.tokens = k :: us ∧ Begins k :=
  h.derives.1.begins

/-! ### Initializers -/

theorem Initializer.Concrete.begins {i : Initializer} (h : i.Concrete) :
    ∃ k us, i.tokens = k :: us ∧ k.isPunct .rightBrace = false := by
  cases h with
  | expr he =>
    obtain ⟨k, us, hus, hk⟩ := he.begins
    exact ⟨k, us, hus, hk.notCloseBrace⟩
  | list span hi => exact ⟨_, _, rfl, rfl⟩

theorem Initializer.spells_items {is : List Initializer} (hc : ∀ i ∈ is, i.Concrete)
    (h : ∀ i ∈ is, Spells Parser.initializer i.tokens i.erase EndsExpr) :
    Spells Parser.initializers (Initializer.itemTokens is) (is.map Initializer.erase) (· = .punct .rightBrace) := by
  induction is with
  | nil =>
    intro n rest hrest
    obtain _ | ⟨t, rest⟩ := rest
    · cases hrest
    · rw [Parser.initializers]
      exact .atYes hrest (.pure _ _)
  | cons i is ih =>
    intro n rest hrest
    have hi := h i List.mem_cons_self
    obtain ⟨k, us, hus, hk⟩ := (hc i List.mem_cons_self).begins
    rw [Parser.initializers]
    cases is with
    | nil =>
      refine .atNo (by rw [Initializer.itemTokens, hus]; exact hk) ?_
      refine .bind (hi (hrest ▸ endsExpr_rightBrace)) ?_
      cases n with
      | zero =>
        rw [Parser.moreInitializers]
        exact .pure _ _
      | succ n =>
        rw [Parser.moreInitializers]
        exact .atNo (by rw [hrest]; rfl) (.pure _ _)
    | cons j js =>
      rw [Initializer.itemTokens, Token.bare_append]
      refine .atNo (by rw [hus]; exact hk) (.bind (hi.before endsExpr_comma) ?_)
      refine Reads.ofSucc (p := fun n => Parser.moreInitializers n i.erase) (fun n => ?_) n
      rw [Parser.moreInitializers]
      refine .atYes rfl (.take (.bind (ih ?_ ?_ hrest) (.pure _ _)))
      · exact fun j hj => hc j (.tail i hj)
      · exact fun j hj => h j (.tail i hj)

theorem Initializer.Concrete.spells {i : Initializer} (h : i.Concrete) :
    Spells Parser.initializer i.tokens i.erase EndsExpr := by
  induction h with
  | @expr e he =>
    intro n rest hrest
    have hread : ∀ n, Reads (Parser.expr n) (e.tokens.map Token.bare ++ rest) e.erase rest :=
      fun _ => he.spells hrest
    obtain ⟨k, us, hus, hk⟩ := he.begins
    rw [Initializer.tokens]
    rw [hus, Token.bare_cons] at hread ⊢
    refine Reads.ofSucc (p := Parser.initializer) (fun n => ?_) n
    rw [Parser.initializer]
    exact .atNo hk.notOpenBrace (.bind (hread _) (.pure _ _))
  | @list items span hi ih =>
    intro n rest _
    simp only [Initializer.tokens, Token.bare_cons, Token.bare_append, Token.bare_nil]
    refine Reads.ofSucc (p := Parser.initializer) (fun n => ?_) n
    rw [Parser.initializer, Initializer.erase, Initializer.eraseAll_eq_map]
    exact .atYes rfl (.take (.bind ((Initializer.spells_items hi ih).before rfl)
      (.bind (.expect rfl _ _) (.pure _ _))))

/-! ### Declarations -/

/-- What can follow a declarator. -/
def EndsDeclarator (k : TokenKind) : Prop := k = .punct .comma ∨ k = .punct .semicolon

theorem EndsDeclarator.endsExpr {k : TokenKind} (h : EndsDeclarator k) : EndsExpr k := by
  obtain rfl | rfl := h
  · exact endsExpr_comma
  · exact endsExpr_semicolon

theorem TypeName.reads_length {t : TypeName} (h : ∀ n ∈ t.arrayLength, 1 ≤ n ∧ n ≤ 0x7fffffff)
    {rest : List Token} (hrest : (Token.next rest).isPunct .leftBracket = false) (n : Nat) :
    Reads (Parser.arrayLength : Parser n (Option Nat)) (t.lengthTokens.map Token.bare ++ rest) t.arrayLength rest := by
  unfold TypeName.lengthTokens Parser.arrayLength
  cases hlength : t.arrayLength with
  | none => exact (Reads.acceptNo hrest).bind (.pure none rest)
  | some length =>
    obtain ⟨hpos, hle⟩ := h length hlength
    have hint : (Int64.ofNat length).toInt = length := Int64.toInt_ofNat_of_lt (by omega)
    refine .bind (.acceptYes rfl _) (.bind (.advance _ _) ?_)
    dsimp only
    rw [hint, if_pos (by omega), Int.toNat_natCast]
    exact .bind (.expect rfl _ _) (.pure _ _)

theorem Declaration.Concrete.spells_tail {d : Declaration} (h : d.Concrete) :
    Spells (fun n => Parser.declaratorTail n d.type.base d.type.pointerDepth d.name .unknown) d.tailTokens d.erase
      EndsDeclarator := by
  obtain ⟨name, ⟨base, depth, length⟩, init, span⟩ := d
  intro n rest hrest
  have hlength : ∀ {rest}, _ → Reads _ _ length rest :=
    fun {rest} hrest => @TypeName.reads_length ⟨base, depth, length⟩ h.length rest hrest n
  rw [Declaration.tailTokens, Token.bare_append]
  cases init with
  | none =>
    dsimp only [Token.bare_nil]
    refine .bind (hlength hrest.endsExpr.notIndex) (.bind (.acceptNo ?_) (.pure _ _))
    obtain hrest | hrest := hrest
    all_goals
      rw [hrest]
      rfl
  | some i =>
    refine .bind (hlength rfl) (.bind (.acceptYes rfl _) (.bind ((h.init i rfl).spells hrest.endsExpr) ?_))
    rw [Initializer.span_erase]
    exact .pure _ _

theorem Declaration.Concrete.spells {d : Declaration} (h : d.Concrete) :
    Spells (fun n => Parser.declarator n d.type.base) d.tokens d.erase EndsDeclarator := by
  intro n rest hrest
  rw [Declaration.tokens, Token.bare_append]
  exact .bind (Parser.reads_stars h.depth rfl n) (.bind (.identifier rfl _ _) (h.spells_tail hrest))

theorem spells_moreDeclarators {base : BaseType} {ds : List Declaration}
    (hbase : ∀ d ∈ ds, d.type.base = base) (h : ∀ d ∈ ds, d.Concrete) :
    Spells (Parser.moreDeclarators base) (ds.flatMap fun d => .punct .comma :: d.tokens)
      (ds.map Declaration.erase) (· = .punct .semicolon) := by
  induction ds with
  | nil =>
    intro n rest hrest
    cases n with
    | zero => exact .pure _ _
    | succ n => exact .atNo (by rw [List.flatMap_nil, Token.bare_nil, hrest]; rfl) (.pure _ _)
  | cons d ds ih =>
    intro n rest hrest
    specialize ih (fun e he => hbase e (.tail d he)) fun e he => h e (.tail d he)
    have hread := (h d List.mem_cons_self).spells
    rw [hbase d List.mem_cons_self] at hread
    rw [List.flatMap_cons, List.cons_append, Token.bare_cons, Token.bare_append]
    refine Reads.ofSucc (p := Parser.moreDeclarators base) (fun n => ?_) n
    refine .atYes rfl (.take (.bind (hread ?_) (.bind (ih hrest) (.pure _ _))))
    obtain hnext | hnext := Token.next_separated ds rest
    · exact .inl hnext
    · exact .inr (hnext.trans hrest)

theorem Declared.spells_further {d : Declaration} {ds : List Declaration} (h : Declared (d :: ds)) :
    Spells (fun n => Parser.declarationTail n d.type.base d.erase) (furtherTokens ds)
      ((d :: ds).map Declaration.erase) TokenKind.Any := by
  intro n rest _
  rw [furtherTokens, Token.bare_append]
  refine .bind ((spells_moreDeclarators ?_ ?_).before rfl) (.bind (.expect rfl _ _) (.pure _ _))
  · exact fun e he => h.shared e (.tail d he) d List.mem_cons_self
  · exact fun e he => h.each e (.tail d he)

/-- What comes after the first declarator, with the tokens that it is to be told from. -/
theorem endsDeclarator_further (ds : List Declaration) (rest : List Token) :
    EndsDeclarator (Token.next ((furtherTokens ds).map Token.bare ++ rest)) := by
  rw [furtherTokens, Token.bare_append]
  exact Token.next_separated ds _

theorem Declared.spells {ds : List Declaration} (h : Declared ds) :
    Spells Parser.declaration (declarationTokens ds) (ds.map Declaration.erase) TokenKind.Any := by
  cases ds with
  | nil => exact absurd rfl h.nonempty
  | cons d ds =>
    intro n rest hrest
    rw [declarationTokens, Token.bare_cons, Token.bare_append]
    refine .bind (.baseType rfl (mem_typeWords _) _) (.bind ((h.each d List.mem_cons_self).spells ?_) ?_)
    · exact endsDeclarator_further ds rest
    · exact h.spells_further hrest

/-! ### Statements -/

/-- A token that can follow a statement: an `else` would belong to an `if` that it ends in. -/
def Stmt.Ends (s : Stmt) (k : TokenKind) : Prop := s.endsOpen = true → k.isKeyword .else_ = false

/-- A token that a statement can begin with. -/
structure StartsStmt (k : TokenKind) : Prop where
  notElse : k.isKeyword .else_ = false
  notClose : (k.isPunct .rightBrace || k.isEnd) = false

theorem StartsStmt.ofBegins {k : TokenKind} (h : Begins k) : StartsStmt k where
  notElse := Bool.eq_false_iff.mpr fun hk => h.notWord _ (TokenKind.isKeyword_iff.1 hk)
  notClose := by rw [h.notCloseBrace, h.notEnd]; rfl

theorem Stmt.Concrete.begins {s : Stmt} (h : s.Concrete) :
    ∃ k us, s.tokens = k :: us ∧ StartsStmt k := by
  cases h with
  | expr span he =>
    obtain ⟨k, us, hus, hk⟩ := he.begins
    exact ⟨k, _, by rw [Stmt.tokens, hus]; rfl, .ofBegins hk⟩
  | @declare ds span hd =>
    cases ds with
    | nil => exact absurd rfl hd.nonempty
    | cons d ds => exact ⟨_, _, rfl, by cases d.type.base <;> decide, rfl⟩
  | block | print | cond | whileLoop | forLoop | ret | empty => exact ⟨_, _, rfl, rfl, rfl⟩

theorem Expr.Concrete.spells_stmt {e : Expr} (h : e.Concrete) (span : Span) :
    Spells Parser.exprStmt (Stmt.expr e span).tokens (Stmt.expr e span).erase TokenKind.Any := by
  intro n rest _
  rw [Stmt.tokens, Token.bare_append, Stmt.erase]
  refine .bind (h.spells.before endsExpr_semicolon) (.bind (.expect rfl _ _) ?_)
  rw [Expr.span_erase]
  exact .pure _ _

theorem Expr.Concrete.reads_condition {e : Expr} (h : e.Concrete) (context : String) (rest : List Token) (n : Nat) :
    Reads (Parser.condition n context)
      (.bare (.punct .leftParen) :: (e.tokens.map Token.bare ++ .bare (.punct .rightParen) :: rest)) e.erase rest :=
  .bind (.expect rfl _ _) (.bind (h.spells.before endsExpr_rightParen) (.bind (.expect rfl _ _) (.pure _ _)))

theorem spells_exprUnless {e : Option Expr} {stop : Punct} (h : ∀ x ∈ e, x.Concrete)
    (hstop : stop = .semicolon ∨ stop = .rightParen) :
    Spells (fun n => Parser.exprUnless n stop) (optionTokens e) (e.map Expr.erase) (· = .punct stop) := by
  intro n rest hrest
  cases e with
  | none =>
    obtain _ | ⟨t, rest⟩ := rest
    · cases hrest
    · exact .atYes hrest (.pure _ _)
  | some e =>
    obtain ⟨k, us, hus, hk⟩ := (h e rfl).begins
    have hnext : Token.next (e.tokens.map Token.bare ++ rest) = k := by rw [hus]; rfl
    obtain rfl | rfl := hstop
    · exact .atNo (hnext ▸ hk.notSemicolon) (.bind ((h e rfl).spells (hrest ▸ endsExpr_semicolon)) (.pure _ _))
    · exact .atNo (hnext ▸ hk.notCloseParen) (.bind ((h e rfl).spells (hrest ▸ endsExpr_rightParen)) (.pure _ _))

/-- An `else` branch, or what follows an `if` without one. -/
theorem spells_elseTail {e : Option Stmt} (h : ∀ s ∈ e, Spells Parser.stmt s.tokens s.erase s.Ends) (c : Expr)
    (t : Stmt) (span : Span) :
    Spells Parser.elseTail (Stmt.elseTokens e) (e.map Stmt.erase) (Stmt.cond c t e span).Ends := by
  intro n rest hrest
  cases e with
  | none =>
    cases n with
    | zero =>
      rw [Parser.elseTail]
      exact .pure _ _
    | succ n =>
      rw [Parser.elseTail]
      refine .peek fun t' ht' => ?_
      rw [ht', Stmt.elseTokens, Token.bare_nil, hrest rfl]
      exact .pure _ _
  | some s =>
    rw [Stmt.elseTokens, Token.bare_cons]
    refine Reads.ofSucc (p := Parser.elseTail) (fun n => ?_) n
    rw [Parser.elseTail]
    refine .peekCons ?_
    rw [if_pos (by decide)]
    exact .take (h s rfl hrest).map

theorem spells_forInit {i : Option Stmt} (hclause : ∀ s ∈ i, s.isClause) (hc : ∀ s ∈ i, s.Concrete)
    (h : ∀ s ∈ i, Spells Parser.stmt s.tokens s.erase s.Ends) :
    Spells Parser.forInit (Stmt.initTokens i) (i.map Stmt.erase) TokenKind.Any := by
  intro n rest hrest
  rw [Parser.forInit]
  cases i with
  | none => exact .bind (.acceptYes rfl _) (.pure _ _)
  | some s =>
    cases hc s rfl with
    | @expr e span he =>
      obtain ⟨k, us, hus, hk⟩ := he.begins
      have hnext : Token.next ((Stmt.expr e span).tokens.map Token.bare ++ rest) = k := by rw [Stmt.tokens, hus]; rfl
      refine .bind (.acceptNo (hnext ▸ hk.notSemicolon)) (.peek fun t' ht' => ?_)
      rw [ht', Stmt.initTokens, hnext, hk.notType]
      exact .bind (he.spells_stmt span hrest) (.pure _ _)
    | @declare ds span hd =>
      cases ds with
      | nil => exact absurd rfl hd.nonempty
      | cons d ds =>
        refine .bind (.acceptNo rfl) (.peekCons ?_)
        rw [isTypeKeyword_keyword]
        exact .bind (h _ rfl fun hopen => by cases hopen) (.pure _ _)
    | _ => exact absurd (hclause _ rfl) (by simp [Stmt.isClause])

theorem Stmt.next_body {body : List Stmt} (hc : ∀ s ∈ body, s.Concrete) (rest : List Token)
    (hrest : (Token.next rest).isKeyword .else_ = false) :
    (Token.next ((Stmt.bodyTokens body).map Token.bare ++ rest)).isKeyword .else_ = false := by
  cases body with
  | nil => exact hrest
  | cons s ss =>
    obtain ⟨k, us, hus, hk⟩ := (hc s List.mem_cons_self).begins
    rw [Stmt.bodyTokens, hus]
    exact hk.notElse

/-- The statements of a block are read if each of them is. -/
theorem Stmt.spells_body {body : List Stmt} (hc : ∀ s ∈ body, s.Concrete)
    (h : ∀ s ∈ body, Spells Parser.stmt s.tokens s.erase s.Ends) :
    Spells Parser.stmts (Stmt.bodyTokens body) (body.map Stmt.erase) (· = .punct .rightBrace) := by
  induction body with
  | nil =>
    intro n rest hrest
    cases n with
    | zero =>
      rw [Parser.stmts]
      exact .pure _ _
    | succ n =>
      rw [Parser.stmts]
      refine .peek fun t' ht' => ?_
      rw [ht', Stmt.bodyTokens, Token.bare_nil, hrest]
      exact .pure _ _
  | cons s ss ih =>
    intro n rest hrest
    have hcs : ∀ s' ∈ ss, s'.Concrete := fun s' hs' => hc s' (.tail s hs')
    have hread : ∀ {n}, Reads (Parser.stmt n) _ s.erase _ :=
      h s List.mem_cons_self fun _ => Stmt.next_body hcs rest (by rw [hrest]; rfl)
    have hreads := ih hcs (fun s' hs' => h s' (.tail s hs'))
    obtain ⟨k, us, hus, hk⟩ := (hc s List.mem_cons_self).begins
    rw [hus] at hread
    rw [Stmt.bodyTokens, Token.bare_append, hus]
    refine Reads.ofSucc (p := Parser.stmts) (fun n => ?_) n
    rw [Parser.stmts]
    refine .peekCons ?_
    dsimp only
    rw [hk.notClose]
    -- The statement took a token, so those after it keep the next smaller bound.
    refine .bounded fun hlen => .bind hread (.bind (.afterProgress ?_ (hreads hrest) []) (.pure _ _))
    rw [List.length_cons, List.append_eq, List.length_append] at hlen
    omega

theorem Stmt.spells_blockTail {body : List Stmt} (hc : ∀ s ∈ body, s.Concrete)
    (h : ∀ s ∈ body, Spells Parser.stmt s.tokens s.erase s.Ends) (span : Span) :
    Spells (fun n => Parser.blockTail n .unknown) (Stmt.bodyTokens body ++ [.punct .rightBrace])
      (Stmt.block body span).erase TokenKind.Any := by
  intro n rest _
  rw [Token.bare_append, Stmt.erase, Stmt.eraseAll_eq_map]
  beta_reduce
  rw [Parser.blockTail]
  exact .bind ((Stmt.spells_body hc h).before rfl) (.bind (.expect rfl _ _) (.pure _ _))

theorem Stmt.Concrete.spells {s : Stmt} (h : s.Concrete) : Spells Parser.stmt s.tokens s.erase s.Ends := by
  induction h with
  | @expr e span he =>
    intro n rest _
    have hread : ∀ n, Reads (Parser.exprStmt n) ((Stmt.expr e span).tokens.map Token.bare ++ rest)
      (Stmt.expr e span).erase rest := fun _ => he.spells_stmt span trivial
    obtain ⟨k, us, hus, hk⟩ := he.begins
    rw [Stmt.tokens, hus] at hread ⊢
    refine Reads.ofSucc (p := Parser.stmt) (fun n => ?_) n
    rw [Parser.stmt]
    refine .peekCons ?_
    rw [hk.notType, if_neg Bool.false_ne_true]
    dsimp only
    split
    next hbrace => exact absurd hk.notOpenBrace (by simp [TokenKind.isPunct])
    next hword => exact absurd rfl (hk.notWord _)
    next hword => exact absurd rfl (hk.notWord _)
    next hword => exact absurd rfl (hk.notWord _)
    next hword => exact absurd rfl (hk.notWord _)
    next hword => exact absurd rfl (hk.notWord _)
    next hsemicolon => exact absurd hk.notSemicolon (by simp [TokenKind.isPunct])
    next => exact hread (n + 1)
  | @block body span hb ih =>
    intro n rest _
    rw [Stmt.tokens, Token.bare_cons]
    refine Reads.ofSucc (p := Parser.stmt) (fun n => ?_) n
    rw [Parser.stmt]
    refine .peekCons ?_
    rw [if_neg (by decide)]
    exact .take (Stmt.spells_blockTail hb ih span trivial)
  | @declare ds span hd =>
    intro n rest _
    cases ds with
    | nil => exact absurd rfl hd.nonempty
    | cons d ds =>
      rw [Stmt.erase]
      refine Reads.ofSucc (p := Parser.stmt) (fun n => ?_) n
      rw [Parser.stmt]
      refine .peekCons ?_
      rw [if_pos (isTypeKeyword_keyword d.type.base)]
      refine .bind (hd.spells trivial) ?_
      rw [Parser.declarationSpan_erase]
      exact .pure _ _
  | @print e span he =>
    intro n rest _
    simp only [Stmt.tokens, Token.bare_cons, Token.bare_append, Token.bare_nil]
    refine Reads.ofSucc (p := Parser.stmt) (fun n => ?_) n
    rw [Parser.stmt]
    refine .peekCons ?_
    rw [if_neg (by decide)]
    exact .take (.bind (he.spells.before endsExpr_semicolon) (.bind (.expect rfl _ _) (.pure _ _)))
  | @cond c t e span hc ht he hopen iht ihe =>
    intro n rest hrest
    simp only [Stmt.tokens, Token.bare_cons, Token.bare_append, Stmt.erase, Stmt.eraseOption_eq_map]
    refine Reads.ofSucc (p := Parser.stmt) (fun n => ?_) n
    rw [Parser.stmt]
    refine .peekCons ?_
    rw [if_neg (by decide)]
    refine .take (.bind (hc.reads_condition _ _ n) (.bind (iht ?_) (.bind (spells_elseTail ihe c t span hrest) ?_)))
    · -- An `else` after the branch belongs to this `if`: the branch does not end in an open one.
      intro hthenOpen
      cases e with
      | none => exact hrest rfl
      | some s =>
        rw [hopen rfl] at hthenOpen
        cases hthenOpen
    · have hlast : ((e.map Stmt.erase).getD t.erase).span = .unknown := by cases e <;> exact Stmt.span_erase _
      rw [hlast]
      exact .pure _ _
  | @whileLoop c b span hc hb ihb =>
    intro n rest hrest
    simp only [Stmt.tokens, Token.bare_cons, Token.bare_append, Stmt.erase]
    refine Reads.ofSucc (p := Parser.stmt) (fun n => ?_) n
    rw [Parser.stmt]
    refine .peekCons ?_
    rw [if_neg (by decide)]
    refine .take (.bind (hc.reads_condition _ _ n) (.bind (ihb hrest) ?_))
    rw [Stmt.span_erase]
    exact .pure _ _
  | @forLoop i c u b span hclause hi hc hu hb ihi ihb =>
    intro n rest hrest
    simp only [Stmt.tokens, Token.bare_cons, Token.bare_append, Stmt.erase, Stmt.eraseOption_eq_map]
    refine Reads.ofSucc (p := Parser.stmt) (fun n => ?_) n
    rw [Parser.stmt]
    refine .peekCons ?_
    rw [if_neg (by decide)]
    refine .take (.bind (.expect rfl _ _) (.bind (spells_forInit hclause hi ihi trivial) ?_))
    refine .bind ((spells_exprUnless hc (.inl rfl)).before rfl) (.bind (.expect rfl _ _) ?_)
    refine .bind ((spells_exprUnless hu (.inr rfl)).before rfl) (.bind (.expect rfl _ _) (.bind (ihb hrest) ?_))
    rw [Stmt.span_erase]
    exact .pure _ _
  | @ret v span hv =>
    intro n rest _
    simp only [Stmt.tokens, Token.bare_cons, Token.bare_append, Token.bare_nil]
    refine Reads.ofSucc (p := Parser.stmt) (fun n => ?_) n
    rw [Parser.stmt]
    refine .peekCons ?_
    rw [if_neg (by decide)]
    exact .take (.bind ((spells_exprUnless hv (.inl rfl)).before rfl) (.bind (.expect rfl _ _) (.pure _ _)))
  | empty span =>
    intro n rest _
    refine Reads.ofSucc (p := Parser.stmt) (fun n => ?_) n
    rw [Parser.stmt]
    refine .peekCons ?_
    rw [if_neg (by decide)]
    exact .take (.pure _ _)

end Ast

end MiniC
