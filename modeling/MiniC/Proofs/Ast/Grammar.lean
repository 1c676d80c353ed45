import MiniC.Ast.Parser.Expr
import MiniC.Proofs.Ast.Erase
import MiniC.Proofs.Ast.Reading

/-!
# The grammar of expressions

Which lists of tokens are expressions, and of which tree, in the usual stratified form:

```
assignment = binary(1) | binary(1) assignment-operator assignment
binary(l)  = binary(l + 1) | binary(l) operator-of-level-l binary(l + 1)        l = 1 .. 10
binary(11) = unary
unary      = sign unary | "(" type-word "*"... ")" unary | suffixed
suffixed   = primary | suffixed "[" assignment "]" | suffixed step
primary    = literal | name | name "(" arguments ")" | "(" assignment ")"
```

The tables of this module say which words are operators and types; they are those of the parser
(`binaryOperator?_eq_some_iff` and the lemmas after it). Trees are given without their ranges.
-/

set_option autoImplicit false

namespace MiniC.Ast.Grammar

/-! ### Words -/

/-- The operators of a level; those of level one bind most loosely. -/
def operators : Nat → List (Punct × BinaryOp)
  | 1 => [(.pipePipe, .logicalOr)]
  | 2 => [(.ampersandAmpersand, .logicalAnd)]
  | 3 => [(.pipe, .bitOr)]
  | 4 => [(.caret, .bitXor)]
  | 5 => [(.ampersand, .bitAnd)]
  | 6 => [(.equalEqual, .equal), (.bangEqual, .notEqual)]
  | 7 => [(.less, .less), (.lessEqual, .lessEqual), (.greater, .greater),
      (.greaterEqual, .greaterEqual)]
  | 8 => [(.leftShift, .leftShift), (.rightShift, .rightShift)]
  | 9 => [(.plus, .add), (.minus, .sub)]
  | 10 => [(.star, .mul), (.slash, .div), (.percent, .mod)]
  | _ => []

/-- The operators between a target and a value. -/
def assignments : List (Punct × AssignOp) :=
  [(.equal, .assign), (.plusEqual, .compound .add), (.minusEqual, .compound .sub),
    (.starEqual, .compound .mul), (.slashEqual, .compound .div), (.percentEqual, .compound .mod)]

/-- The operators in front of an operand. -/
def signs : List (Punct × UnaryOp) :=
  [(.plus, .plus), (.minus, .minus), (.bang, .logicalNot), (.tilde, .bitNot), (.star, .dereference),
    (.ampersand, .addressOf), (.plusPlus, .preIncrement), (.minusMinus, .preDecrement)]

/-- The operators after an operand. -/
def steps : List (Punct × UnaryOp) :=
  [(.plusPlus, .postIncrement), (.minusMinus, .postDecrement)]

/-- The words that name a type. -/
def typeWords : List (Keyword × BaseType) :=
  [(.void, .void), (.char, .char), (.int, .int), (.long, .long), (.float, .float), (.double, .float)]

/-- The constants that tokens spell. -/
inductive Literal : TokenKind → Value → Prop
  | int (n : Int64) : Literal (.intLit n) (.int n.toInt32)
  | long (n : Int64) : Literal (.longLit n) (.long n)
  | float (x : Float) : Literal (.floatLit x) (.float x)
  | char (c : UInt8) : Literal (.charLit c) (.char c)
  | string (s : String) : Literal (.stringLit s) (.str s)

/-! ### Phrases -/

mutual

inductive Assignment : List TokenKind → Expr → Prop
  | binary {ts : List TokenKind} {e : Expr} (h : Binary 1 ts e) : Assignment ts e
  | assign {ts us : List TokenKind} {target value : Expr} {p : Punct} {op : AssignOp}
    (ht : Binary 1 ts target) (hop : (p, op) ∈ assignments) (hv : Assignment us value) :
    Assignment (ts ++ .punct p :: us) (.assign op target value .unknown)

/-- Operands joined by operators of a level and tighter ones. -/
inductive Binary : Nat → List TokenKind → Expr → Prop
  | unary {ts : List TokenKind} {e : Expr} (h : Unary ts e) : Binary 11 ts e
  | tighter {l : Nat} {ts : List TokenKind} {e : Expr} (h : Binary (l + 1) ts e) : Binary l ts e
  | operation {l : Nat} {ts us : List TokenKind} {left right : Expr} {p : Punct} {op : BinaryOp}
    (hl : Binary l ts left) (hop : (p, op) ∈ operators l) (hr : Binary (l + 1) us right) :
    Binary l (ts ++ .punct p :: us) (.binary op left right .unknown)

inductive Unary : List TokenKind → Expr → Prop
  | signed {ts : List TokenKind} {e : Expr} {p : Punct} {op : UnaryOp} (hop : (p, op) ∈ signs)
    (h : Unary ts e) : Unary (.punct p :: ts) (.unary op e .unknown)
  | cast {ts : List TokenKind} {e : Expr} {word : Keyword} {base : BaseType} {depth : Nat}
    (hword : (word, base) ∈ typeWords) (hdepth : depth ≤ 255) (h : Unary ts e) :
    Unary (.punct .leftParen :: .keyword word ::
      (List.replicate depth (.punct .star) ++ .punct .rightParen :: ts))
      (.cast ⟨base, depth, none⟩ e .unknown)
  | suffixed {ts : List TokenKind} {e : Expr} (h : Suffixed ts e) : Unary ts e

/-- An operand with what follows it. -/
inductive Suffixed : List TokenKind → Expr → Prop
  | primary {ts : List TokenKind} {e : Expr} (h : Primary ts e) : Suffixed ts e
  | index {ts us : List TokenKind} {array i : Expr} (ha : Suffixed ts array) (hi : Assignment us i) :
    Suffixed (ts ++ .punct .leftBracket :: (us ++ [.punct .rightBracket])) (.index array i .unknown)
  | step {ts : List TokenKind} {e : Expr} {p : Punct} {op : UnaryOp} (h : Suffixed ts e)
    (hop : (p, op) ∈ steps) : Suffixed (ts ++ [.punct p]) (.unary op e .unknown)

inductive Primary : List TokenKind → Expr → Prop
  | literal {k : TokenKind} {v : Value} (h : Literal k v) : Primary [k] (.literal v .unknown)
  | name (n : String) : Primary [.identifier n] (.name n .unknown)
  | emptyCall (f : String) :
    Primary [.identifier f, .punct .leftParen, .punct .rightParen] (.call f [] .unknown)
  | call {f : String} {ts : List TokenKind} {args : List Expr} (h : Arguments ts args) :
    Primary (.identifier f :: .punct .leftParen :: (ts ++ [.punct .rightParen]))
      (.call f args .unknown)
  | parenthesized {ts : List TokenKind} {e : Expr} (h : Assignment ts e) :
    Primary (.punct .leftParen :: (ts ++ [.punct .rightParen])) e

/-- One or more arguments with commas between them. -/
inductive Arguments : List TokenKind → List Expr → Prop
  | last {ts : List TokenKind} {e : Expr} (h : Assignment ts e) : Arguments ts [e]
  | more {ts us : List TokenKind} {e : Expr} {es : List Expr} (h : Assignment ts e)
    (hs : Arguments us es) : Arguments (ts ++ .punct .comma :: us) (e :: es)

end

/-! ### The tables of the parser -/

theorem binaryOperator?_eq_some_iff {k : TokenKind} {l : Nat} {op : BinaryOp} :
    Parser.binaryOperator? k = some (l, op) ↔ ∃ p, k = .punct p ∧ (p, op) ∈ operators l := by
  constructor
  · intro h
    unfold Parser.binaryOperator? at h
    split at h
    all_goals
      cases h <;> exact ⟨_, rfl, by decide⟩
  · rintro ⟨p, rfl, h⟩
    unfold operators at h
    split at h
    all_goals
      fin_cases h <;> rfl

theorem assignOperator?_eq_some_iff {k : TokenKind} {op : AssignOp} :
    Parser.assignOperator? k = some op ↔ ∃ p, k = .punct p ∧ (p, op) ∈ assignments := by
  constructor
  · intro h
    unfold Parser.assignOperator? at h
    split at h
    all_goals
      cases h <;> exact ⟨_, rfl, by decide⟩
  · rintro ⟨p, rfl, h⟩
    fin_cases h <;> rfl

theorem unaryOperator?_eq_some_iff {k : TokenKind} {op : UnaryOp} :
    Parser.unaryOperator? k = some op ↔ ∃ p, k = .punct p ∧ (p, op) ∈ signs := by
  constructor
  · intro h
    unfold Parser.unaryOperator? at h
    split at h
    all_goals
      cases h <;> exact ⟨_, rfl, by decide⟩
  · rintro ⟨p, rfl, h⟩
    fin_cases h <;> rfl

theorem stepOperator?_eq_some_iff {k : TokenKind} {op : UnaryOp} :
    Parser.stepOperator? k = some op ↔ ∃ p, k = .punct p ∧ (p, op) ∈ steps := by
  constructor
  · intro h
    unfold Parser.stepOperator? at h
    split at h
    all_goals
      cases h <;> exact ⟨_, rfl, by decide⟩
  · rintro ⟨p, rfl, h⟩
    fin_cases h <;> rfl

theorem baseType?_eq_some_iff {k : TokenKind} {base : BaseType} :
    Parser.baseType? k = some base ↔ ∃ word, k = .keyword word ∧ (word, base) ∈ typeWords := by
  constructor
  · intro h
    unfold Parser.baseType? at h
    split at h
    all_goals
      cases h <;> exact ⟨_, rfl, by decide⟩
  · rintro ⟨word, rfl, h⟩
    fin_cases h <;> rfl

theorem literal?_eq_some_iff {k : TokenKind} {v : Value} :
    Parser.literal? k = some v ↔ Literal k v := by
  constructor
  · intro h
    cases k with
    | intLit n => cases h; exact .int n
    | longLit n => cases h; exact .long n
    | floatLit x => cases h; exact .float x
    | charLit c => cases h; exact .char c
    | stringLit s => cases h; exact .string s
    | _ => cases h
  · rintro (_ | _ | _ | _ | _) <;> rfl

theorem isTypeKeyword_iff {k : TokenKind} :
    k.isTypeKeyword = true ↔ ∃ base, Parser.baseType? k = some base := by
  cases k with
  | keyword word => cases word <;> simp [TokenKind.isTypeKeyword, Keyword.isType, Parser.baseType?]
  | _ => simp [TokenKind.isTypeKeyword, Parser.baseType?]

/-! ### How phrases begin -/

/-- A token that an expression can begin with: none that begins something else or closes anything. -/
structure Begins (k : TokenKind) : Prop where
  notWord : ∀ word, k ≠ .keyword word
  notOpenBrace : k.isPunct .leftBrace = false
  notCloseBrace : k.isPunct .rightBrace = false
  notCloseParen : k.isPunct .rightParen = false
  notSemicolon : k.isPunct .semicolon = false
  notEnd : k.isEnd = false

theorem Begins.notType {k : TokenKind} (h : Begins k) : k.isTypeKeyword = false := by
  cases k with
  | keyword word => exact absurd rfl (h.notWord word)
  | _ => rfl

/-- A token that an operand with suffixes begins with: it is not a sign either. -/
structure Opens (k : TokenKind) : Prop extends Begins k where
  notSign : Parser.unaryOperator? k = none

theorem begins_leftParen : Begins (.punct .leftParen) :=
  ⟨by simp, rfl, rfl, rfl, rfl, rfl⟩

theorem Begins.ofSign {p : Punct} {op : UnaryOp} (h : (p, op) ∈ signs) : Begins (.punct p) := by
  fin_cases h <;> exact ⟨by simp, rfl, rfl, rfl, rfl, rfl⟩

theorem Opens.ofLiteral {k : TokenKind} {v : Value} (h : Literal k v) : Opens k := by
  cases h <;> exact ⟨⟨by simp, rfl, rfl, rfl, rfl, rfl⟩, rfl⟩

theorem opens_identifier (name : String) : Opens (.identifier name) :=
  ⟨⟨by simp, rfl, rfl, rfl, rfl, rfl⟩, rfl⟩

mutual

theorem Assignment.begins : ∀ {ts : List TokenKind} {e : Expr}, Assignment ts e →
    ∃ k us, ts = k :: us ∧ Begins k
  | _, _, .binary h => h.begins
  | _, _, .assign ht _ _ => by
    obtain ⟨k, us, rfl, hk⟩ := ht.begins
    exact ⟨k, _, rfl, hk⟩

theorem Binary.begins : ∀ {l : Nat} {ts : List TokenKind} {e : Expr}, Binary l ts e →
    ∃ k us, ts = k :: us ∧ Begins k
  | _, _, _, .unary h => h.begins
  | _, _, _, .tighter h => h.begins
  | _, _, _, .operation hl _ _ => by
    obtain ⟨k, us, rfl, hk⟩ := hl.begins
    exact ⟨k, _, rfl, hk⟩

theorem Unary.begins : ∀ {ts : List TokenKind} {e : Expr}, Unary ts e →
    ∃ k us, ts = k :: us ∧ Begins k
  | _, _, .signed hop _ => ⟨_, _, rfl, .ofSign hop⟩
  | _, _, .cast _ _ _ => ⟨_, _, rfl, begins_leftParen⟩
  | _, _, .suffixed h => by
    obtain ⟨k, us, rfl, hk, -⟩ := h.begins
    exact ⟨k, us, rfl, hk.toBegins⟩

/-- An operand begins with a token that opens one; a parenthesis there is not that of a cast. -/
theorem Suffixed.begins : ∀ {ts : List TokenKind} {e : Expr}, Suffixed ts e →
    ∃ k us, ts = k :: us ∧ Opens k ∧
      (k = .punct .leftParen → ∃ k' us', us = k' :: us' ∧ k'.isTypeKeyword = false)
  | _, _, .primary h => h.begins
  | _, _, .index ha _ => by
    obtain ⟨k, us, rfl, hk, hcast⟩ := ha.begins
    refine ⟨k, _, rfl, hk, fun hp => ?_⟩
    obtain ⟨k', us', rfl, hk'⟩ := hcast hp
    exact ⟨k', _, rfl, hk'⟩
  | _, _, .step h _ => by
    obtain ⟨k, us, rfl, hk, hcast⟩ := h.begins
    refine ⟨k, _, rfl, hk, fun hp => ?_⟩
    obtain ⟨k', us', rfl, hk'⟩ := hcast hp
    exact ⟨k', _, rfl, hk'⟩

theorem Primary.begins : ∀ {ts : List TokenKind} {e : Expr}, Primary ts e →
    ∃ k us, ts = k :: us ∧ Opens k ∧
      (k = .punct .leftParen → ∃ k' us', us = k' :: us' ∧ k'.isTypeKeyword = false)
  | _, _, .literal h => by
    refine ⟨_, _, rfl, .ofLiteral h, fun hp => ?_⟩
    subst hp
    cases h
  | _, _, .name _ => ⟨_, _, rfl, opens_identifier _, fun hp => by cases hp⟩
  | _, _, .emptyCall _ => ⟨_, _, rfl, opens_identifier _, fun hp => by cases hp⟩
  | _, _, .call _ => ⟨_, _, rfl, opens_identifier _, fun hp => by cases hp⟩
  | _, _, .parenthesized h => by
    obtain ⟨k, us, rfl, hk⟩ := h.begins
    exact ⟨_, _, rfl, ⟨begins_leftParen, rfl⟩, fun _ => ⟨k, _, rfl, hk.notType⟩⟩

end

theorem Arguments.begins {ts : List TokenKind} {es : List Expr} (h : Arguments ts es) :
    ∃ k us, ts = k :: us ∧ Begins k := by
  cases h with
  | last h => exact h.begins
  | more h _ =>
    obtain ⟨k, us, rfl, hk⟩ := h.begins
    exact ⟨k, _, rfl, hk⟩

/-! ### Ends of files -/

mutual

/-- No expression goes over the end of a file. -/
theorem Assignment.noEnd : ∀ {ts : List TokenKind} {e : Expr}, Assignment ts e →
    TokenKind.endOfFile ∉ ts
  | _, _, .binary h => h.noEnd
  | _, _, .assign ht _ hv => by simp [ht.noEnd, hv.noEnd]

theorem Binary.noEnd : ∀ {l : Nat} {ts : List TokenKind} {e : Expr}, Binary l ts e →
    TokenKind.endOfFile ∉ ts
  | _, _, _, .unary h => h.noEnd
  | _, _, _, .tighter h => h.noEnd
  | _, _, _, .operation hl _ hr => by simp [hl.noEnd, hr.noEnd]

theorem Unary.noEnd : ∀ {ts : List TokenKind} {e : Expr}, Unary ts e → TokenKind.endOfFile ∉ ts
  | _, _, .signed _ h => by simp [h.noEnd]
  | _, _, .cast _ _ h => by simp [h.noEnd, List.mem_replicate]
  | _, _, .suffixed h => h.noEnd

theorem Suffixed.noEnd : ∀ {ts : List TokenKind} {e : Expr}, Suffixed ts e →
    TokenKind.endOfFile ∉ ts
  | _, _, .primary h => h.noEnd
  | _, _, .index ha hi => by simp [ha.noEnd, hi.noEnd]
  | _, _, .step h _ => by simp [h.noEnd]

theorem Primary.noEnd : ∀ {ts : List TokenKind} {e : Expr}, Primary ts e → TokenKind.endOfFile ∉ ts
  | _, _, .literal h => by cases h <;> simp
  | _, _, .name _ => by simp
  | _, _, .emptyCall _ => by simp
  | _, _, .call h => by simp [h.noEnd]
  | _, _, .parenthesized h => by simp [h.noEnd]

theorem Arguments.noEnd : ∀ {ts : List TokenKind} {es : List Expr}, Arguments ts es →
    TokenKind.endOfFile ∉ ts
  | _, _, .last h => h.noEnd
  | _, _, .more h hs => by simp [h.noEnd, hs.noEnd]

end

theorem level_le {k : TokenKind} {l : Nat} {op : BinaryOp}
    (h : Parser.binaryOperator? k = some (l, op)) : l ≤ 10 := by
  unfold Parser.binaryOperator? at h
  split at h
  all_goals
    cases h <;> decide

/-- An expression of a level is one of every looser level. -/
theorem Binary.loosen {l m : Nat} {ts : List TokenKind} {e : Expr} (h : Binary l ts e) (hm : m ≤ l) :
    Binary m ts e := by
  induction l with
  | zero =>
    obtain rfl : m = 0 := by omega
    exact h
  | succ l ih =>
    by_cases heq : m = l + 1
    · subst heq
      exact h
    · exact ih (.tighter h) (by omega)

end MiniC.Ast.Grammar
