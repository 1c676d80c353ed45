import MiniC.Proofs.Ast.Parsing
import MiniC.Proofs.Emit.Outcome
import MiniC.Proofs.Token.Interning

/-!
# The pools are complete

Scanning a text pools the constant of every token and drops none that was there, so a program read
from the text mentions no constant that has no label (`spelled_of_parse`). Its names are words: they
begin with a letter or an underscore.
-/

set_option autoImplicit false

namespace MiniC

open Ast (Lexicon)

/-! ### Pools grow -/

/-- What one pool holds the other does too. -/
def Pool.Grows (p q : Pool) : Prop := ∀ v, p.Holds v → q.Holds v

/-- A pool holds what it held while entries are only appended. -/
theorem Pool.grows_of_prefixes {p q : Pool} (hfloats : p.floats.entries <+: q.floats.entries)
    (hstrings : p.strings.entries <+: q.strings.entries) : p.Grows q := by
  intro v hv
  cases v with
  | float x =>
    obtain ⟨l, hl⟩ := Option.isSome_iff_exists.mp hv
    exact Option.isSome_iff_exists.mpr ⟨l, ConstantTable.label?_of_prefix hfloats hl⟩
  | str s =>
    obtain ⟨l, hl⟩ := Option.isSome_iff_exists.mp hv
    exact Option.isSome_iff_exists.mpr ⟨l, ConstantTable.label?_of_prefix hstrings hl⟩
  | _ => trivial

/-! ### Tokens -/

/-- A name of the language. -/
def IsName (s : String) : Prop := ∃ c cs, s.toList = c :: cs ∧ isWordStart c = true

/-- The constants that have labels in a pool, and the names of the language. -/
def lexicon (pool : Pool) : Lexicon := ⟨pool.Holds, IsName⟩

theorem grows_poolConstant (pool : Pool) (kind : TokenKind) :
    pool.Grows (Scanner.poolConstant pool kind) := by
  cases kind with
  | floatLit x => exact Pool.grows_of_prefixes (pool.floats.prefix_add x) List.prefix_rfl
  | stringLit s => exact Pool.grows_of_prefixes List.prefix_rfl (pool.strings.prefix_add s)
  | _ => exact fun _ hv => hv

theorem holds_poolConstant (pool : Pool) {kind : TokenKind} {v : Value}
    (h : Parser.literal? kind = some v) : (Scanner.poolConstant pool kind).Holds v := by
  cases kind <;> simp only [Parser.literal?, Option.some.injEq, reduceCtorEq] at h <;> subst h
  case floatLit x => exact Option.isSome_iff_exists.mpr ⟨_, pool.floats.label?_add x⟩
  case stringLit s => exact Option.isSome_iff_exists.mpr ⟨_, pool.strings.label?_add s⟩
  all_goals trivial

theorem Lexeme.isName {name : String} {text : List Char} (h : Lexeme (.identifier name) text) : IsName name := by
  generalize hkind : TokenKind.identifier name = kind at h
  cases h with
  | word hc _ =>
    unfold wordKind at hkind
    split at hkind
    · cases hkind
    · cases hkind
      exact ⟨_, _, String.toList_ofList, hc⟩
  | hex _ _ _ _ hsuffix => cases hsuffix <;> cases hkind
  | integer _ _ _ hsuffix => cases hsuffix <;> cases hkind
  | _ => cases hkind

/-! ### Texts -/

/-- The tokens of a text have their constants in the pool that scanning leaves. -/
theorem Scanner.tokens_spelled {s : Scanner} {ts : List Token} (h : s.tokens.1 = .ok ts) :
    s.pool.Grows s.tokens.2 ∧ ∀ t ∈ ts, t.Spelled (lexicon s.tokens.2) := by
  refine Scanner.tokens_induction (motive := fun s ts =>
    s.pool.Grows s.tokens.2 ∧ ∀ t ∈ ts, t.Spelled (lexicon s.tokens.2)) ?_ ?_ h
  · intro s hblank
    rw [tokens_of_blank hblank]
    exact ⟨fun _ hv => hv, List.forall_mem_singleton.mpr ⟨fun _ hv => (by cases hv), fun _ hname => (by cases hname)⟩⟩
  · intro s gap text rest kind ts hmeets ih
    rw [hmeets.tokens]
    obtain ⟨hgrows, hts⟩ := ih
    refine ⟨fun v hv => hgrows v (grows_poolConstant _ kind v hv), List.forall_mem_cons.mpr ⟨⟨fun v hv => ?_, ?_⟩, hts⟩⟩
    · exact hgrows v (holds_poolConstant _ hv)
    · rintro name ⟨⟩
      exact hmeets.lexeme.isName

/-- A program read from a text mentions only constants that have labels then, and its names are
words. -/
theorem spelled_of_parse {source file : String} {pool pool' : Pool} {p : Ast.Program}
    (h : parse source file pool = (.ok p, pool')) : p.Spelled (lexicon pool') := by
  unfold parse at h
  cases ht : tokenize source file pool with
  | mk found q =>
    rw [ht] at h
    cases found with
    | error e => cases h
    | ok tokens =>
      obtain ⟨hp, rfl⟩ := Prod.mk.inj h
      have htokens : Ast.Program.ofTokens tokens = .ok p := by
        cases ho : Ast.Program.ofTokens tokens with
        | error e => rw [ho] at hp; cases hp
        | ok p' => rw [ho] at hp; cases hp; rfl
      have hscan := congrArg Prod.snd ht
      subst hscan
      exact Ast.Program.spelled_of_ofTokens htokens (Scanner.tokens_spelled (congrArg Prod.fst ht)).2

end MiniC
