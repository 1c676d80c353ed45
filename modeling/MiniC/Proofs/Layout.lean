import MiniC.Compile
import MiniC.Proofs.Ast.Layout
import MiniC.Proofs.Lower.Layout
import MiniC.Proofs.Token.Interning
import MiniC.Proofs.Typing.Layout

/-!
# Layout does not matter

Two texts that consist of the same tokens, comments apart, are compiled to the same file or refused
with the same message (`compile_layout`): blanks, line breaks, comments and the name of the file only
show in the places of diagnostics. Each stage is known not to look at ranges; what is added here is
that the pools filled while a text is read depend on its tokens alone.
-/

set_option autoImplicit false

namespace MiniC

/-! ### Pools -/

namespace Scanner

/-- Reading a text pools the constants of its tokens one after the other. -/
theorem pool_tokens {s : Scanner} {ts : List Token} {pool : Pool} (h : s.tokens = (.ok ts, pool)) :
    pool = (ts.map Token.kind).foldl poolConstant s.pool := by
  induction hlen : s.rest.length using Nat.strongRecOn generalizing s ts with
  | ind n ih =>
    subst hlen
    rw [Scanner.tokens] at h
    split at h
    next hdone =>
      cases hn : s.next with
      | mk found s' =>
        rw [hn] at h
        cases found with
        | error e => cases h
        | ok t =>
          cases h
          exact pool_of_next hn
    next hmore =>
      split at h
      next => cases h
      next t s' hn =>
        have hlt : s'.rest.length < s.rest.length := by
          have := next_rest_lt hmore
          rwa [hn] at this
        cases hts : s'.tokens with
        | mk others pool' =>
          rw [hts] at h
          cases others with
          | error e => cases h
          | ok others =>
            cases h
            rw [List.map_cons, List.foldl_cons, ← pool_of_next hn]
            exact ih _ hlt hts rfl

theorem foldl_visible (ts : List Token) (pool : Pool) :
    ((ts.filter fun t => !t.kind.isComment).map Token.kind).foldl poolConstant pool =
      (ts.map Token.kind).foldl poolConstant pool := by
  induction ts generalizing pool with
  | nil => rfl
  | cons t ts ih =>
    cases hcomment : t.kind.isComment with
    | false =>
      rw [List.filter_cons_of_pos (by rw [hcomment]; rfl)]
      exact ih _
    | true =>
      rw [List.filter_cons_of_neg (by rw [hcomment]; simp), ih, List.map_cons, List.foldl_cons]
      have hpool : poolConstant pool t.kind = pool := by
        cases hkind : t.kind with
        | floatLit x =>
          rw [hkind] at hcomment
          cases hcomment
        | stringLit x =>
          rw [hkind] at hcomment
          cases hcomment
        | _ => rfl
      rw [hpool]

end Scanner

/-! ### Diagnostics -/

/-- The diagnostic without its place. -/
def Diagnostic.erase : Diagnostic → Diagnostic
  | lexical _ message => lexical .unknown message
  | parsing _ message => parsing .unknown message
  | semantic _ message => semantic .unknown message
  | codegen _ message => codegen .unknown message
  | io message => io message
  | internal message => internal message
  | overflow => overflow

theorem ParseError.diagnostic_erase (e : ParseError) :
    e.erase.diagnostic.erase = e.diagnostic.erase := by
  cases e <;> rfl

/-- A program without its ranges compiles to the same file or fails with the same message. -/
theorem compileProgram_erase (setting : Emit.Setting) (p : Ast.Program) :
    (compileProgram setting p.erase).mapError Diagnostic.erase =
      (compileProgram setting p).mapError Diagnostic.erase := by
  unfold compileProgram generate
  rw [Typing.check_erase]
  cases Typing.check p with
  | error e => rfl
  | ok typed =>
    show ((Lower.generate setting typed.erase).mapError Lower.Failure.diagnostic).mapError _ =
      ((Lower.generate setting typed).mapError Lower.Failure.diagnostic).mapError _
    rw [Lower.generate_erase]
    cases Lower.generate setting typed <;> rfl

/-- **Layout does not influence the output.** Texts with the same tokens, comments apart, give the
same assembly file, or failures of the same stage with the same message. -/
theorem compile_layout {source source' file file' : String} {strict : Bool} {pool pool1 pool2 : Pool}
    {tokens tokens' : List Token} (h : tokenize source file pool = (.ok tokens, pool1))
    (h' : tokenize source' file' pool = (.ok tokens', pool2))
    (hkinds : (tokens.filter fun t => !t.kind.isComment).map Token.kind =
      (tokens'.filter fun t => !t.kind.isComment).map Token.kind) :
    (compile source file strict pool).mapError Diagnostic.erase =
      (compile source' file' strict pool).mapError Diagnostic.erase := by
  -- The two contexts have the same constants under the same labels.
  obtain rfl : pool1 = pool2 := by
    rw [Scanner.pool_tokens h, Scanner.pool_tokens h', ← Scanner.foldl_visible tokens, hkinds,
      Scanner.foldl_visible]
    rfl
  have hparsed := Ast.Program.ofTokens_alike hkinds
  unfold compile parse
  rw [h, h']
  dsimp only
  cases hp : Ast.Program.ofTokens tokens with
  | error e =>
    cases hp' : Ast.Program.ofTokens tokens' with
    | error e' =>
      rw [hp, hp'] at hparsed
      have herase : e.erase = e'.erase := Except.error.inj hparsed
      show Except.error e.diagnostic.erase = Except.error e'.diagnostic.erase
      rw [← e.diagnostic_erase, herase, e'.diagnostic_erase]
    | ok p' =>
      rw [hp, hp'] at hparsed
      cases hparsed
  | ok p =>
    cases hp' : Ast.Program.ofTokens tokens' with
    | error e' =>
      rw [hp, hp'] at hparsed
      cases hparsed
    | ok p' =>
      rw [hp, hp'] at hparsed
      have herase : p.erase = p'.erase := Except.ok.inj hparsed
      show (compileProgram ⟨pool1, strict⟩ p).mapError _ =
        (compileProgram ⟨pool1, strict⟩ p').mapError _
      rw [← compileProgram_erase _ p, herase, compileProgram_erase]

/-- A greeting on one line, and the same tokens over several lines with comments. -/
def greeting : String := "char *s=\"hi\";int f(void){print s;return 0;}"

def greetingSpread : String :=
  "/* what */ char * s = \"hi\" ; // and how\nint f ( void )\n\x7b\n  print s;\n  return 0;\n\x7d\n"

/-- The pool that both texts leave. -/
def greetingPool : Pool := (Pool.internString {} "hi").2

def greetingTokens : List Token := (tokenize greeting "a.c" {}).1.toOption.getD []

def greetingSpreadTokens : List Token := (tokenize greetingSpread "b.c" {}).1.toOption.getD []

theorem compile_greeting :
    tokenize greeting "a.c" {} = (.ok greetingTokens, greetingPool) ∧
      tokenize greetingSpread "b.c" {} = (.ok greetingSpreadTokens, greetingPool) ∧
      (compile greeting "a.c").mapError Diagnostic.erase =
        (compile greetingSpread "b.c").mapError Diagnostic.erase := by
  have h : tokenize greeting "a.c" {} = (.ok greetingTokens, greetingPool) := by cbv
  have h' : tokenize greetingSpread "b.c" {} = (.ok greetingSpreadTokens, greetingPool) := by cbv
  have hkinds : (greetingTokens.filter fun t => !t.kind.isComment).map Token.kind =
      (greetingSpreadTokens.filter fun t => !t.kind.isComment).map Token.kind := by cbv
  exact ⟨h, h', compile_layout h h' hkinds⟩

end MiniC
