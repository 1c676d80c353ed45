import MiniC.Proofs.Lower.NoLeaks
import MiniC.Proofs.Token.Pooling
import MiniC.Proofs.Typing.Program

/-!
# Accepted programs do not go wrong

A program that the checker accepts can be generated, within the limits of the generator: it has four
registers of each kind, it passes arguments in registers only, and it cannot print an array of
`long`. Reading puts all constants of the program into the pool, checking makes it well typed, and a
well-typed program over the pool fails for no other reason.
-/

set_option autoImplicit false

namespace MiniC.Lower

open Emit Typed

/-- The vocabulary of a program: its functions, all objects, and the constants of a pool. -/
def vocabulary (functions : Typing.Signatures) (pool : Pool) : Vocabulary where
  functions := functions
  objects := fun _ => True
  floats := fun x => pool.Holds (.float x)
  strings := fun s => pool.Holds (.str s)

theorem constant_vocabulary_iff (functions : Typing.Signatures) (pool : Pool) (v : Value) :
    (vocabulary functions pool).Constant v ↔ pool.Holds v := by
  cases v <;> exact Iff.rfl

/-- What is accepted against sound knowledge, with its constants in the pool, can be generated. -/
theorem programReady_of_accepted {k k' : Typing.Known} (hk : k.Sound) {pool : Pool}
    {ast : Ast.Program} (hast : ast.Spelled (lexicon pool)) {p : Program}
    (h : Typing.program k ast = (.ok p, k')) :
    ProgramReady (vocabulary k'.functions pool) pool p := by
  obtain ⟨hk', hglobals, hfunctions⟩ := Typing.program_checked hk hast h
  have hconstants : ∀ v, (lexicon pool).constants v →
      (vocabulary k'.functions pool).Constant v := fun v => (constant_vocabulary_iff _ pool v).mpr
  refine ⟨fun v => (constant_vocabulary_iff _ pool v).mp, hglobals _ hconstants, fun f hf => ?_⟩
  exact (hfunctions f hf).typed _ ⟨rfl, hconstants, fun _ _ => trivial⟩ fun _ _ => trivial

/-- A program that is read and accepted either gets its assembly file, or generating it fails for
one of three reasons: no register is free, an argument or parameter has no register to be passed in,
or an array of `long` is printed. -/
theorem generate_of_accepted {source file : String} {pool pool' : Pool} {ast : Ast.Program}
    {p : Program} (hparse : parse source file pool = (.ok ast, pool'))
    (hcheck : Typing.check ast = .ok p) (strict : Bool) :
    (∃ text, generate ⟨pool', strict⟩ p = .ok text) ∨
      ∃ failure, generate ⟨pool', strict⟩ p = .error failure ∧ failure.cause.IsLimit := by
  have hknown : Typing.Known.Sound {} := ⟨rfl, by simp, by simp⟩
  have hprogram : Typing.program {} ast = (.ok p, (Typing.program {} ast).2) :=
    Prod.ext hcheck rfl
  have hready := programReady_of_accepted hknown (spelled_of_parse hparse) hprogram
  obtain ⟨outcome, e, hperform, -, hends⟩ := program_completes _ pool' {} p
  have hgenerate : generate ⟨pool', strict⟩ p = match (outcome, e) with
      | (.ok (), e) => .ok e.output
      | (.error failure, _) => .error failure := by
    rw [← hperform strict]
    rfl
  cases outcome with
  | ok => exact .inl ⟨_, hgenerate⟩
  | error failure => exact .inr ⟨failure, hgenerate, hends.limit hready⟩

/-- A source text with a global object, a parameter, an endless loop and a local array. -/
theorem generate_endless_loop :
    ∃ ast pool p,
      parse "char c; void f(long n) { for (;;) { int m[3]; return; } }" "a.c" {} = (.ok ast, pool) ∧
        Typing.check ast = .ok p ∧
        ((∃ text, generate ⟨pool, true⟩ p = .ok text) ∨
          ∃ failure, generate ⟨pool, true⟩ p = .error failure ∧ failure.cause.IsLimit) := by
  have haccepted :
      (parse "char c; void f(long n) { for (;;) { int m[3]; return; } }" "a.c" {}).1.toOption.any
        (fun ast => (Typing.check ast).isOk) = true := by cbv
  revert haccepted
  generalize hparse : parse _ "a.c" {} = r
  intro haccepted
  obtain ⟨outcome, pool⟩ := r
  cases outcome with
  | error e => cases haccepted
  | ok ast =>
    cases hcheck : Typing.check ast with
    | error e => simp [Except.toOption, hcheck, Except.isOk, Except.toBool] at haccepted
    | ok p => exact ⟨ast, pool, p, rfl, hcheck, generate_of_accepted hparse hcheck true⟩

end MiniC.Lower
