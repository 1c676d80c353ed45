import MiniC.Proofs.Typing.Names

/-!
# Every accepted program is well typed

The rules of `MiniC.Proofs.Typed.WellTyped` hold of every node of every program that is accepted, whether
or not it was read from a text, and whatever was checked before it (`program_wellTyped`).

Without a text the types of parameters are less certain: a tree can give one a length, which the grammar
does not allow. Such a function can be defined but not called, so that of parameters only one thing is
needed, that none is `void`.
-/

set_option autoImplicit false

namespace MiniC

namespace Ast

/-! ### All constants -/

theorem Expr.spelled_all (e : Expr) : e.Spelled .all := by
  induction e using Expr.induct with
  | literal v span => exact .literal trivial
  | name n span => exact .name
  | binary op l r span hl hr => exact .binary hl hr
  | unary op e span he => exact .unary he
  | assign op t v span ht hv => exact .assign ht hv
  | call f args span ha => exact .call ha
  | index a i span ha hi => exact .index ha hi
  | cast type e span he => exact .cast he

theorem Initializer.spelled_all (i : Initializer) : i.Spelled .all := by
  induction i using Initializer.induct with
  | expr e => exact .expr e.spelled_all
  | list items span hi => exact .list hi

theorem Declaration.spelled_all (d : Declaration) : d.Spelled .all :=
  ⟨trivial, fun i _ => i.spelled_all⟩

theorem Stmt.spelled_all (s : Stmt) : s.Spelled .all := by
  induction s using Stmt.induct with
  | expr e span => exact .expr e.spelled_all
  | block body span hb => exact .block hb
  | declare ds span => exact .declare fun d _ => d.spelled_all
  | print e span => exact .print e.spelled_all
  | cond c thenBranch elseBranch span ht he => exact .cond c.spelled_all ht he
  | whileLoop c body span hb => exact .whileLoop c.spelled_all hb
  | forLoop init c update body span hi hb =>
    exact .forLoop hi (fun e _ => e.spelled_all) (fun e _ => e.spelled_all) hb
  | ret value span => exact .ret fun e _ => e.spelled_all
  | empty span => exact .empty

end Ast

namespace Typing

open Typed (Vocabulary)

/-! ### What is known after any files -/

namespace Known

variable {k : Known}

/-- What is known after some files, accepted or not. -/
def after (files : List Ast.Program) : Known := files.foldl (fun k p => (program k p).2) {}

theorem takes_all (item : Ast.Item) : Takes (fun t => t.isVoid = false) .all item := by
  cases item with
  | function f => exact signature_gives fun p _ t _ ht => ht
  | declare ds => exact fun d _ => d.spelled_all

/-- A file that is refused still leaves what it has declared so far. -/
theorem SoundFor.program (hk : k.SoundFor fun t => t.isVoid = false) (p : Ast.Program) :
    (program k p).2.SoundFor fun t => t.isVoid = false := by
  have hadd := (hk.addItems (V := ⟨[], fun _ => True, fun _ => True, fun _ => True⟩)
    (fun v _ => by cases v <;> trivial) fun item (_ : item ∈ p.items) => takes_all item).1
  rw [program_known]
  exact hadd

theorem soundFor_after (files : List Ast.Program) :
    (after files).SoundFor fun t => t.isVoid = false := by
  unfold after
  refine List.foldlRecOn files _ ⟨rfl, by simp, by simp⟩ fun k hk p _ => hk.program p

/-- What a function of a program may mention: the functions and the global objects that are known, its
own objects, and all constants. -/
def vocabulary (k : Known) (f : Typed.Function) : Vocabulary where
  functions := k.functions
  objects o := o ∈ f.objects ∨ o ∈ k.globals
  floats _ := True
  strings _ := True

end Known

/-! ### The theorem -/

/-- A program that is accepted, after any files. Its global objects have data of their types. Each of
its functions has the types that are known under its name, none of its parameters is `void`, and every
statement of its body obeys the typing rules, with every expression in it. -/
theorem program_wellTyped {files : List Ast.Program} {p : Ast.Program} {t : Typed.Program} {k : Known}
    (h : program (.after files) p = (.ok t, k)) :
    (∀ g ∈ t.globals, g.WellTyped ⟨k.functions, (· ∈ k.globals), fun _ => True, fun _ => True⟩) ∧
      ∀ f ∈ t.functions, (∃ signature, k.Signs f signature) ∧
        (∀ o ∈ f.parameters, o.type.isVoid = false) ∧
        ∀ s ∈ f.body, s.WellTyped (k.vocabulary f) f.routine.result := by
  obtain ⟨hitems, hfunctions⟩ := of_program h
  have hconstants : ∀ V : Vocabulary, (∀ x, V.floats x) → (∀ text, V.strings text) →
      ∀ v, Ast.Lexicon.all.constants v → V.Constant v := by
    intro V hfloats hstrings v _
    cases v with
    | float x => exact hfloats x
    | str text => exact hstrings text
    | _ => trivial
  have hadd := (Known.soundFor_after files).addItems
    (V := ⟨k.functions, (· ∈ k.globals), fun _ => True, fun _ => True⟩)
    (hconstants _ (fun _ => trivial) fun _ => trivial)
    fun item (_ : item ∈ p.items) => Known.takes_all item
  rw [hitems] at hadd
  refine ⟨hadd.2 _ rfl, fun f hf => ⟨signs_of_program h f hf, ?_⟩⟩
  have haccepts := functions_checked (fun _ ht => ht) hadd.1
    (fun f' _ body _ => body.spelled_all) hfunctions f hf
  have hnames : k.Names .all (k.vocabulary f) :=
    ⟨rfl, hconstants _ (fun _ => trivial) fun _ => trivial, fun _ => .inr⟩
  have hover := haccepts.typed (k.vocabulary f) hnames fun _ => .inl
  exact ⟨fun o ho => (hover.parameters o ho).2, hover.body⟩

/-- `int a[3]; int a;`, which is refused, but not before the array is known. -/
def refused : Ast.Program where
  items := [.declare [⟨"a", ⟨.int, 0, some 3⟩, none, .unknown⟩, ⟨"a", ⟨.int, 0, none⟩, none, .unknown⟩]]
  span := .unknown

/-- `long f(char *p, float x) { p[a[2]] = x - 'c'; return &a - a || f(1 + p, x); }` -/
def mixing : Ast.Program where
  items :=
    [.function {
      name := "f", result := ⟨.long, 0, none⟩,
      parameters := [⟨"p", ⟨.char, 1, none⟩, .unknown⟩, ⟨"x", ⟨.float, 0, none⟩, .unknown⟩],
      body := some (.block
        [.expr (.assign .assign
            (.index (.name "p" .unknown) (.index (.name "a" .unknown) (.literal (.int 2) .unknown)
              .unknown) .unknown)
            (.binary .sub (.name "x" .unknown) (.literal (.char 99) .unknown) .unknown) .unknown)
          .unknown,
         .ret (some (.binary .logicalOr
            (.binary .sub (.unary .addressOf (.name "a" .unknown) .unknown) (.name "a" .unknown) .unknown)
            (.call "f" [.binary .add (.literal (.int 1) .unknown) (.name "p" .unknown) .unknown,
              .name "x" .unknown] .unknown) .unknown)) .unknown] .unknown),
      span := .unknown }]
  span := .unknown

/-- Arrays and pointers, a float stored as a character, and a call, after a file that was refused. -/
theorem mixing_wellTyped :
    ∃ t k, program (.after [refused]) mixing = (.ok t, k) ∧ t.functions.length = 1 ∧
      ∀ f ∈ t.functions, ∀ s ∈ f.body, s.WellTyped (k.vocabulary f) f.routine.result := by
  have haccepted : (program (.after [refused]) mixing).1.toOption.map (·.functions.length) =
      some 1 := by
    decide +kernel
  obtain ⟨t, ht, hlength⟩ := Option.map_eq_some_iff.mp haccepted
  have hprogram : program (.after [refused]) mixing =
      (.ok t, (program (.after [refused]) mixing).2) := by
    refine Prod.ext ?_ rfl
    cases h : (program (.after [refused]) mixing).1 with
    | error e =>
      rw [h] at ht
      cases ht
    | ok t' =>
      rw [h] at ht
      cases ht
      rfl
  exact ⟨t, _, hprogram, hlength, fun f hf => ((program_wellTyped hprogram).2 f hf).2.2⟩

end Typing

end MiniC
