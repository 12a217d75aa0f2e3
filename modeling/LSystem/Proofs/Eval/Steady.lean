import LSystem.Proofs.Eval.Answer
import LSystem.Proofs.Eval.Composition

/-!
# Computations that no generator changes

A steady computation ends in the same way from every generator on, in its answer
or its error, and leaves the generator as it was.  This says more than that it
takes no draw, because a computation could look at the generator without a draw.

Of the functions of a context `random` alone is not steady.  In a context that
names no other such function, an expression without a call of `random` is steady
when no variable leads to one.
-/

namespace LSystem.Syntax

/-- The expression has no call of `random`. -/
def Expr.Seedless (e : Expr) : Prop := e.Names (· ≠ "random") fun _ => True

theorem Expr.seedless_num (value : Float) : (Expr.num value).Seedless := trivial

end LSystem.Syntax

namespace LSystem

/-- The value of a name stands in one of the entries. Entries are looked up by going through
them. -/
theorem Bindings.mem_of_find? {α : Type} {b : Bindings α} {name : String} {value : α}
    (h : b.find? name = some value) : (name, value) ∈ b.entries := by
  obtain ⟨entries⟩ := b
  change findIn name entries = some value at h
  change (name, value) ∈ entries
  induction entries with
  | nil => cases h
  | cons entry rest ih =>
      rw [findIn] at h
      by_cases hname : entry.1 = name
      · rw [if_pos hname] at h
        cases h
        subst hname
        exact List.mem_cons_self
      · rw [if_neg hname] at h
        exact List.mem_cons_of_mem entry (ih h)

end LSystem

namespace LSystem.Eval

open Syntax Randomness

variable {ε α : Type}

/-- The computation ends in the same way from every generator on, and leaves the
generator as it was. -/
def Steady (m : RandomM ε α) : Prop := ∃ answer, ∀ g, m.run.run g = (answer, g)

/-- Steady computations put together are steady: what the first answers is the same from every
generator, so the second is one computation and not many. -/
theorem compositional_steady : Compositional @Steady := by
  constructor
  · exact fun a => ⟨.ok a, fun _ => rfl⟩
  · exact fun e => ⟨.error e, fun _ => rfl⟩
  · rintro ε α β m f ⟨answer, hm⟩ hf
    cases answer with
    | error e =>
        refine ⟨.error e, fun g => ?_⟩
        rw [run_bind, hm]
    | ok a =>
        obtain ⟨last, hlast⟩ := hf a
        refine ⟨last, fun g => ?_⟩
        rw [run_bind, hm]
        exact hlast g
  · rintro ε ε' α m f ⟨answer, hm⟩
    cases answer with
    | error e =>
        refine ⟨.error (f e), fun g => ?_⟩
        rw [run_adapt, hm]
    | ok a =>
        refine ⟨.ok a, fun g => ?_⟩
        rw [run_adapt, hm]

namespace Context

variable {c : Context}

/-- The context binds expressions without a call of `random` alone, and its other
functions are steady. -/
structure Seedless (c : Context) : Prop where
  bound : ∀ name e, c.scope.bound name = some e → e.Seedless
  native : ∀ name, name ≠ "random" → ∀ f, c.scope.native name = some f → ∀ args, Steady (f args)

/-- To bind an expression without a call of `random` adds no call of it to the context. -/
theorem Seedless.define (h : c.Seedless) (name : String) {value : Expr} (hvalue : value.Seedless) :
    (c.define name value).Seedless := by
  refine ⟨?_, h.native⟩
  intro other e he
  have hfind := Bindings.find?_insert c.definitions name other value
  by_cases hname : name = other
  · rw [if_pos hname] at hfind
    cases hfind.symm.trans he
    exact hvalue
  · rw [if_neg hname] at hfind
    exact h.bound other e (hfind.symm.trans he)

theorem Seedless.assign (h : c.Seedless) (name : String) (value : Float) :
    (c.assign name value).Seedless := h.define name (Expr.seedless_num value)

theorem assign_withGenerator (c : Context) (g : Generator) (name : String) (value : Float) :
    (c.withGenerator g).assign name value = (c.assign name value).withGenerator g := rfl

/-- A run begins with two numbers under a name, and with steady functions beside `random`. Each
builtin function but `random` is put together from steady computations. -/
theorem seedless_initial (g : Generator) : (initial g).Seedless := by
  constructor
  · intro name e he
    have hmem := Bindings.mem_of_find? he
    rcases List.mem_pair.1 hmem with hpi | he
    · obtain ⟨-, rfl⟩ := Prod.mk.inj hpi
      exact Expr.seedless_num _
    · obtain ⟨-, rfl⟩ := Prod.mk.inj he
      exact Expr.seedless_num _
  · intro name hname f hf args
    have hmem := Bindings.mem_of_find? hf
    rcases List.mem_cons.1 hmem with hrandom | hothers
    · exact absurd (Prod.mk.inj hrandom).1 hname
    · rcases List.mem_pair.1 hothers with hmin | hmax
      · obtain ⟨-, rfl⟩ := Prod.mk.inj hmin
        exact compositional_steady.extremum _ _ args
      · obtain ⟨-, rfl⟩ := Prod.mk.inj hmax
        exact compositional_steady.extremum _ _ args

/-- In such a context an expression without a call of `random` is steady. -/
theorem Seedless.evaluate (h : c.Seedless) {e : Expr} (he : e.Seedless) :
    Steady (c.scope.evaluate e) :=
  compositional_steady.evaluate (fun name f hname hf => h.native name hname f hf)
    (fun name _ e he => h.bound name e he) he

/-- A steady computation leaves the context as it was. Its answer is the same from every
generator, so the generator can be taken out of the statement. -/
theorem run_of_steady {m : Scope → RandomM ε α} (h : Steady (m c.scope)) :
    ∃ answer, ∀ g, (c.withGenerator g).run m = (answer, c.withGenerator g) := by
  obtain ⟨answer, hanswer⟩ := h
  refine ⟨answer, fun g => ?_⟩
  have hrun : (m (c.withGenerator g).scope).run.run g = (answer, g) := hanswer g
  unfold Context.run
  rw [show (c.withGenerator g).generator = g from rfl, hrun]
  rfl

end Context

end LSystem.Eval
