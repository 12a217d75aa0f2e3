import LSystem.Proofs.Eval.Answer
import LSystem.Proofs.Eval.Composition

/-!
# Computations without draws

A computation that takes no draw hands the generator on as it was, whether it
answers or fails.  An expression evaluates in this way when no function that it
calls draws, neither where it stands nor behind one of its variables;
`drawless_evaluate` asks this of a set of variables that the expression does not
leave.
-/

namespace LSystem.Eval

open Syntax Randomness

variable {ε α : Type} {g g' : Generator}

/-- The computation takes no draw: it leaves every generator as it was. -/
def Drawless (m : RandomM ε α) : Prop := ∀ g, (m.run.run g).2 = g

/-- A computation that takes no draw leaves the generator that it has been given. -/
theorem Drawless.eq_of_answers {m : RandomM ε α} (hm : Drawless m) {a : α}
    (h : Answers m g a g') : g' = g := by
  have hlast := hm g
  rw [h] at hlast
  exact hlast

/-- Computations without draws put together take none. Only the function `random` and what is
bound to it can bring in a draw. -/
theorem compositional_drawless : Compositional @Drawless := by
  constructor
  · exact fun _ _ => rfl
  · exact fun _ _ => rfl
  · intro ε α β m f hm hf g
    have hfirst := hm g
    rw [run_bind]
    match hrun : m.run.run g with
    | (.error e, next) =>
        rw [hrun] at hfirst
        exact hfirst
    | (.ok a, next) =>
        rw [hrun] at hfirst
        exact (hf a next).trans hfirst
  · intro ε ε' α m f hm g
    have hfirst := hm g
    rw [run_adapt]
    match hrun : m.run.run g with
    | (.error e, next) =>
        rw [hrun] at hfirst
        exact hfirst
    | (.ok a, next) =>
        rw [hrun] at hfirst
        exact hfirst

/-- The name stands for no function, or for one that takes no draw, whatever its
arguments are. -/
def Scope.Calm (s : Scope) (name : String) : Prop :=
  ∀ f, s.native name = some f → ∀ args, Drawless (f args)

/-- An expression takes no draw when it calls calm functions alone and names
variables alone that are bound to such expressions again. -/
theorem drawless_evaluate {s : Scope} {V : String → Prop}
    (hbound : ∀ name, V name → ∀ e, s.bound name = some e → e.Names s.Calm V) {e : Expr}
    (h : e.Names s.Calm V) : Drawless (s.evaluate e) :=
  compositional_drawless.evaluate (fun _ f hcalm hf => hcalm f hf) hbound h

end LSystem.Eval
