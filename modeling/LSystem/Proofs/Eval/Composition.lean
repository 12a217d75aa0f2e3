import LSystem.Eval.Basic
import LSystem.Eval.Builtin
import LSystem.Proofs.Syntax.WellFormed

/-!
# Properties of computations

A property of computations is compositional when it is kept by putting
computations together.  An expression evaluates to a computation that is put
together from the functions that it calls and the variables that it names, so a
compositional property of these is one of the whole: `Compositional.evaluate`
asks for functions that have it, and for a set of variables that the expression
does not leave.
-/

namespace LSystem.Syntax

mutual

/-- The expression calls functions of `F` alone and names variables of `V`
alone. -/
def Expr.Names (F V : String → Prop) : Expr → Prop
  | .num _ => True
  | .ident name => V name
  | .call name args => F name ∧ Expr.AllName F V args
  | .group inner => inner.Names F V
  | .binary _ left right => left.Names F V ∧ right.Names F V
  | .neg inner => inner.Names F V

/-- All of the expressions do. -/
def Expr.AllName (F V : String → Prop) : List Expr → Prop
  | [] => True
  | e :: es => e.Names F V ∧ Expr.AllName F V es

end

/-- Arguments call such functions and name such variables when each of them does. -/
theorem Expr.allName_iff {F V : String → Prop} {es : List Expr} :
    Expr.AllName F V es ↔ ∀ e ∈ es, e.Names F V := by
  induction es with
  | nil => simp [Expr.AllName]
  | cons e es ih => rw [Expr.AllName, ih, List.forall_mem_cons]

end LSystem.Syntax

namespace LSystem.Eval

open Syntax Randomness

/-- Answers and errors have the property, and sequences and renamed errors of
computations that have it have it too. -/
structure Compositional (P : ∀ ⦃ε α : Type⦄, RandomM ε α → Prop) : Prop where
  pure : ∀ {ε α : Type} (a : α), P (pure a : RandomM ε α)
  throw : ∀ {ε α : Type} (e : ε), P (throw e : RandomM ε α)
  bind : ∀ {ε α β : Type} {m : RandomM ε α} {f : α → RandomM ε β}, P m → (∀ a, P (f a)) →
    P (m >>= f)
  adapt : ∀ {ε ε' α : Type} {m : RandomM ε α} (f : ε → ε'), P m → P (m.adapt f)

namespace Compositional

variable {P : ∀ ⦃ε α : Type⦄, RandomM ε α → Prop} {native : String → Option NativeFunction}
  {refer : String → EvalM Float} {F V : String → Prop}

/-- The check of a value is an answer or an error, so it has every compositional property. -/
theorem finite (hP : Compositional P) (e : Expr) (value : Float) : P (finite e value) := by
  unfold Eval.finite
  split
  · exact hP.pure value
  · exact hP.throw _

/-- The value of an operator is an answer or an error too, whatever the operator. -/
theorem apply (hP : Compositional P) (op : Operator) (l r : Float) : P (apply op l r) := by
  cases op with
  | add => exact hP.pure _
  | sub => exact hP.pure _
  | mul => exact hP.pure _
  | div =>
      unfold Eval.apply
      simp only
      split
      · exact hP.throw _
      · exact hP.pure _

/-- Arguments have the property when each of them does, since they are evaluated one after the
other. -/
theorem evalListWith (hP : Compositional P) {es : List Expr}
    (h : ∀ e ∈ es, P (evalWith native refer e)) : P (evalListWith native refer es) := by
  induction es with
  | nil => exact hP.pure []
  | cons e es ih =>
      obtain ⟨he, hes⟩ := List.forall_mem_cons.1 h
      exact hP.bind he fun value => hP.bind (ih hes) fun values => hP.pure _

/-- An expression has the property when its functions and its variables do.  The induction is on
the tree: every constructor puts the parts together by sequences. -/
theorem evalWith (hP : Compositional P)
    (hnative : ∀ name f, F name → native name = some f → ∀ args, P (f args))
    (hrefer : ∀ name, V name → P (refer name)) {e : Expr} (h : e.Names F V) :
    P (evalWith native refer e) := by
  induction e using Expr.inductionOn with
  | num value =>
      rw [Eval.evalWith]
      exact hP.finite _ value
  | ident name =>
      rw [Expr.Names] at h
      rw [Eval.evalWith]
      exact hP.bind (hrefer name h) fun value => hP.finite _ value
  | call name args ih =>
      rw [Expr.Names, Expr.allName_iff] at h
      obtain ⟨hname, hargs⟩ := h
      have hvalues := hP.evalListWith fun e he => ih e he (hargs e he)
      rw [Eval.evalWith]
      split
      · exact hP.throw _
      · rename_i f hf
        refine hP.bind hvalues fun values => ?_
        exact hP.bind (hnative name f hname hf values) fun value => hP.finite _ value
  | group inner ih =>
      rw [Expr.Names] at h
      rw [Eval.evalWith]
      exact hP.bind (ih h) fun value => hP.finite _ value
  | binary op left right ihl ihr =>
      rw [Expr.Names] at h
      rw [Eval.evalWith]
      refine hP.bind (ihl h.1) fun l => hP.bind (ihr h.2) fun r => ?_
      exact hP.bind (hP.apply op l r) fun value => hP.finite _ value
  | neg inner ih =>
      rw [Expr.Names] at h
      rw [Eval.evalWith]
      exact hP.bind (ih h) fun value => hP.finite _ (-value)

/-- The least and the greatest of some numbers have every such property. -/
theorem extremum (hP : Compositional P) (function : String) (choose : Float → Float → Float)
    (args : List Float) : P (extremum function choose args) := by
  cases args with
  | nil => exact hP.throw _
  | cons first rest => exact hP.pure _

/-- An expression has the property when it calls functions alone that have it and
names variables alone that are bound to such expressions again. -/
theorem evaluate (hP : Compositional P) {s : Scope}
    (hnative : ∀ name f, F name → s.native name = some f → ∀ args, P (f args))
    (hbound : ∀ name, V name → ∀ e, s.bound name = some e → e.Names F V) {e : Expr}
    (h : e.Names F V) : P (s.evaluate e) := by
  unfold Scope.evaluate
  generalize maxReferences = references
  induction references generalizing e with
  | zero => exact hP.evalWith hnative (fun name _ => hP.throw _) h
  | succ references ih =>
      apply hP.evalWith hnative ?_ h
      intro name hname
      split
      · exact hP.throw _
      · rename_i e he
        exact ih (hbound name hname e he)

end Compositional

end LSystem.Eval
