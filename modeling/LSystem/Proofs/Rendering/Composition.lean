import LSystem.Proofs.Eval.Composition
import LSystem.Rendering

/-!
# Properties of walks

The walk along a string is put together from the motions of its names, and a
motion from the expressions that it is performed by.  A compositional property
of these expressions, wherever the turtle is, is one of the whole walk.
-/

namespace LSystem

open Syntax Eval Randomness

/-- The expressions that a line is drawn by. -/
def Stroke.parameters (stroke : Stroke) : List Expr :=
  [stroke.width, stroke.color.r, stroke.color.g, stroke.color.b]

/-- The expressions that a motion is performed by. -/
def Syntax.Motion.parameters : Motion Stroke → List Expr
  | .rotate angle _ => [angle]
  | .forward distance stroke => distance :: stroke.parameters
  | .shift dx dy stroke => dx :: dy :: stroke.parameters

namespace Eval.Compositional

variable {P : ∀ ⦃ε α : Type⦄, RandomM ε α → Prop} {config : RenderConfig} {spec : Specification}
  {c : Context} {symbol : Symbol} {u : List Symbol}

/-- What holds of evaluating the width and the three parts of the color holds of evaluating the
stroke, which does these one after another. -/
theorem evaluateStroke (hP : Compositional P) {s : Scope} {stroke : Stroke}
    (h : ∀ e ∈ stroke.parameters, P (s.evaluate e)) : P (evaluateStroke s stroke) := by
  unfold Stroke.parameters at h
  rw [List.forall_mem_cons, List.forall_mem_cons, List.forall_mem_cons,
    List.forall_mem_singleton] at h
  obtain ⟨hwidth, hr, hg, hb⟩ := h
  refine hP.bind hwidth fun width => hP.bind ?_ fun color => hP.pure _
  exact hP.bind hr fun r => hP.bind hg fun green => hP.bind hb fun b => hP.pure _

/-- A motion has the property when its expressions have it. The expressions are evaluated one
after the other, and what is done with the values computes nothing more. -/
theorem perform (hP : Compositional P) (epsilon : Float) {s : Scope} {motion : Motion Stroke}
    (h : ∀ e ∈ motion.parameters, P (s.evaluate e)) (walk : Walk) :
    P (walk.perform epsilon s motion) := by
  cases motion with
  | rotate angle unit =>
      have hangle := h angle List.mem_cons_self
      exact hP.bind hangle fun value => hP.pure _
  | forward distance stroke =>
      obtain ⟨hdistance, hstroke⟩ := List.forall_mem_cons.1 h
      exact hP.bind hdistance fun length =>
        hP.bind (hP.evaluateStroke hstroke) fun look => hP.pure _
  | shift dx dy stroke =>
      obtain ⟨hx, hrest⟩ := List.forall_mem_cons.1 h
      obtain ⟨hy, hstroke⟩ := List.forall_mem_cons.1 hrest
      exact hP.bind hx fun x => hP.bind hy fun y =>
        hP.bind (hP.evaluateStroke hstroke) fun look => hP.pure _

/-- What holds of evaluating every expression of the motion of a name, wherever the turtle is,
holds of visiting the symbol: brackets evaluate nothing. -/
theorem visit (hP : Compositional P) (walk : Walk) (i : Nat)
    (h : ∀ name, symbol = .named name → ∀ e ∈ (spec.motion name).parameters,
      P ((walk.context c).scope.evaluate e)) : P (walk.visit config spec c i symbol) := by
  cases symbol with
  | push =>
      rw [Walk.visit]
      split
      · exact hP.throw _
      · exact hP.pure _
  | pop =>
      rw [Walk.visit]
      split
      · exact hP.throw _
      · exact hP.pure _
  | named name =>
      have hmotion := hP.perform config.epsilon (h name rfl) walk.count
      refine hP.bind (hP.adapt _ hmotion) fun moved => ?_
      split
      · exact hP.pure _
      · exact hP.throw _

/-- A walk has the property when the expressions of all of its motions have it,
wherever the turtle is. -/
theorem follow (hP : Compositional P)
    (h : ∀ name, .named name ∈ u → ∀ e ∈ (spec.motion name).parameters, ∀ walk : Walk,
      P ((walk.context c).scope.evaluate e)) :
    ∀ (i : Nat) (walk : Walk), P (Walk.follow config spec c i u walk) := by
  induction u with
  | nil =>
      intro i walk
      exact hP.pure walk
  | cons symbol rest ih =>
      intro i walk
      have hvisit : P (walk.visit config spec c i symbol) := by
        apply hP.visit walk i
        intro name hname e he
        exact h name (hname ▸ List.mem_cons_self) e he walk
      refine hP.bind hvisit fun next => ?_
      exact ih (fun name hname => h name (List.mem_cons_of_mem symbol hname)) (i + 1) next

end Eval.Compositional

end LSystem
