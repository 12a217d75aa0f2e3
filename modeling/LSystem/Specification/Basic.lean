import LSystem.Eval.Builtin
import LSystem.Syntax.Tree

/-!
# Specifications

A specification is what a program means: the string that a derivation starts
from, the rules by name, the motions by name, the variables, and the values
that the program sets for all symbols.  Whatever a program may leave out has
its default here.

Rules keep their order.  The `index` lists, for every name that has rules, the
positions of these rules.
-/

namespace LSystem

open Syntax Eval Randomness

/-- One way to replace a symbol. -/
structure Rule where
  name : String
  body : List Symbol
  /-- The weight of the rule among the rules of its name. -/
  bias : Expr

/-- The look of a line. -/
structure Stroke where
  width : Expr
  color : Color

/-- The look that a declaration asks for: width one and black where it does
not say. -/
def Stroke.ofOverride (s : StrokeOverride) : Stroke :=
  ⟨s.width.getD (.num 1), s.color.getD .black⟩

/-- A program with its defaults filled in. -/
structure Specification where
  start : List Symbol
  length : Expr
  width : Expr
  color : Color
  iterate : Expr
  rules : Array Rule
  /-- The positions of the rules of a name, in order. -/
  index : Bindings (List Nat)
  transforms : Bindings (Motion Stroke)
  definitions : List (String × Expr)

namespace Specification

/-- The motion of a symbol without a transform of its own. -/
def fallback (spec : Specification) : Motion Stroke :=
  .forward spec.length ⟨spec.width, spec.color⟩

/-- The motion of a symbol. -/
def motion (spec : Specification) (name : String) : Motion Stroke :=
  (spec.transforms.find? name).getD spec.fallback

/-- The context in which a run begins. -/
def context (spec : Specification) (g : Generator) : Context :=
  spec.definitions.foldl (fun c (name, value) => c.define name value) (.initial g)

end Specification

end LSystem
