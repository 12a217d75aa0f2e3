import LSystem.Eval.Context

/-!
# Builtin names

Every context starts with the constants `pi` and `e` and the functions
`random`, `min` and `max`.
-/

namespace LSystem.Eval

open Syntax Randomness

/-- The point that lies from `low` the part `u` of the way to `high`. -/
def between {α : Type} [Add α] [Sub α] [Mul α] (low high u : α) : α := low + (high - low) * u

/-- A random number from `low` on towards `high`. -/
def randomBetween (low high : Float) : EvalM Float := do
  let u ← draw
  return between low high u

/-- `random()` lies between 0 and 1, `random(high)` between 0 and `high`, and
`random(low, high)` between its arguments. -/
def random : NativeFunction
  | [] => randomBetween 0 1
  | [high] => randomBetween 0 high
  | [low, high] => randomBetween low high
  | args => throw (.arity "random" "0, 1 or 2" args.length)

/-- The argument that a choice between two prefers to all others. -/
def extremum (function : String) (choose : Float → Float → Float) : NativeFunction
  | [] => throw (.arity function "at least 1" 0)
  | first :: rest => return rest.foldl choose first

/-- The least argument. -/
def minimum : NativeFunction := extremum "min" fun a b => if b < a then b else a

/-- The greatest argument. -/
def maximum : NativeFunction := extremum "max" fun a b => if a < b then b else a

/-- The context of a run before it declares anything of its own. -/
def Context.initial (g : Generator) : Context where
  definitions := ⟨[("pi", .num 3.141592653589793), ("e", .num 2.718281828459045)]⟩
  functions := ⟨[("random", random), ("min", minimum), ("max", maximum)]⟩
  generator := g

end LSystem.Eval
