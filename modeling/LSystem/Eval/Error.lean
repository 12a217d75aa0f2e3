import LSystem.Syntax.Printer

/-!
# Evaluation errors

Why an expression, or the weight of a rule, has no value.
-/

namespace LSystem.Eval

open Syntax

/-- The longest chain of variables that one evaluation follows. -/
def maxReferences : Nat := 64

/-- Why there is no value. -/
inductive EvalError where
  | unknownVariable (name : String)
  | unknownFunction (name : String)
  /-- A function that was given a number of arguments it does not take. -/
  | arity (function expected : String) (found : Nat)
  | divisionByZero
  /-- A chain of more than `maxReferences` variables. -/
  | depthExceeded
  /-- An expression whose value is infinite or no number. -/
  | nonFinite (expr : Expr) (value : Float)
  /-- A weight that is negative, or weights that add up to nothing usable. -/
  | invalidBias (rule : String) (value : Float)

/-- The message of an error. -/
def EvalError.message : EvalError → String
  | .unknownVariable name => "No variable with name '" ++ name ++ "' exists"
  | .unknownFunction name => "No function with name '" ++ name ++ "' exists"
  | .arity function expected found =>
    "Function '" ++ function ++ "' expects " ++ expected ++ " argument(s), got " ++ toString found
  | .divisionByZero => "Division by zero"
  | .depthExceeded =>
    "Variable references nested deeper than " ++ toString maxReferences ++
      " (self-referential variable?)"
  | .nonFinite expr value =>
    "'" ++ expr.text ++ "' evaluated to " ++ Number.plain.write value
  | .invalidBias rule value =>
    "Invalid bias " ++ Number.plain.write value ++ " for rule '" ++ rule ++ "'"

end LSystem.Eval
