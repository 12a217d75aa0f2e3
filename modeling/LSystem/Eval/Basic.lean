import LSystem.Eval.Context

/-!
# The value of an expression

Operands and arguments are evaluated from left to right.  A variable is
evaluated anew wherever it stands, so a variable bound to `random()` differs
from place to place.  Every expression on the way must have a finite value.

`evalWith` follows the tree and leaves variables to its argument `refer`;
`Scope.evalChain` ties the two together for a number of nested variables,
past which it fails before it looks at the name.
-/

namespace LSystem.Eval

open Syntax

/-- The value of an expression, which must be finite. -/
def finite (expr : Expr) (value : Float) : EvalM Float :=
  if value.isFinite then return value else throw (.nonFinite expr value)

/-- The value of an operator.  Division by either zero is an error. -/
def apply (op : Operator) (l r : Float) : EvalM Float :=
  match op with
  | .add => return l + r
  | .sub => return l - r
  | .mul => return l * r
  | .div => if r == 0 then throw .divisionByZero else return l / r

mutual

/-- The value of an expression whose variables have the values `refer`. -/
def evalWith (native : String → Option NativeFunction) (refer : String → EvalM Float) :
    Expr → EvalM Float
  | .num value => finite (.num value) value
  | .ident name => do
    let value ← refer name
    finite (.ident name) value
  | .call name args =>
    match native name with
    | none => throw (.unknownFunction name)
    | some f => do
      let values ← evalListWith native refer args
      let value ← f values
      finite (.call name args) value
  | .group inner => do
    let value ← evalWith native refer inner
    finite (.group inner) value
  | .binary op left right => do
    let l ← evalWith native refer left
    let r ← evalWith native refer right
    let value ← apply op l r
    finite (.binary op left right) value
  | .neg inner => do
    let value ← evalWith native refer inner
    finite (.neg inner) (-value)

/-- The values of arguments. -/
def evalListWith (native : String → Option NativeFunction) (refer : String → EvalM Float) :
    List Expr → EvalM (List Float)
  | [] => return []
  | e :: es => do
    let value ← evalWith native refer e
    let values ← evalListWith native refer es
    return value :: values

end

/-- The value of an expression by way of at most `references` nested
variables. -/
def Scope.evalChain (s : Scope) : (references : Nat) → Expr → EvalM Float
  | 0 => evalWith s.native fun _ => throw .depthExceeded
  | references + 1 => evalWith s.native fun name =>
    match s.bound name with
    | none => throw (.unknownVariable name)
    | some e => s.evalChain references e

/-- The value of an expression. -/
def Scope.evaluate (s : Scope) (e : Expr) : EvalM Float := s.evalChain maxReferences e

/-- The value of an expression and the context after its draws. -/
def Context.evaluate (c : Context) (e : Expr) : Except EvalError Float × Context :=
  c.run fun s => s.evaluate e

end LSystem.Eval
