import LSystem.Bindings
import LSystem.Eval.Error
import LSystem.Randomness.Generator

/-!
# Contexts

A context binds variables to expressions and names to native functions, and
holds the random generator of a run.  What an evaluation may look up is the
`Scope` of the context, two functions on names; what it may change is the
generator alone, which is the state of the monad `RandomM`.
-/

namespace LSystem.Eval

open Syntax Randomness

/-- Computations that may draw random numbers and may fail. -/
abbrev RandomM (ε : Type) := ExceptT ε (StateM Generator)

/-- Computations with the errors of evaluation. -/
abbrev EvalM := RandomM EvalError

/-- A function on numbers that is not written in the language. -/
abbrev NativeFunction := List Float → EvalM Float

/-- The next random draw. -/
def draw : EvalM Float := do
  let (x, g) := (← get).next
  set g
  return x

/-- What the names in an expression stand for. -/
structure Scope where
  /-- The expression that a variable is bound to. -/
  bound : String → Option Expr
  /-- The function of a name. -/
  native : String → Option NativeFunction

/-- The names and the generator of a run. -/
structure Context where
  definitions : Bindings Expr
  functions : Bindings NativeFunction
  generator : Generator

namespace Context

/-- What an evaluation sees of a context. -/
def scope (c : Context) : Scope := ⟨c.definitions.find?, c.functions.find?⟩

/-- The context with a variable bound to an expression. -/
def define (c : Context) (name : String) (value : Expr) : Context :=
  { c with definitions := c.definitions.insert name value }

/-- The context with a variable bound to a number. -/
def assign (c : Context) (name : String) (value : Float) : Context := c.define name (.num value)

/-- The context with a native function under a name. -/
def defineFunction (c : Context) (name : String) (f : NativeFunction) : Context :=
  { c with functions := c.functions.insert name f }

/-- The context with another generator. -/
def withGenerator (c : Context) (g : Generator) : Context := { c with generator := g }

/-- The answer of a computation over the scope of a context, and the context
after the draws it took. -/
def run {ε α : Type} (c : Context) (m : Scope → RandomM ε α) : Except ε α × Context :=
  let (answer, g) := (m c.scope).run.run c.generator
  (answer, c.withGenerator g)

end Context

end LSystem.Eval
