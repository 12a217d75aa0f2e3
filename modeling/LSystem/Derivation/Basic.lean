import LSystem.Specification.Choice

/-!
# Derivations

A derivation takes the start string from generation to generation.  One
generation replaces every symbol that has a rule, all at once: a replacement
is not looked at again before the next generation.  A generation reads the
symbols from left to right, because weights may draw random numbers, and gives
up as soon as what it has written is too long.

A `Run` is a derivation together with the context it evaluates weights in.  A
step that fails leaves the symbols, their generation and all variables as they
were; only draws that were taken stay taken.
-/

namespace LSystem

open Syntax Eval Randomness

/-- Why a derivation stops short. -/
inductive DerivationError where
  | evaluation (cause : EvalError)
  /-- A generation with more symbols than allowed. -/
  | tooLong (generation length limit : Nat)

/-- The message of an error. -/
def DerivationError.message : DerivationError → String
  | .evaluation cause => cause.message
  | .tooLong generation length limit =>
    "Generation " ++ toString generation ++ " produced " ++ toString length ++
      " symbols, exceeding the limit of " ++ toString limit

/-- The most symbols of a generation unless a run says otherwise. -/
def defaultMaxSymbols : Nat := 10000000

/-- What a generation has written so far. -/
structure Scan where
  /-- The symbols written, the last one first. -/
  written : List Symbol
  /-- The number of symbols written. -/
  length : Nat
  /-- Whether a rule was applied. -/
  matched : Bool

namespace Scan

/-- Nothing written yet. -/
def empty : Scan := ⟨[], 0, false⟩

/-- The symbols written, in order. -/
def symbols (scan : Scan) : List Symbol := scan.written.reverse

/-- The scan after one more symbol: the body of its rule, or the symbol itself. -/
def add (scan : Scan) (symbol : Symbol) : Option Choice → Scan
  | some choice =>
    ⟨choice.rule.body.reverseAux scan.written, scan.length + choice.rule.body.length, true⟩
  | none => ⟨symbol :: scan.written, scan.length + 1, scan.matched⟩

end Scan

/-- The rule for a symbol; brackets have none. -/
def chooseFor (spec : Specification) (s : Scope) : Symbol → EvalM (Option Choice)
  | .named name => spec.choose s name
  | .push | .pop => return none

/-- A derivation and how far it has come. -/
structure Derivation where
  spec : Specification
  maxSymbols : Nat
  symbols : List Symbol
  /-- The number of generations between the start string and `symbols`. -/
  generations : Nat

namespace Derivation

/-- A derivation at the start string. -/
def new (spec : Specification) (maxSymbols : Nat) : Derivation := ⟨spec, maxSymbols, spec.start, 0⟩

/-- A scan that has not become too long. -/
def allow (d : Derivation) (scan : Scan) : Except DerivationError Scan :=
  if d.maxSymbols < scan.length then .error (.tooLong (d.generations + 1) scan.length d.maxSymbols)
  else .ok scan

/-- The scan after one more symbol. -/
def scanSymbol (d : Derivation) (s : Scope) (scan : Scan) (symbol : Symbol) :
    RandomM DerivationError Scan := do
  let choice ← (chooseFor d.spec s symbol).adapt .evaluation
  liftExcept (d.allow (scan.add symbol choice))
where
  /-- A result that needs no random numbers. -/
  liftExcept : Except DerivationError Scan → RandomM DerivationError Scan
    | .ok scan => return scan
    | .error e => throw e

/-- The next generation of all symbols. -/
def scan (d : Derivation) (s : Scope) : RandomM DerivationError Scan :=
  d.symbols.foldlM (d.scanSymbol s) .empty

end Derivation

/-- A derivation and the context of its run. -/
structure Run where
  derivation : Derivation
  context : Context

namespace Run

/-- A run whose next generation is there: the variable `depth` counts it. -/
def accept (run : Run) (symbols : List Symbol) : Run :=
  let generations := run.derivation.generations + 1
  { derivation := { run.derivation with symbols, generations }
    context := run.context.assign "depth" (Number.ofNat generations) }

/-- One generation, and whether any rule was applied in it. -/
def step (run : Run) : Except DerivationError Bool × Run :=
  match run.context.run run.derivation.scan with
  | (.error e, context) => (.error e, { run with context })
  | (.ok scan, context) =>
    if scan.matched then (.ok true, ({ run with context } : Run).accept scan.symbols)
    else (.ok false, { run with context })

/-- At most a number of generations; one without a rule is the last. -/
def steps : Nat → Run → Except DerivationError Unit × Run
  | 0, run => (.ok (), run)
  | n + 1, run =>
    match run.step with
    | (.error e, next) => (.error e, next)
    | (.ok false, next) => (.ok (), next)
    | (.ok true, next) => next.steps n

/-- A run that goes back to the start string and is to take a number of
generations: the variable `iterations` holds it. -/
def restart (run : Run) (target : Nat) : Run where
  derivation := .new run.derivation.spec run.derivation.maxSymbols
  context := (run.context.assign "iterations" (Number.ofNat target)).assign "depth" 0

/-- The generations that the specification asks for, from the start string on. -/
def iterate (run : Run) : Except DerivationError Unit × Run :=
  match run.context.evaluate run.derivation.spec.iterate with
  | (.error e, context) => (.error (.evaluation e), { run with context })
  | (.ok requested, context) =>
    let target := Number.toCount requested
    (({ run with context } : Run).restart target).steps target

end Run

end LSystem
