import LSystem.Derivation.Basic

/-!
# What happened in a run

`Run.iterate` answers with the end of a run alone.  The history of the run goes
through it a second time, from the same context, and tells what happened on
the way: each weighted choice, each generation, and why the run ended early.
-/

namespace LSystem

open Syntax Eval Randomness

/-- Something worth telling about a run. -/
inductive Event where
  /-- The number of generations asked for is below zero and counts as zero. -/
  | negativeCount (requested : Float)
  /-- A rule for a name was chosen by its weight. -/
  | weighed (name : String) (weighing : Weighing)
  | rewrote (generation symbols : Nat)
  /-- No symbol had a rule, so that further generations change nothing. -/
  | unmatched (generation : Nat)

/-- What there is to tell about a choice. -/
def eventOfChoice : Symbol → Option Choice → List Event
  | .named name, some ⟨_, _, some weighing⟩ => [.weighed name weighing]
  | _, _ => []

/-- The weighted choices of a scan, put before earlier events, the last one
first. -/
def Derivation.choices (d : Derivation) (s : Scope) :
    List Symbol → Scan → Generator → List Event → List Event
  | [], _, _, events => events
  | symbol :: rest, scan, g, events =>
    match (chooseFor d.spec s symbol).run.run g with
    | (.error _, _) => events
    | (.ok choice, g) =>
      let events := eventOfChoice symbol choice ++ events
      match d.allow (scan.add symbol choice) with
      | .error _ => events
      | .ok scan => d.choices s rest scan g events

namespace Run

/-- The events of the next generation. -/
def stepEvents (run : Run) : List Event :=
  let choices := run.derivation.choices run.context.scope run.derivation.symbols .empty
    run.context.generator []
  choices.reverse ++
    match run.step with
    | (.error _, _) => []
    | (.ok true, next) => [.rewrote next.derivation.generations next.derivation.symbols.length]
    | (.ok false, next) => [.unmatched next.derivation.generations]

/-- The events of at most a number of generations. -/
def stepsEvents : Nat → Run → List Event
  | 0, _ => []
  | n + 1, run =>
    run.stepEvents ++
      match run.step with
      | (.ok true, next) => next.stepsEvents n
      | _ => []

/-- The events before the first generation. -/
def warnings (run : Run) : List Event :=
  match (run.context.evaluate run.derivation.spec.iterate).1 with
  | .error _ => []
  | .ok requested =>
    let whole := Number.floor requested
    if whole < 0 then [.negativeCount (Number.ofInt whole)] else []

/-- The events of the generations that the specification asks for. -/
def generationEvents (run : Run) : List Event :=
  match run.context.evaluate run.derivation.spec.iterate with
  | (.error _, _) => []
  | (.ok requested, context) =>
    let target := Number.toCount requested
    (({ run with context } : Run).restart target).stepsEvents target

end Run

end LSystem
