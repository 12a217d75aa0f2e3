import LSystem.Except
import LSystem.Rendering
import LSystem.Derivation.Basic
import LSystem.Specification.Build
import LSystem.Syntax.Parser.Program

/-!
# From a source to a drawing

A source is read and assembled into a specification, the specification is
developed for as many generations as it asks for, and the turtle draws what
has become of it.  Each of the four stages has errors of its own.
-/

namespace LSystem

open Syntax Randomness

/-- The error of a stage. -/
inductive Failure where
  | source (cause : SyntaxError)
  | specification (cause : SpecError)
  | derivation (cause : DerivationError)
  | rendering (cause : RenderError)

/-- The message of an error. -/
def Failure.message : Failure → String
  | .source cause => cause.describe
  | .specification cause => cause.message
  | .derivation cause => cause.message
  | .rendering cause => cause.message

/-- The specification of a source. -/
def compile (source : String) : Except Failure Specification := do
  let program ← (parseProgram source).mapError .source
  (Specification.ofProgram program).mapError .specification

/-- A source compiles when it is read as a program that has a specification. An error of either
stage is an error of the whole, so nothing compiles by half. -/
theorem compile_eq_ok_iff {source : String} {spec : Specification} :
    compile source = .ok spec ↔
      ∃ program, parseProgram source = .ok program ∧
        Specification.ofProgram program = .ok spec := by
  unfold compile
  constructor
  · intro h
    cases hparse : parseProgram source with
    | error e =>
        rw [hparse] at h
        cases h
    | ok program =>
        rw [hparse] at h
        exact ⟨program, rfl, mapError_eq_ok_iff.1 h⟩
  · rintro ⟨program, hparse, hspec⟩
    rw [hparse]
    exact mapError_eq_ok_iff.2 hspec

/-- A run at the start string of a specification. -/
def Specification.begin (spec : Specification) (maxSymbols : Nat) (seed : UInt64) : Run :=
  ⟨.new spec maxSymbols, spec.context (.ofSeed seed)⟩

/-- A run after all generations that its specification asks for. -/
def Run.develop (run : Run) : Except Failure Run :=
  match run.iterate with
  | (.ok (), done) => .ok done
  | (.error e, _) => .error (.derivation e)

/-- A run develops to another exactly if iterating it succeeds there; developing adds nothing but
the form of the failure. -/
theorem Run.develop_eq_ok_iff {run done : Run} :
    run.develop = .ok done ↔ run.iterate = (.ok (), done) := by
  unfold Run.develop
  match run.iterate with
  | (.ok (), last) => simp
  | (.error e, last) => simp

/-- The drawing of the symbols of a run. -/
def Run.draw (run : Run) (config : RenderConfig) : Except Failure (Drawing Float) :=
  (render config run.derivation.spec run.context run.derivation.symbols).mapError .rendering

end LSystem
