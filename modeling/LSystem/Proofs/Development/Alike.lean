import LSystem.Development
import LSystem.Proofs.Eval.Answer

/-!
# What a run reads

A run and a drawing do not see all of a specification and of a context.  Of a
context they read what its names stand for and the generator; of a specification
the start string, the iteration count, the rule that is chosen for a name and
its motion, but not where the rule stands.  Two that agree in all of this are
`Alike`, and `Run.Alike.outcome` says that nothing that comes of alike runs
differs.
-/

namespace LSystem

open Syntax Eval Randomness

/-! ### Contexts -/

namespace Eval

/-- Contexts in which all names stand for the same and that draw the same. -/
structure Context.Alike (c c' : Context) : Prop where
  scope : c.scope = c'.scope
  generator : c.generator = c'.generator

namespace Context.Alike

variable {c c' : Context}

/-- A number bound to the same name in alike contexts leaves them alike. -/
theorem assign (h : c.Alike c') (name : String) (value : Float) :
    (c.assign name value).Alike (c'.assign name value) := by
  have hbound (other : String) : c.definitions.find? other = c'.definitions.find? other :=
    congrFun (congrArg Scope.bound h.scope) other
  have hnative : c.functions.find? = c'.functions.find? := congrArg Scope.native h.scope
  have hassigned : (c.definitions.insert name (.num value)).find? =
      (c'.definitions.insert name (.num value)).find? := by
    funext other
    rw [Bindings.find?_insert, Bindings.find?_insert, hbound]
  have hscope : Scope.mk (c.definitions.insert name (.num value)).find? c.functions.find? =
      Scope.mk (c'.definitions.insert name (.num value)).find? c'.functions.find? := by
    rw [hassigned, hnative]
  exact ⟨hscope, h.generator⟩

/-- The same computation has the same answer, and leaves the contexts alike. -/
theorem run {ε α : Type} (h : c.Alike c') (m m' : Scope → RandomM ε α)
    (hm : m c.scope = m' c'.scope) :
    ∃ answer next next', c.run m = (answer, next) ∧ c'.run m' = (answer, next') ∧
      next.Alike next' := by
  have hrun : c.run m = ((c'.run m').1, c.withGenerator (c'.run m').2.generator) := by
    unfold Context.run
    rw [hm, h.generator]
    rfl
  exact ⟨_, _, _, hrun, rfl, h.scope, rfl⟩

end Context.Alike

/-- Renaming errors does not touch answers. Both act on the result of the same run, one on its
errors and the other on its answers. -/
theorem adapt_map {ε ε' α β : Type} (m : RandomM ε α) (p : α → β) (f : ε → ε') :
    (p <$> m).adapt f = p <$> m.adapt f := by
  funext g
  change (ExceptT.adapt f (p <$> m)).run.run g = (p <$> ExceptT.adapt f m).run.run g
  rw [run_adapt, map_eq_pure_bind, map_eq_pure_bind, run_bind, run_bind, run_adapt]
  match m.run.run g with
  | (.ok a, next) => rfl
  | (.error e, next) => rfl

end Eval

/-! ### Specifications -/

/-- Specifications that agree in all that a run and a drawing read. -/
structure Specification.Alike (spec other : Specification) : Prop where
  start : spec.start = other.start
  iterate : spec.iterate = other.iterate
  motion : spec.motion = other.motion
  choose : ∀ s name, Option.map Choice.rule <$> spec.choose s name =
    Option.map Choice.rule <$> other.choose s name

/-! ### Generations -/

/-- The scan after one more symbol, which is replaced by the body of a rule if it
has one. -/
def Scan.write (scan : Scan) (symbol : Symbol) : Option Rule → Scan
  | some rule => ⟨rule.body.reverseAux scan.written, scan.length + rule.body.length, true⟩
  | none => ⟨symbol :: scan.written, scan.length + 1, scan.matched⟩

/-- Of a choice a scan reads the rule, and not where this rule stands in the specification. -/
theorem Scan.add_eq_write (scan : Scan) (symbol : Symbol) (choice : Option Choice) :
    scan.add symbol choice = scan.write symbol (choice.map Choice.rule) := by
  cases choice with
  | none => rfl
  | some choice => rfl

/-- Derivations of alike specifications that have come to the same string. -/
structure Derivation.Alike (d d' : Derivation) : Prop where
  spec : d.spec.Alike d'.spec
  maxSymbols : d.maxSymbols = d'.maxSymbols
  symbols : d.symbols = d'.symbols
  generations : d.generations = d'.generations

namespace Derivation

variable {d d' : Derivation}

/-- Of a choice a scan uses the rule alone. So two specifications that choose the same rules,
wherever these stand, scan alike. -/
theorem scanSymbol_eq (d : Derivation) (s : Scope) (scan : Scan) (symbol : Symbol) :
    d.scanSymbol s scan symbol =
      (Option.map Choice.rule <$> chooseFor d.spec s symbol).adapt .evaluation >>= fun rule =>
        scanSymbol.liftExcept (d.allow (scan.write symbol rule)) := by
  rw [adapt_map, bind_map_left]
  refine bind_congr fun choice => ?_
  rw [Scan.add_eq_write]

/-- Alike derivations go on in the same way with every symbol. The rule is chosen among the same
ones, and the same limit is checked. -/
theorem Alike.scanSymbol (h : d.Alike d') (s : Scope) (scan : Scan) (symbol : Symbol) :
    d.scanSymbol s scan symbol = d'.scanSymbol s scan symbol := by
  have hchoose : Option.map Choice.rule <$> chooseFor d.spec s symbol =
      Option.map Choice.rule <$> chooseFor d'.spec s symbol := by
    cases symbol with
    | named name => exact h.spec.choose s name
    | push => rfl
    | pop => rfl
  have hallow (next : Scan) : d.allow next = d'.allow next := by
    rw [allow, allow, h.maxSymbols, h.generations]
  rw [scanSymbol_eq, scanSymbol_eq, hchoose]
  refine bind_congr fun rule => ?_
  rw [hallow]

/-- Alike derivations come to the same next string, with the same draws, since they go on in the
same way with every symbol of the same string. -/
theorem Alike.scan (h : d.Alike d') (s : Scope) : d.scan s = d'.scan s := by
  have hscan : d.scanSymbol s = d'.scanSymbol s := by
    funext scan symbol
    exact h.scanSymbol s scan symbol
  rw [Derivation.scan, Derivation.scan, hscan, h.symbols]

end Derivation

/-! ### Runs -/

/-- Runs that agree in all that they read. -/
structure Run.Alike (run run' : Run) : Prop where
  derivation : run.derivation.Alike run'.derivation
  context : run.context.Alike run'.context

/-- Ends with the same answer and with alike runs. -/
inductive Run.EndAlike {ε α : Type} : Except ε α × Run → Except ε α × Run → Prop
  | intro (answer : Except ε α) {last last' : Run} (hlast : last.Alike last') :
      EndAlike (answer, last) (answer, last')

namespace Run

variable {run run' : Run}

/-- Alike runs that take over the same string are alike. The counter goes up in both, and both
bind the two variables to it. -/
theorem Alike.accept (h : run.Alike run') (u : List Symbol) :
    (run.accept u).Alike (run'.accept u) := by
  refine ⟨⟨h.derivation.spec, h.derivation.maxSymbols, rfl, ?_⟩, ?_⟩
  · exact congrArg (· + 1) h.derivation.generations
  · unfold Run.accept
    rw [h.derivation.generations]
    exact h.context.assign "depth" _

/-- Alike runs are alike back at their start strings, which are the same. -/
theorem Alike.restart (h : run.Alike run') (target : Nat) :
    (run.restart target).Alike (run'.restart target) := by
  refine ⟨⟨h.derivation.spec, h.derivation.maxSymbols, h.derivation.spec.start, rfl⟩, ?_⟩
  exact (h.context.assign "iterations" _).assign "depth" 0

/-- Alike runs take alike steps. They scan the same string in the same scope, and so they end
alike: with the same answer or the same error. -/
theorem Alike.step (h : run.Alike run') : EndAlike run.step run'.step := by
  obtain ⟨answer, c, c', hc, hc', hcontext⟩ :=
    h.context.run run.derivation.scan run'.derivation.scan
      (by rw [h.derivation.scan, h.context.scope])
  have hnext : Run.Alike { run with context := c } { run' with context := c' } :=
    ⟨h.derivation, hcontext⟩
  unfold Run.step
  rw [hc, hc']
  cases answer with
  | error e => exact .intro _ hnext
  | ok scan =>
      simp only
      split
      · exact .intro _ (hnext.accept scan.symbols)
      · exact .intro _ hnext

/-- Alike runs end alike after any number of steps; the induction takes the first step of both at
once. -/
theorem Alike.steps (n : Nat) : ∀ {run run' : Run}, run.Alike run' →
    EndAlike (run.steps n) (run'.steps n) := by
  induction n with
  | zero =>
      intro run run' h
      exact .intro _ h
  | succ n ih =>
      intro run run' h
      have hstep := h.step
      rw [Run.steps, Run.steps]
      generalize run.step = stepped, run'.step = stepped' at hstep
      cases hstep with
      | intro answer hnext =>
          match answer with
          | .error e => exact .intro _ hnext
          | .ok false => exact .intro _ hnext
          | .ok true => exact ih hnext

/-- Alike runs take alike generations. The loop asks both for the same number of steps, and every
step keeps them alike. -/
theorem Alike.iterate (h : run.Alike run') : EndAlike run.iterate run'.iterate := by
  obtain ⟨answer, c, c', hc, hc', hcontext⟩ := h.context.run
    (fun s => s.evaluate run.derivation.spec.iterate)
    (fun s => s.evaluate run'.derivation.spec.iterate)
    (by rw [h.context.scope, h.derivation.spec.iterate])
  have hnext : Run.Alike { run with context := c } { run' with context := c' } :=
    ⟨h.derivation, hcontext⟩
  unfold Run.iterate Context.evaluate
  rw [hc, hc']
  cases answer with
  | error e => exact .intro _ hnext
  | ok requested => exact (hnext.restart _).steps _

end Run

/-! ### Drawings -/

variable {config : RenderConfig} {spec other : Specification} {c c' : Context}

/-- A turtle on its way sees the same in alike contexts, since it binds the same to the names of
its own. -/
theorem Walk.alike_context (walk : Walk) (hc : c.Alike c') :
    (walk.context c).Alike (walk.context c') :=
  (((hc.assign "x" _).assign "y" _).assign "heading" _).assign "depth" _

/-- What a symbol does is told by the motions and by what is seen from each walk. -/
theorem Walk.visit_congr (hmotion : spec.motion = other.motion)
    (hseen : ∀ walk : Walk, (walk.context c).scope = (walk.context c').scope) (walk : Walk)
    (position : Nat) (symbol : Symbol) : walk.visit config spec c position symbol =
      walk.visit config other c' position symbol := by
  cases symbol with
  | named name => rw [visit, visit, hmotion, hseen walk]
  | push => rfl
  | pop => rfl

/-- Two turtles draw the same along a string when the motions of names are the same and all that
they see while they walk is. -/
theorem Walk.follow_congr (hmotion : spec.motion = other.motion)
    (hseen : ∀ walk : Walk, (walk.context c).scope = (walk.context c').scope)
    (u : List Symbol) : ∀ (position : Nat) (walk : Walk),
      Walk.follow config spec c position u walk = Walk.follow config other c' position u walk := by
  induction u with
  | nil =>
      intro position walk
      rfl
  | cons symbol rest ih =>
      intro position walk
      rw [follow, follow, visit_congr hmotion hseen]
      exact bind_congr fun next => ih (position + 1) next

/-- A drawing reads the motions of the specification alone, and of the context what is seen
from each walk and the generator. -/
theorem render_congr (hmotion : spec.motion = other.motion)
    (hseen : ∀ walk : Walk, (walk.context c).scope = (walk.context c').scope)
    (hgenerator : c.generator = c'.generator) (u : List Symbol) :
    render config spec c u = render config other c' u := by
  unfold render
  rw [Walk.follow_congr hmotion hseen, hgenerator]

/-! ### Outcomes -/

/-- What comes of a run: the string after all generations, their number, and the
drawing of the string or the reason why there is none. -/
structure Outcome where
  symbols : List Symbol
  generations : Nat
  drawing : Except Failure (Drawing Float)

/-- What comes of a run that does not fail in a generation. -/
def Run.outcome (run : Run) (config : RenderConfig) : Except Failure Outcome := do
  let done ← run.develop
  return ⟨done.derivation.symbols, done.derivation.generations, done.draw config⟩

/-- **Alike runs come to the same.** The string, the number of generations, the drawing and every
error are the same, from the same generator. -/
theorem Run.Alike.outcome {run run' : Run} (h : run.Alike run') (config : RenderConfig) :
    run.outcome config = run'.outcome config := by
  have hiterate := h.iterate
  unfold Run.outcome Run.develop
  generalize run.iterate = last, run'.iterate = last' at hiterate
  cases hiterate with
  | intro answer hdone =>
      rename_i done done'
      have hdraw : done.draw config = done'.draw config := by
        unfold Run.draw
        rw [render_congr hdone.derivation.spec.motion
          (fun walk => (walk.alike_context hdone.context).scope) hdone.context.generator,
          hdone.derivation.symbols]
      cases answer with
      | error e => rfl
      | ok value =>
          change Except.ok _ = Except.ok _
          rw [hdone.derivation.symbols, hdone.derivation.generations, hdraw]

end LSystem
