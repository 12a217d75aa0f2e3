import LSystem.Proofs.Derivation.Morphism
import LSystem.Proofs.Development.Reordering
import LSystem.Proofs.Eval.Steady
import LSystem.Proofs.Rendering.Composition
import LSystem.Proofs.Syntax.RoundTrip

/-!
# Programs that no seed changes

Draws are taken for weights and by calls of `random`.  Where no name has two rules,
no weight is looked at, and where nothing but weights calls `random`, nothing else
draws, so that all generations and the drawing are the same for every seed.

At each level this is one statement: from every generator on the same comes out,
and the generator is left as it was.  For expressions it is `Steady`, for a run
`Run.Settles`, which goes through the steps of a run like an invariant.
-/

namespace LSystem

open Syntax Eval Randomness

/-! ### Programs without a call of `random` -/

/-- No expression of the program calls `random`, except perhaps for the weight of a
rule. -/
def Syntax.Program.Seedless (program : Program) : Prop :=
  ∀ d ∈ program, d.rule? = none → ∀ e ∈ d.expressions, e.Seedless

/-- No call of `random` is in the iteration count, in the motions of names or behind
a variable. -/
structure Specification.Seedless (spec : Specification) : Prop where
  iterate : spec.iterate.Seedless
  motion : ∀ name, ∀ e ∈ (spec.motion name).parameters, e.Seedless
  definitions : ∀ entry ∈ spec.definitions, entry.2.Seedless

/-- A value that is found after some were set is one of these, or was there before. -/
theorem Bindings.find?_insertAll_cases {α : Type} {b : Bindings α}
    {entries : List (String × α)} {name : String} {value : α}
    (h : (b.insertAll entries).find? name = some value) :
    (name, value) ∈ entries ∨ b.find? name = some value := by
  rw [find?_insertAll, Option.or_eq_some_iff] at h
  rcases h with hlast | ⟨-, hbefore⟩
  · obtain ⟨entry, hentry, rfl⟩ := Option.map_eq_some_iff.1 hlast
    have hmem := List.mem_filter.1 (List.mem_of_getLast? hentry)
    rw [beq_iff_eq] at hmem
    obtain ⟨hmem, rfl⟩ := hmem
    exact .inl hmem
  · exact .inr hbefore

section Parameters

variable {P : Expr → Prop}

/-- What holds of numbers and of the expressions that are given for a stroke holds of all
expressions of the stroke. -/
theorem Stroke.forall_parameters_ofOverride {look : StrokeOverride} (hnum : ∀ x, P (.num x))
    (h : ∀ e ∈ look.expressions, P e) : ∀ e ∈ (Stroke.ofOverride look).parameters, P e := by
  obtain ⟨width, color⟩ := look
  cases width <;> cases color <;>
    simp_all [StrokeOverride.expressions, Color.expressions, Stroke.parameters, Stroke.ofOverride,
      Color.black, Color.gray]

/-- What holds of numbers and of the expressions of a motion holds of all that the
motion is performed by, its defaults included. -/
theorem Syntax.Motion.forall_parameters_map {motion : Motion StrokeOverride}
    (hnum : ∀ x, P (.num x)) (h : ∀ e ∈ motion.expressions, P e) :
    ∀ e ∈ (motion.map Stroke.ofOverride).parameters, P e := by
  cases motion with
  | rotate angle unit => exact h
  | forward distance look =>
      obtain ⟨hdistance, hlook⟩ := List.forall_mem_cons.1 h
      exact List.forall_mem_cons.2 ⟨hdistance, Stroke.forall_parameters_ofOverride hnum hlook⟩
  | shift dx dy look =>
      obtain ⟨hx, hrest⟩ := List.forall_mem_cons.1 h
      obtain ⟨hy, hlook⟩ := List.forall_mem_cons.1 hrest
      exact List.forall_mem_cons.2
        ⟨hx, List.forall_mem_cons.2 ⟨hy, Stroke.forall_parameters_ofOverride hnum hlook⟩⟩

end Parameters

/-- The expressions of the value of a global. -/
def Global.expressions : (what : Global) → what.Value → List Expr
  | .start, _ => []
  | .length, value | .width, value | .iterate, value => [value]
  | .color, value => Color.expressions value

/-- A declaration of a global is no rule and has the expressions of its value. -/
theorem Syntax.Declaration.expressions_of_global? {d : Declaration} {what : Global}
    {value : what.Value} (h : d.global? what = some value) :
    d.rule? = none ∧ d.expressions = what.expressions value := by
  cases d <;> cases what <;> cases h <;> exact ⟨rfl, rfl⟩

namespace Syntax.Program.Seedless

variable {program : Program}

/-- The value of a global in such a program has no call of `random`. -/
theorem value? (h : program.Seedless) {what : Global} {value : what.Value}
    (hvalue : program.inventory.value? what = some value) :
    ∀ e ∈ what.expressions value, e.Seedless := by
  obtain ⟨d, hd, hglobal⟩ := List.mem_filterMap.1 (List.mem_of_head? hvalue)
  obtain ⟨hrule, hexpressions⟩ := Declaration.expressions_of_global? hglobal
  rw [← hexpressions]
  exact h d hd hrule

/-- A global has no call of `random` when its default has none. -/
theorem getD (h : program.Seedless) (what : Global) {default : what.Value}
    (hdefault : ∀ e ∈ what.expressions default, e.Seedless) :
    ∀ e ∈ what.expressions ((program.inventory.value? what).getD default), e.Seedless := by
  cases hvalue : program.inventory.value? what with
  | none => exact hdefault
  | some value => exact h.value? hvalue

/-- The motions that a program without calls of `random` declares have none in their
expressions. -/
theorem transforms (h : program.Seedless) {name : String} {motion : Motion Stroke}
    (hmotion : (name, motion) ∈ program.transforms) : ∀ e ∈ motion.parameters, e.Seedless := by
  obtain ⟨d, hd, htransform⟩ := List.mem_filterMap.1 hmotion
  cases d with
  | transform other look =>
      cases htransform
      exact Motion.forall_parameters_map Expr.seedless_num (h _ hd rfl)
  | _ => cases htransform

/-- Nor have the expressions that its variables are bound to. -/
theorem definitions (h : program.Seedless) {entry : String × Expr}
    (hentry : entry ∈ program.inventory.definitions) : entry.2.Seedless := by
  obtain ⟨d, hd, hdefinition⟩ := List.mem_filterMap.1 hentry
  cases d with
  | var name value =>
      cases hdefinition
      exact h _ hd rfl value List.mem_cons_self
  | _ => cases hdefinition

end Syntax.Program.Seedless

namespace Specification

variable {program : Program} {spec : Specification}

/-- What stands for a name at first turns by a fixed angle. -/
theorem seedless_blank {name : String} {motion : Motion Stroke}
    (h : Draft.blank.transforms.find? name = some motion) :
    ∀ e ∈ motion.parameters, e.Seedless := by
  have hturn (angle : Float) :
      ∀ e ∈ (Motion.rotate (.num angle) .deg : Motion Stroke).parameters, e.Seedless :=
    List.forall_mem_singleton.2 (Expr.seedless_num angle)
  rcases List.mem_pair.1 (Bindings.mem_of_find? h) with hleft | hright
  · obtain ⟨-, rfl⟩ := Prod.mk.inj hleft
    exact hturn 90
  · obtain ⟨-, rfl⟩ := Prod.mk.inj hright
    exact hturn (-90)

/-- The specification of a program without calls of `random` has none. Every expression of the
specification is one that the program declares or a number that stands for a default. -/
theorem seedless_of_holds (h : spec.Holds program) (hprogram : program.Seedless) :
    spec.Seedless := by
  have hnumber (x : Float) : ∀ e ∈ [Expr.num x], e.Seedless :=
    List.forall_mem_singleton.2 (Expr.seedless_num x)
  have hblack : ∀ e ∈ Color.black.expressions, e.Seedless := by
    simp [Color.expressions, Color.black, Color.gray, Expr.seedless_num]
  have hlength := hprogram.getD .length (hnumber 1)
  have hwidth := hprogram.getD .width (hnumber 1)
  have hiterate := hprogram.getD .iterate (hnumber 1)
  have hcolor := hprogram.getD .color hblack
  rw [← h.length] at hlength
  rw [← h.width] at hwidth
  rw [← h.iterate] at hiterate
  rw [← h.color] at hcolor
  constructor
  · exact List.forall_mem_singleton.1 hiterate
  · intro name
    unfold motion
    cases hfind : spec.transforms.find? name with
    | none =>
        refine List.forall_mem_cons.2 ⟨List.forall_mem_singleton.1 hlength, ?_⟩
        exact List.forall_mem_cons.2 ⟨List.forall_mem_singleton.1 hwidth, hcolor⟩
    | some motion =>
        rw [h.transforms] at hfind
        rcases Bindings.find?_insertAll_cases hfind with hdeclared | hblank
        · exact hprogram.transforms hdeclared
        · exact seedless_blank hblank
  · intro entry hentry
    rw [h.definitions] at hentry
    exact hprogram.definitions hentry

/-! ### The context of a run -/

/-- The context at the start of a run is the same for all generators, but for the generator. -/
theorem context_withGenerator (spec : Specification) (g g' : Generator) :
    (spec.context g).withGenerator g' = spec.context g' := by
  rw [context, context, foldl_define, foldl_define]
  rfl

/-- A run begins in a context that binds nothing with a call of `random`. -/
theorem Seedless.context (h : spec.Seedless) (g : Generator) : (spec.context g).Seedless := by
  have hinitial := Context.seedless_initial g
  rw [Specification.context, foldl_define]
  refine ⟨fun name e he => ?_, hinitial.native⟩
  rcases Bindings.find?_insertAll_cases he with hdefined | hbefore
  · exact h.definitions _ hdefined
  · exact hinitial.bound name e hbefore

end Specification

/-! ### Runs -/

namespace Run

/-- Nothing that a run does asks for a draw. -/
structure Seedless (run : Run) : Prop where
  indexed : Indexed run.derivation.spec.rules run.derivation.spec.index
  deterministic : run.derivation.spec.Deterministic
  spec : run.derivation.spec.Seedless
  context : run.context.Seedless

/-- A call ends in the same way from every generator on, leaves the generator as it
was, and leaves a run that asks for no draw. -/
def Settles {ε α : Type} (call : Run → Except ε α × Run) (run : Run) : Prop :=
  ∃ answer, ∃ last : Run, last.Seedless ∧ ∀ g, call (run.afterDraws g) = (answer, last.afterDraws g)

variable {run : Run}

/-- A generation binds the depth to a number, and so it keeps a run from asking for draws. -/
theorem Seedless.accept (h : run.Seedless) (u : List Symbol) : (run.accept u).Seedless :=
  ⟨h.indexed, h.deterministic, h.spec, h.context.assign "depth" _⟩

/-- To go back to the start string binds two numbers, and so it keeps a run from asking for
draws. -/
theorem Seedless.restart (h : run.Seedless) (target : Nat) : (run.restart target).Seedless :=
  ⟨h.indexed, h.deterministic, h.spec, (h.context.assign "iterations" _).assign "depth" 0⟩

/-- A single step settles: no name has two rules, so it neither weighs nor draws. It ends in the
same way from every generator and leaves the generator alone. -/
theorem Seedless.settles_step (h : run.Seedless) : Settles step run := by
  have hstep (g : Generator) :=
    (step_eq_rewrite h.indexed h.deterministic : (run.afterDraws g).step = _)
  have hrewrite (g : Generator) : (run.afterDraws g).derivation.rewrite = run.derivation.rewrite :=
    rfl
  cases hcase : run.derivation.rewrite with
  | error e =>
      simp only [hrewrite, hcase] at hstep
      exact ⟨_, run, h, hstep⟩
  | ok scan =>
      simp only [hrewrite, hcase] at hstep
      by_cases hmatched : scan.matched = true
      · simp only [if_pos hmatched] at hstep
        exact ⟨_, run.accept scan.symbols, h.accept _, hstep⟩
      · simp only [if_neg hmatched] at hstep
        exact ⟨_, run, h, hstep⟩

/-- Any number of steps settles, because each of them leaves a run that asks for no draw. -/
theorem Seedless.settles_steps (n : Nat) : ∀ {run : Run}, run.Seedless → Settles (steps n) run := by
  induction n with
  | zero =>
      intro run h
      exact ⟨.ok (), run, h, fun g => rfl⟩
  | succ n ih =>
      intro run h
      obtain ⟨answer, next, hnext, hstep⟩ := h.settles_step
      simp only [Settles, steps, hstep]
      cases answer with
      | error e => exact ⟨.error e, next, hnext, fun g => rfl⟩
      | ok goes =>
          cases goes with
          | false => exact ⟨.ok (), next, hnext, fun g => rfl⟩
          | true => exact ih hnext

/-- Going back to the start keeps the generator. It goes back to the start string, not to the
seed. -/
theorem restart_afterDraws (run : Run) (g : Generator) (target : Nat) :
    (run.afterDraws g).restart target = (run.restart target).afterDraws g := by
  unfold afterDraws restart
  rw [Context.assign_withGenerator, Context.assign_withGenerator]

/-- A call for all generations settles, with the count that it evaluates first. The count is an
expression without a call of `random`, and each step settles. -/
theorem Seedless.settles_iterate (h : run.Seedless) : Settles iterate run := by
  have hsteady := h.context.evaluate h.spec.iterate
  obtain ⟨answer, hanswer⟩ := Context.run_of_steady (c := run.context)
    (m := fun s => s.evaluate run.derivation.spec.iterate) hsteady
  have hcount (g : Generator) : (run.afterDraws g).context.evaluate
      (run.afterDraws g).derivation.spec.iterate = (answer, run.context.withGenerator g) := by
    unfold Context.evaluate
    exact hanswer g
  cases answer with
  | error e =>
      refine ⟨.error (.evaluation e), run, h, fun g => ?_⟩
      unfold iterate
      rw [hcount]
      rfl
  | ok requested =>
      obtain ⟨answer, last, hlast, hsteps⟩ := (h.restart (Number.toCount requested)).settles_steps
        (Number.toCount requested)
      refine ⟨answer, last, hlast, fun g => ?_⟩
      have hrestart := restart_afterDraws run g (Number.toCount requested)
      unfold iterate
      rw [hcount, ← hsteps g, ← hrestart]
      rfl

end Run

/-! ### Drawings -/

variable {config : RenderConfig} {spec : Specification} {c : Context}

/-- A walk reads no generator but the one that it draws from. -/
theorem Walk.follow_withGenerator (g : Generator) (u : List Symbol) : ∀ (i : Nat) (walk : Walk),
    Walk.follow config spec (c.withGenerator g) i u walk = Walk.follow config spec c i u walk := by
  induction u with
  | nil =>
      intro i walk
      rfl
  | cons symbol rest ih =>
      intro i walk
      have hvisit : walk.visit config spec (c.withGenerator g) i symbol =
          walk.visit config spec c i symbol := by
        cases symbol <;> rfl
      rw [follow, follow, hvisit]
      exact bind_congr fun next => ih (i + 1) next

/-- A turtle on its way binds numbers to its names, and no call of `random`. -/
theorem Eval.Context.Seedless.walk (h : c.Seedless) (walk : Walk) : (walk.context c).Seedless :=
  (((h.assign "x" _).assign "y" _).assign "heading" _).assign "depth" _

/-- Without calls of `random` there is one drawing for all generators, or one error. -/
theorem exists_render_eq (hc : c.Seedless) (hspec : spec.Seedless) (config : RenderConfig)
    (u : List Symbol) : ∃ drawing, ∀ g, render config spec (c.withGenerator g) u = drawing := by
  have hsteady : Steady (Walk.follow config spec c 0 u (.start config)) := by
    apply compositional_steady.follow
    intro name _ e he walk
    exact (hc.walk walk).evaluate (hspec.motion name e he)
  obtain ⟨answer, hanswer⟩ := hsteady
  refine ⟨answer.map Walk.drawing, fun g => ?_⟩
  unfold render
  rw [Walk.follow_withGenerator, hanswer]

/-! ### Outcomes -/

/-- Nothing that comes of such a run depends on its generator: neither its generations nor its
walk take a draw, so one outcome serves for all of them. -/
theorem Run.Seedless.exists_outcome {run : Run} (h : run.Seedless) (config : RenderConfig) :
    ∃ outcome, ∀ g, (run.afterDraws g).outcome config = outcome := by
  obtain ⟨answer, last, hlast, hiterate⟩ := h.settles_iterate
  obtain ⟨drawing, hdrawing⟩ := exists_render_eq hlast.context hlast.spec config
    last.derivation.symbols
  have hdraw (g : Generator) :
      (last.afterDraws g).draw config = drawing.mapError .rendering :=
    congrArg (Except.mapError Failure.rendering) (hdrawing g)
  simp only [Run.outcome, Run.develop, hiterate]
  cases answer with
  | error e => exact ⟨_, fun g => rfl⟩
  | ok done =>
      refine ⟨.ok ⟨last.derivation.symbols, last.derivation.generations,
        drawing.mapError .rendering⟩, fun g => ?_⟩
      rw [← hdraw g]
      rfl

namespace Specification

/-- **Without a choice and without a call of `random` the seed does not count.**
When a source compiles, no name has two rules, and no expression but the weights of
rules calls `random`, then all seeds come to the same string after the same number
of generations and to the same drawing of it, or to the same error at the same
stage, with any limit and any turtle. -/
theorem outcome_eq_of_seeds {source : String} {program : Program} {spec : Specification}
    (hcompile : compile source = .ok spec) (hprogram : parseProgram source = .ok program)
    (hone : spec.Deterministic) (hrandom : program.Seedless) (maxSymbols : Nat)
    (config : RenderConfig) (seed seed' : UInt64) :
    (spec.begin maxSymbols seed).outcome config = (spec.begin maxSymbols seed').outcome config := by
  obtain ⟨other, hother, hspec⟩ := compile_eq_ok_iff.1 hcompile
  obtain rfl : other = program := Except.ok.inj (hother.symm.trans hprogram)
  have hseedless : spec.Seedless := seedless_of_holds (holds_ofProgram hspec) hrandom
  have hbegin (seed : UInt64) : (spec.begin maxSymbols 0).afterDraws (.ofSeed seed) =
      spec.begin maxSymbols seed :=
    congrArg (Run.mk (.new spec maxSymbols)) (context_withGenerator spec (.ofSeed 0) (.ofSeed seed))
  have hrun : (spec.begin maxSymbols 0).Seedless :=
    ⟨indexed_ofProgram hspec, hone, hseedless, hseedless.context (.ofSeed 0)⟩
  obtain ⟨outcome, houtcome⟩ := hrun.exists_outcome config
  rw [← hbegin seed, ← hbegin seed', houtcome, houtcome]

/-- A vine whose stems get a leaf in each generation.  The weight of its only rule
would be random. -/
def vine : Program :=
  [.start [.named "stem"],
    .rule "stem" [.named "stem", .push, .named "leaf", .pop] (some (.call "random" [])),
    .iterate (.num 3), .var "size" (.call "max" [.num 1, .num 2]), .length (.ident "size")]

/-- The vine can be written down and read back. -/
theorem wellFormed_vine : vine.WellFormed := by decide +kernel

/-- The only call of `random` in the vine is for the weight of a rule. -/
theorem seedless_vine : vine.Seedless := by
  simp [Program.Seedless, vine, Declaration.rule?, Declaration.expressions, Expr.Seedless,
    Expr.Names, Expr.AllName]

/-- The vine is drawn in the same way with two seeds. It is compiled from its own text, so the
parser has its part in it. -/
theorem vine_outcome_eq : ∃ spec, compile (programText vine) = .ok spec ∧
    ((spec.begin 100 7).outcome .standard).isOk = true ∧
    (spec.begin 100 7).outcome .standard = (spec.begin 100 8).outcome .standard := by
  have hparse := parseProgram_programText wellFormed_vine
  obtain ⟨spec, hspec, hone, hok⟩ : ∃ spec, ofProgram vine = .ok spec ∧ spec.Deterministic ∧
      ((spec.begin 100 7).outcome .standard).isOk = true :=
    ⟨_, rfl, deterministic_of_nodup (by decide), by decide +kernel⟩
  have hcompile := compile_eq_ok_iff.2 ⟨vine, hparse, hspec⟩
  exact ⟨spec, hcompile, hok,
    outcome_eq_of_seeds hcompile hparse hone seedless_vine 100 .standard 7 8⟩

end Specification

end LSystem
