import LSystem.Proofs.Derivation.Generation

/-!
# Runs of calls

A caller may ask for single generations, for all generations that the
specification wants, and go on with another context, in any order and however
often a call fails.  `Lineage` is what all of this keeps: the symbols come from
the start string by as many generations as the derivation has counted.

`StepEnds` and `IterateEnds` list how the two calls can end.  What a step does is
said once, in `step_scan`, and every other fact about runs comes from there.  What
draws, steps and going back to the start string keep is an `Invariant`, and
`Invariant.after` says that all calls keep it.
-/

namespace LSystem

open Syntax Eval Randomness

/-! ### Scopes of a run -/

/-- The scopes have the same functions and the same variables, apart from the
two that a run binds itself. -/
structure Eval.Scope.Agrees (s t : Scope) : Prop where
  native : s.native = t.native
  bound : ∀ name, name ≠ "depth" → name ≠ "iterations" → s.bound name = t.bound name

/-- The scope is that of one of the contexts, apart from `depth` and
`iterations`. -/
def Offered (contexts : List Context) (s : Scope) : Prop := ∃ c ∈ contexts, s.Agrees c.scope

theorem Eval.Scope.Agrees.refl (s : Scope) : s.Agrees s := ⟨rfl, fun _ _ _ => rfl⟩

/-- Binding one of the two variables keeps the agreement. The two scopes may differ in these
variables and in nothing else. -/
theorem Eval.Context.agrees_assign {c : Context} {t : Scope} {name : String} {value : Float}
    (hname : name = "depth" ∨ name = "iterations") (h : c.scope.Agrees t) :
    (c.assign name value).scope.Agrees t := by
  constructor
  · exact h.native
  · intro other hdepth hiterations
    have hother : name ≠ other := by
      intro heq
      subst heq
      rcases hname with hname | hname
      · exact hdepth hname
      · exact hiterations hname
    have hfind : (c.assign name value).scope.bound other = c.scope.bound other := by
      have hinsert := Bindings.find?_insert c.definitions name other (.num value)
      rw [if_neg hother] at hinsert
      exact hinsert
    rw [hfind]
    exact h.bound other hdepth hiterations

/-! ### Lineages -/

/-- The strings of a derivation, the last one first: the start string, and after
each string a generation of it, in one of the offered scopes. -/
inductive Lineage (spec : Specification) (contexts : List Context) : List (List Symbol) → Prop
  | start : Lineage spec contexts [spec.start]
  | next {s : Scope} {g g' : Generator} {u v : List Symbol} {older : List (List Symbol)}
      (hold : Lineage spec contexts (u :: older)) (hscope : Offered contexts s)
      (hgeneration : Generation spec s g u v g') : Lineage spec contexts (v :: u :: older)

/-- The lengths of a lineage never decrease. Bodies are not empty, so no generation makes a string
shorter, and the order is transitive. -/
theorem Lineage.pairwise_length_le {spec : Specification} {contexts : List Context}
    {strings : List (List Symbol)} (hbodies : ∀ rule ∈ spec.rules, rule.body ≠ [])
    (h : Lineage spec contexts strings) : strings.Pairwise fun v u => u.length ≤ v.length := by
  induction h with
  | start => exact List.pairwise_singleton _ _
  | next hold hscope hgeneration ih =>
      rename_i u v older
      have hlength := hgeneration.length_le hbodies
      rw [List.pairwise_cons]
      refine ⟨?_, ih⟩
      intro w hw
      rcases List.mem_cons.1 hw with rfl | holder
      · exact hlength
      · exact Nat.le_trans ((List.pairwise_cons.1 ih).1 w holder) hlength

namespace Run

/-! ### One step -/

/-- The run after a step that has drawn but not rewritten. -/
def afterDraws (run : Run) (g : Generator) : Run :=
  { run with context := run.context.withGenerator g }

/-- How a step can end, and where it leaves the run: it fails or finds no symbol
with rules, and the derivation stays as it was, or it takes the next generation. -/
inductive StepEnds (run last : Run) : Except DerivationError Bool → Prop
  | failed {e : DerivationError} (hkept : last.derivation = run.derivation) :
      StepEnds run last (.error e)
  | unmatched (hnone : ∀ symbol ∈ run.derivation.symbols, ¬ run.derivation.spec.Rewritable symbol)
      (hkept : last.derivation = run.derivation) : StepEnds run last (.ok false)
  | generation (hsome : ∃ symbol ∈ run.derivation.symbols, run.derivation.spec.Rewritable symbol)
      (hgeneration : Generation run.derivation.spec run.context.scope run.context.generator
        run.derivation.symbols last.derivation.symbols last.context.generator)
      (hcount : last.derivation.generations = run.derivation.generations + 1) :
      StepEnds run last (.ok true)

/-- A step whose scan fails has drawn and nothing else. The string, the counter and the variables
are those from before the step; the draws until the failure are spent. -/
theorem step_of_fails (run : Run) {e : DerivationError} {g : Generator}
    (h : Fails (run.derivation.scan run.context.scope) run.context.generator e g) :
    run.step = (.error e, run.afterDraws g) := by
  unfold Fails at h
  unfold step Context.run
  rw [h]
  rfl

/-- A step whose scan has applied a rule accepts what the scan has written. -/
theorem step_of_answers (run : Run) {scan : Scan} {g : Generator}
    (h : Answers (run.derivation.scan run.context.scope) run.context.generator scan g) :
    run.step = if scan.matched then (.ok true, (run.afterDraws g).accept scan.symbols)
      else (.ok false, run.afterDraws g) := by
  unfold Answers at h
  unfold step Context.run
  rw [h]
  rfl

/-- What a step does: it draws while it scans, and the rest is settled by how the
scan ends. -/
theorem step_scan (run : Run) :
    (∃ e g, Fails (run.derivation.scan run.context.scope) run.context.generator e g ∧
        run.step = (.error e, run.afterDraws g)) ∨
      ∃ scan g, Answers (run.derivation.scan run.context.scope) run.context.generator scan g ∧
        run.step = if scan.matched then (.ok true, (run.afterDraws g).accept scan.symbols)
          else (.ok false, run.afterDraws g) :=
  match hscan : (run.derivation.scan run.context.scope).run.run run.context.generator with
  | (.error e, g) => .inl ⟨e, g, hscan, run.step_of_fails hscan⟩
  | (.ok scan, g) => .inr ⟨scan, g, hscan, run.step_of_answers hscan⟩

/-- With the index, a step accepts the next generation exactly when some symbol has rules. Every
proof about calls splits on these three cases and on nothing else. -/
theorem step_cases (run : Run)
    (hindex : Indexed run.derivation.spec.rules run.derivation.spec.index) :
    (∃ e g, run.step = (.error e, run.afterDraws g)) ∨
      (∃ g, run.step = (.ok false, run.afterDraws g) ∧
        ∀ symbol ∈ run.derivation.symbols, ¬ run.derivation.spec.Rewritable symbol) ∨
      ∃ g v, run.step = (.ok true, (run.afterDraws g).accept v) ∧
        Generation run.derivation.spec run.context.scope run.context.generator
          run.derivation.symbols v g ∧
        ∃ symbol ∈ run.derivation.symbols, run.derivation.spec.Rewritable symbol := by
  obtain ⟨e, g, -, hstep⟩ | ⟨scan, g, hscan, hstep⟩ := run.step_scan
  · exact .inl ⟨e, g, hstep⟩
  · obtain ⟨hgeneration, hrewritable⟩ := Derivation.scan_generation hindex hscan
    cases hmatched : scan.matched with
    | false =>
        rw [hmatched] at hstep
        refine .inr (.inl ⟨g, hstep, ?_⟩)
        intro symbol hsymbol hrules
        rw [hrewritable.2 ⟨symbol, hsymbol, hrules⟩] at hmatched
        cases hmatched
    | true =>
        rw [hmatched] at hstep
        exact .inr (.inr ⟨g, scan.symbols, hstep, hgeneration, hrewritable.1 hmatched⟩)

/-- A step ends in one of the three ways: with an error, without a generation, or with one
generation more. -/
theorem stepEnds (run : Run)
    (hindex : Indexed run.derivation.spec.rules run.derivation.spec.index) :
    StepEnds run run.step.2 run.step.1 := by
  obtain ⟨e, g, hstep⟩ | ⟨g, hstep, hnone⟩ | ⟨g, v, hstep, hgeneration, hsome⟩ :=
    run.step_cases hindex
  · rw [hstep]
    exact .failed rfl
  · rw [hstep]
    exact .unmatched hnone rfl
  · rw [hstep]
    exact .generation hsome hgeneration rfl

/-! ### Calls -/

/-- What a caller can do with a run. -/
inductive Call where
  | step
  | iterate
  /-- Go on with another context. -/
  | lend (context : Context)

/-- The run after a call, whether it fails or not. -/
def call (run : Run) : Call → Run
  | .step => run.step.2
  | .iterate => run.iterate.2
  | .lend context => { run with context }

/-- The run after some calls. -/
def after (run : Run) (calls : List Call) : Run := calls.foldl call run

/-- The contexts that the caller goes on with. -/
def lent : List Call → List Context
  | [] => []
  | .lend context :: calls => context :: lent calls
  | _ :: calls => lent calls

/-- A context that the caller goes on with in one of the calls is lent. -/
theorem mem_lent {calls : List Call} {context : Context} (h : .lend context ∈ calls) :
    context ∈ lent calls := by
  induction calls with
  | nil => cases h
  | cons c rest ih =>
      rcases List.mem_cons.1 h with rfl | hrest
      · exact List.mem_cons_self
      · cases c with
        | step => exact ih hrest
        | iterate => exact ih hrest
        | lend other => exact List.mem_cons_of_mem other (ih hrest)

/-! ### What every call keeps -/

/-- A property of runs that draws, steps and going back to the start string keep. -/
structure Invariant (P : Run → Prop) : Prop where
  draws : ∀ {run : Run}, P run → ∀ g, P (run.afterDraws g)
  step : ∀ {run : Run}, P run → P run.step.2
  restart : ∀ {run : Run}, P run → ∀ target, P (run.restart target)

namespace Invariant

variable {P : Run → Prop}

/-- What one step keeps is kept by any number of steps, with an error or without. -/
theorem steps (hP : Invariant P) (n : Nat) : ∀ {run : Run}, P run → P (run.steps n).2 := by
  induction n with
  | zero =>
      intro run h
      exact h
  | succ n ih =>
      intro run h
      have hnext := hP.step h
      unfold Run.steps
      match hstep : run.step with
      | (.error e, next) =>
          rw [hstep] at hnext
          exact hnext
      | (.ok false, next) =>
          rw [hstep] at hnext
          exact hnext
      | (.ok true, next) =>
          rw [hstep] at hnext
          exact ih hnext

/-- A call for all generations keeps it too: the count takes draws, then the run goes back to the
start string, and the rest are steps. -/
theorem iterate (hP : Invariant P) {run : Run} (h : P run) : P run.iterate.2 := by
  have hdraws := hP.draws h ((run.context.scope.evaluate run.derivation.spec.iterate).run.run
    run.context.generator).2
  unfold Run.iterate Context.evaluate Context.run
  match hvalue : (run.context.scope.evaluate run.derivation.spec.iterate).run.run
    run.context.generator with
  | (.error e, g) =>
      rw [hvalue] at hdraws
      exact hdraws
  | (.ok requested, g) =>
      rw [hvalue] at hdraws
      exact hP.steps (Number.toCount requested) (hP.restart hdraws (Number.toCount requested))

/-- What all contexts keep that the caller goes on with, all calls keep. The induction is on the
calls: steps and draws keep it by assumption, and a context that is lent by the first
condition. -/
theorem after (hP : Invariant P) {calls : List Call} :
    ∀ {run : Run}, (∀ context, .lend context ∈ calls → ∀ run, P run → P { run with context }) →
      P run → P (run.after calls) := by
  induction calls with
  | nil =>
      intro run _ h
      exact h
  | cons c rest ih =>
      intro run hlend h
      apply ih fun context hmem => hlend context (List.mem_cons_of_mem c hmem)
      cases c with
      | step => exact hP.step h
      | iterate => exact hP.iterate h
      | lend context => exact hlend context List.mem_cons_self run h

end Invariant

/-! ### The lineage of a run -/

/-- The symbols of the run come from the start string of the specification by as
many generations as the run has counted. -/
structure Traced (spec : Specification) (contexts : List Context) (run : Run) : Prop where
  same_spec : run.derivation.spec = spec
  offered : Offered contexts run.context.scope
  lineage : ∃ older, Lineage spec contexts (run.derivation.symbols :: older) ∧
    older.length = run.derivation.generations

variable {spec : Specification} {contexts : List Context} {run : Run}

/-- Draws leave the strings of a run alone. -/
theorem Traced.afterDraws (h : Traced spec contexts run) (g : Generator) :
    Traced spec contexts (run.afterDraws g) :=
  ⟨h.same_spec, h.offered, h.lineage⟩

/-- A generation that is accepted stands in front of the strings so far, and is counted once. -/
theorem Traced.accept (h : Traced spec contexts run) {v : List Symbol} {g g' : Generator}
    (hgeneration : Generation spec run.context.scope g run.derivation.symbols v g') :
    Traced spec contexts (run.accept v) := by
  obtain ⟨c, hc, hagrees⟩ := h.offered
  obtain ⟨older, hlineage, hlength⟩ := h.lineage
  constructor
  · exact h.same_spec
  · exact ⟨c, hc, Context.agrees_assign (.inl rfl) hagrees⟩
  · refine ⟨run.derivation.symbols :: older, hlineage.next h.offered hgeneration, ?_⟩
    rw [List.length_cons, hlength]
    rfl

/-- A step keeps the lineage of a run: either the derivation stays as it was, or it goes on by a
generation. -/
theorem Traced.step (hindex : Indexed spec.rules spec.index) (h : Traced spec contexts run) :
    Traced spec contexts run.step.2 := by
  obtain rfl := h.same_spec
  obtain ⟨e, g, hstep⟩ | ⟨g, hstep, -⟩ | ⟨g, v, hstep, hgeneration, -⟩ := run.step_cases hindex
  · rw [hstep]
    exact h.afterDraws g
  · rw [hstep]
    exact h.afterDraws g
  · rw [hstep]
    exact (h.afterDraws g).accept hgeneration

/-- A run that has gone back to the start string has a lineage of that string alone, and a count
of zero. -/
theorem Traced.restart (h : Traced spec contexts run) (target : Nat) :
    Traced spec contexts (run.restart target) := by
  obtain ⟨c, hc, hagrees⟩ := h.offered
  obtain rfl := h.same_spec
  constructor
  · rfl
  · exact ⟨c, hc, Context.agrees_assign (.inl rfl) (Context.agrees_assign (.inr rfl) hagrees)⟩
  · exact ⟨[], .start, rfl⟩

/-- Everything that a caller can do with a run keeps its lineage: a step lengthens it by one
generation or leaves it, and to go back to the start string begins it anew. -/
theorem invariant_traced (hindex : Indexed spec.rules spec.index) (contexts : List Context) :
    Invariant (Traced spec contexts) :=
  ⟨Traced.afterDraws, Traced.step hindex, Traced.restart⟩

/-- A run at the start string keeps its lineage through all calls. -/
theorem traced_after (hindex : Indexed spec.rules spec.index) (maxSymbols : Nat)
    (context : Context) (calls : List Call) :
    Traced spec (context :: lent calls)
      ((⟨.new spec maxSymbols, context⟩ : Run).after calls) := by
  apply (invariant_traced hindex _).after
  · intro other hother run h
    exact ⟨h.same_spec, ⟨other, List.mem_cons_of_mem context (mem_lent hother), .refl _⟩, h.lineage⟩
  · exact ⟨rfl, ⟨context, List.mem_cons_self, .refl _⟩, [], .start, rfl⟩

/-! ### How calls end -/

/-- From one run to another by steps that each take a generation. -/
inductive Completes : Run → Nat → Run → Prop
  | refl (run : Run) : Completes run 0 run
  | step {run next last : Run} {k : Nat} (hstep : run.step = (.ok true, next))
      (hrest : Completes next k last) : Completes run (k + 1) last

/-- A step that fails has drawn and nothing else. This is the other direction, for every step that
comes back with an error. -/
theorem eq_afterDraws_of_step_error {run next : Run} {e : DerivationError}
    (h : run.step = (.error e, next)) : ∃ g, next = run.afterDraws g ∧
      Fails (run.derivation.scan run.context.scope) run.context.generator e g := by
  obtain ⟨cause, g, hscan, hstep⟩ | ⟨scan, g, -, hstep⟩ := run.step_scan
  · rw [hstep] at h
    cases h
    exact ⟨g, rfl, hscan⟩
  · rw [hstep] at h
    split at h <;> cases h

/-- A step that fails leaves the derivation alone. Only the generator has moved, which is no part
of the derivation. -/
theorem derivation_of_step_error {run next : Run} {e : DerivationError}
    (h : run.step = (.error e, next)) : next.derivation = run.derivation := by
  obtain ⟨g, rfl, -⟩ := eq_afterDraws_of_step_error h
  rfl

/-- A step that takes a generation counts it. A step that takes none leaves the counter as it
is. -/
theorem generations_of_step {run next : Run} (h : run.step = (.ok true, next)) :
    next.derivation.generations = run.derivation.generations + 1 := by
  unfold step at h
  split at h
  · cases h
  · split at h
    · cases h
      rfl
    · cases h

/-- Steps that each take a generation count them all. The induction is on the steps that were
completed. -/
theorem Completes.generations {run last : Run} {k : Nat} (h : Completes run k last) :
    last.derivation.generations = run.derivation.generations + k := by
  induction h with
  | refl run => rfl
  | step hstep hrest ih =>
      have hone := generations_of_step hstep
      omega

/-- Steps end after all of them, or at one that finds nothing or fails. The induction is on the
number of steps that are asked for. -/
theorem steps_cases {n : Nat} : ∀ {run last : Run} {answer : Except DerivationError Unit},
    run.steps n = (answer, last) →
      (answer = .ok () ∧ Completes run n last) ∨
        ∃ k done, k < n ∧ Completes run k done ∧
          ((answer = .ok () ∧ done.step = (.ok false, last)) ∨
            ∃ e, answer = .error e ∧ done.step = (.error e, last)) := by
  induction n with
  | zero =>
      intro run last answer h
      cases h
      exact .inl ⟨rfl, .refl run⟩
  | succ n ih =>
      intro run last answer h
      unfold steps at h
      match hstep : run.step with
      | (.error e, next) =>
          rw [hstep] at h
          cases h
          exact .inr ⟨0, run, Nat.succ_pos n, .refl run, .inr ⟨e, rfl, hstep⟩⟩
      | (.ok false, next) =>
          rw [hstep] at h
          cases h
          exact .inr ⟨0, run, Nat.succ_pos n, .refl run, .inl ⟨rfl, hstep⟩⟩
      | (.ok true, next) =>
          rw [hstep] at h
          obtain ⟨hanswer, hall⟩ | ⟨k, done, hk, hcompletes, hends⟩ := ih h
          · exact .inl ⟨hanswer, .step hstep hall⟩
          · exact .inr ⟨k + 1, done, Nat.succ_lt_succ hk, .step hstep hcompletes, hends⟩

/-- How the generations that the specification asks for can end.  When their
number has no value, nothing has changed.  Otherwise the run has gone back to
the start string, and from there it completes them all, or all up to one that
finds nothing to rewrite, or up to one that fails; the derivation is then as the
last generation that was completed has left it. -/
inductive IterateEnds (run last : Run) : Except DerivationError Unit → Prop
  | count {cause : EvalError}
      (hcount : (run.context.evaluate run.derivation.spec.iterate).1 = .error cause)
      (hkept : last.derivation = run.derivation) :
      IterateEnds run last (.error (.evaluation cause))
  | failed {requested : Float} {c : Context} {k : Nat} {done : Run} {e : DerivationError}
      (hcount : run.context.evaluate run.derivation.spec.iterate = (.ok requested, c))
      (hfewer : k < Number.toCount requested)
      (hcompletes : Completes (({ run with context := c } : Run).restart
        (Number.toCount requested)) k done)
      (hfails : done.step = (.error e, last)) (hkept : last.derivation = done.derivation)
      (hgenerations : last.derivation.generations = k) : IterateEnds run last (.error e)
  | unmatched {requested : Float} {c : Context} {k : Nat} {done : Run}
      (hcount : run.context.evaluate run.derivation.spec.iterate = (.ok requested, c))
      (hfewer : k < Number.toCount requested)
      (hcompletes : Completes (({ run with context := c } : Run).restart
        (Number.toCount requested)) k done)
      (hstep : done.step = (.ok false, last)) : IterateEnds run last (.ok ())
  | completed {requested : Float} {c : Context}
      (hcount : run.context.evaluate run.derivation.spec.iterate = (.ok requested, c))
      (hcompletes : Completes (({ run with context := c } : Run).restart
        (Number.toCount requested)) (Number.toCount requested) last) :
      IterateEnds run last (.ok ())

/-- A call for all generations ends in one of these ways. It is read off the loop: the steps that
it takes, and the way in which the last of them ends. -/
theorem iterateEnds (run : Run) : IterateEnds run run.iterate.2 run.iterate.1 := by
  match hiterate : run.iterate with
  | (answer, last) =>
      unfold iterate at hiterate
      match hcount : run.context.evaluate run.derivation.spec.iterate with
      | (.error cause, c) =>
          rw [hcount] at hiterate
          cases hiterate
          exact .count (congrArg Prod.fst hcount) rfl
      | (.ok requested, c) =>
          rw [hcount] at hiterate
          obtain ⟨rfl, hall⟩ | ⟨k, done, hk, hcompletes, hends⟩ := steps_cases hiterate
          · exact .completed hcount hall
          · obtain ⟨rfl, hstep⟩ | ⟨e, rfl, hfails⟩ := hends
            · exact .unmatched hcount hk hcompletes hstep
            · have hkept := derivation_of_step_error hfails
              refine .failed hcount hk hcompletes hfails hkept ?_
              rw [hkept, hcompletes.generations]
              exact Nat.zero_add k

/-- **Whatever is called, the symbols are derived from the start string.**  After
any calls on a derivation of a specification from a program, with any contexts
and any limit, the symbols come from the start string by exactly as many
generations as are counted, no generation shorter than the one before it.  A
step from there takes one more generation if any symbol has rules and it does
not fail, and a call that fails leaves the derivation at the last generation
that was completed. -/
theorem after_calls_derived {program : Program} {spec : Specification}
    (h : Specification.ofProgram program = .ok spec) (maxSymbols : Nat) (context : Context)
    (calls : List Call) :
    let run := (⟨.new spec maxSymbols, context⟩ : Run).after calls
    (run.derivation.spec = spec ∧
        ∃ older, Lineage spec (context :: lent calls) (run.derivation.symbols :: older) ∧
          older.length = run.derivation.generations ∧
          (run.derivation.symbols :: older).Pairwise fun v u => u.length ≤ v.length) ∧
      StepEnds run run.step.2 run.step.1 ∧ IterateEnds run run.iterate.2 run.iterate.1 := by
  intro run
  have hindex := Specification.indexed_ofProgram h
  have htraced : Traced spec (context :: lent calls) run :=
    traced_after hindex maxSymbols context calls
  obtain ⟨older, hlineage, hlength⟩ := htraced.lineage
  have hlengths := hlineage.pairwise_length_le hindex.body
  refine ⟨⟨htraced.same_spec, older, hlineage, hlength, hlengths⟩, ?_, run.iterateEnds⟩
  apply run.stepEnds
  rw [htraced.same_spec]
  exact hindex

/-- A bush, whose only name has two rules to choose from. -/
def bush : Program :=
  [.start [.named "F"], .rule "F" [.named "F", .push, .named "F", .pop] (some (.num 2)),
    .rule "F" [.named "F", .named "F"] none]

/-- A bush with two rules to choose from is derived by calls that mix single steps and all
generations. -/
theorem bush_calls_derived : ∃ spec, Specification.ofProgram bush = .ok spec ∧
    ∃ older, Lineage spec [.initial (.ofSeed 7)]
      (((⟨.new spec 100, .initial (.ofSeed 7)⟩ : Run).after
        [.step, .iterate, .step]).derivation.symbols :: older) := by
  refine ⟨_, rfl, ?_⟩
  obtain ⟨-, older, hlineage, -⟩ := (after_calls_derived
    (show Specification.ofProgram bush = .ok _ from rfl) 100 (.initial (.ofSeed 7))
    [.step, .iterate, .step]).1
  exact ⟨older, hlineage⟩

end Run

end LSystem
