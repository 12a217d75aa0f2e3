import LSystem.Proofs.Derivation.Calls

/-!
# Generations without a rule

A generation in which no symbol has rules writes the string once more, takes no
draw and binds nothing, so the run after it is the run before it.  A run that
stops there has therefore come to where it would have come by taking all the
steps that it was asked for, and `iterate` may stop early.

`iterateInFull` takes them all: it is `iterate` without the early end.
-/

namespace LSystem

open Syntax Eval Randomness

variable {spec : Specification} {s : Scope} {g g' : Generator}

/-- A name that gets no rule takes no draw. A draw is taken to decide among several rules, and
then one of them is found. -/
theorem eq_of_choose_none {name : String} (h : Answers (spec.choose s name) g none g') :
    g' = g := by
  unfold Specification.choose at h
  split at h
  · exact (answers_pure_iff.1 h).2
  · cases (answers_pure_iff.1 h).1
  · obtain ⟨choice, w, weights, middle, hsome, -⟩ := chooseWeighted_spec h
    cases hsome

/-- To find no rule for a symbol takes no draw. A bracket is not even looked up, and a name has no
rule then. -/
theorem eq_of_chooseFor_none {symbol : Symbol} (h : Answers (chooseFor spec s symbol) g none g') :
    g' = g := by
  cases symbol with
  | named name => exact eq_of_choose_none h
  | push => exact (answers_pure_iff.1 h).2
  | pop => exact (answers_pure_iff.1 h).2

/-- A scan that has applied no rule in the end had applied none in the beginning,
and has taken no draw. -/
theorem Derivation.eq_of_unmatched {d : Derivation} {u : List Symbol} :
    ∀ {scan last : Scan} {g : Generator}, Answers (u.foldlM (d.scanSymbol s) scan) g last g' →
      last.matched = false → scan.matched = false ∧ g' = g := by
  induction u with
  | nil =>
      intro scan last g h hmatched
      obtain ⟨rfl, rfl⟩ := answers_pure_iff.1 h
      exact ⟨hmatched, rfl⟩
  | cons symbol rest ih =>
      intro scan last g h hmatched
      rw [List.foldlM_cons] at h
      obtain ⟨next, middle, hsymbol, hrest⟩ := answers_bind_iff.1 h
      obtain ⟨choice, hchoice, rfl, -⟩ := answers_scanSymbol hsymbol
      obtain ⟨hnext, rfl⟩ := ih hrest hmatched
      cases choice with
      | none => exact ⟨hnext, eq_of_chooseFor_none hchoice⟩
      | some choice => cases hnext

namespace Run

variable {run last : Run}

/-- A step without a rule changes nothing. Counter and variables stay, and so does the generator,
since no symbol has asked for a draw. -/
theorem eq_of_step_unmatched {next : Run} (h : run.step = (.ok false, next)) : next = run := by
  obtain ⟨e, g, -, hstep⟩ | ⟨scan, g, hscan, hstep⟩ := run.step_scan
  · rw [hstep] at h
    cases h
  · rw [hstep] at h
    split at h
    · cases h
    · rename_i hmatched
      rw [Bool.not_eq_true] at hmatched
      obtain ⟨-, rfl⟩ := Derivation.eq_of_unmatched hscan hmatched
      cases h
      rfl

/-! ### All steps -/

/-- A number of steps, whether they find a rule or not; only an error ends them
early. -/
def allSteps : Nat → Run → Except DerivationError Unit × Run
  | 0, run => (.ok (), run)
  | n + 1, run =>
    match run.step with
    | (.error e, next) => (.error e, next)
    | (.ok _, next) => next.allSteps n

/-- As many steps as the specification asks for, from the start string on: the
count is evaluated, cut to a whole number and bound together with the depth, and
then all steps are taken. -/
def iterateInFull (run : Run) : Except DerivationError Unit × Run :=
  match run.context.evaluate run.derivation.spec.iterate with
  | (.error e, context) => (.error (.evaluation e), { run with context })
  | (.ok requested, context) =>
    let target := Number.toCount requested
    (({ run with context } : Run).restart target).allSteps target

/-- A run that finds nothing to rewrite can take any number of further steps and stays as it
is. -/
theorem allSteps_of_unmatched (h : run.step = (.ok false, run)) (n : Nat) :
    run.allSteps n = (.ok (), run) := by
  induction n with
  | zero => rfl
  | succ n ih =>
      rw [allSteps, h]
      exact ih

/-- Stopping at a step without a rule is the same as taking all steps. The steps that would be
left change nothing either, since the string stays what it is. -/
theorem steps_eq_allSteps (n : Nat) : ∀ run : Run, run.steps n = run.allSteps n := by
  induction n with
  | zero =>
      intro run
      rfl
  | succ n ih =>
      intro run
      rw [steps, allSteps]
      match hstep : run.step with
      | (.error e, next) => rfl
      | (.ok true, next) => exact ih next
      | (.ok false, next) =>
          obtain rfl := eq_of_step_unmatched hstep
          exact (allSteps_of_unmatched hstep n).symm

/-- To stop at the first generation without a rule is the same as to take all generations that are
asked for. -/
theorem iterate_eq (run : Run) : run.iterate = run.iterateInFull := by
  unfold iterate iterateInFull
  match run.context.evaluate run.derivation.spec.iterate with
  | (.error e, context) => rfl
  | (.ok requested, context) => exact steps_eq_allSteps _ _

/-! ### What a run has bound in the end -/

/-- The variable `iterations` is the number of generations asked for, and `depth`
the number of those that were taken. -/
structure Counts (run : Run) (target : Nat) : Prop where
  iterations : run.context.definitions.find? "iterations" = some (.num (Number.ofNat target))
  depth : run.context.definitions.find? "depth" =
    some (.num (Number.ofNat run.derivation.generations))

/-- Back at its start string a run has bound both variables, the depth to zero. -/
theorem counts_restart (run : Run) (target : Nat) : Counts (run.restart target) target := by
  have hzero : Number.ofNat 0 = 0 := by decide +kernel
  have hfind (name : String) := Bindings.find?_insert
    (run.context.definitions.insert "iterations" (.num (Number.ofNat target))) "depth" name (.num 0)
  constructor
  · rw [restart, Context.assign, Context.assign, Context.define, Context.define, hfind,
      Bindings.find?_insert]
    rfl
  · rw [restart, Context.assign, Context.assign, Context.define, Context.define, hfind,
      Derivation.new, hzero]
    rfl

/-- A generation counts the depth up, and leaves the number that was asked for. -/
theorem Counts.accept {target : Nat} (h : Counts run target) (g : Generator) (v : List Symbol) :
    Counts ((run.afterDraws g).accept v) target := by
  have hfind (name : String) := Bindings.find?_insert run.context.definitions "depth" name
    (.num (Number.ofNat (run.derivation.generations + 1)))
  constructor
  · exact (hfind "iterations").trans h.iterations
  · exact hfind "depth"

/-- A step with a rule accepts the string that it has written. -/
theorem eq_accept_of_step {next : Run} (h : run.step = (.ok true, next)) :
    ∃ g v, next = (run.afterDraws g).accept v := by
  obtain ⟨e, g, -, hstep⟩ | ⟨scan, g, hscan, hstep⟩ := run.step_scan
  · rw [hstep] at h
    cases h
  · rw [hstep] at h
    split at h
    · cases h
      exact ⟨g, scan.symbols, rfl⟩
    · cases h

/-- Steps that take generations keep both variables right, and the specification. The induction is
on the steps; each of them binds both variables to the counter anew. -/
theorem Completes.counts {k target : Nat} (h : Completes run k last) (hrun : Counts run target) :
    Counts last target ∧ last.derivation.spec = run.derivation.spec := by
  induction h with
  | refl run => exact ⟨hrun, rfl⟩
  | step hstep hrest ih =>
      obtain ⟨g, v, rfl⟩ := eq_accept_of_step hstep
      exact ih (hrun.accept g v)

/-- A run that has come to its end without an error has taken no more
generations than were asked for and has counted them; when it has taken fewer,
no symbol has rules any more. -/
structure Ends (target : Nat) (last : Run) : Prop where
  generations_le : last.derivation.generations ≤ target
  counts : Counts last target
  stopped : last.derivation.generations < target →
    ∀ symbol ∈ last.derivation.symbols, ¬ last.derivation.spec.Rewritable symbol

/-- **Nobody can tell that a run has stopped early.**  Whatever the state of a run
and its context, the limit and the weights, the generations that the
specification asks for end like all the steps that it asks for, in the answer,
the string, the count, the bindings and the generator.  When they end without an
error, the run has counted as many generations as it has taken, at most those
asked for, and fewer only when no symbol has rules any more. -/
theorem iterate_eq_iterateInFull {program : Program}
    (h : Specification.ofProgram program = .ok run.derivation.spec) :
    run.iterate = run.iterateInFull ∧
      ((run.iterate.1 = .ok ()) → ∃ requested,
        (run.context.evaluate run.derivation.spec.iterate).1 = .ok requested ∧
          Ends (Number.toCount requested) run.iterate.2) := by
  refine ⟨run.iterate_eq, fun hok => ?_⟩
  have hindex := Specification.indexed_ofProgram h
  have hends := run.iterateEnds
  rw [hok] at hends
  generalize run.iterate.2 = last at hends ⊢
  cases hends with
  | unmatched hcount hfewer hcompletes hstep =>
      rename_i requested c k done
      obtain rfl := eq_of_step_unmatched hstep
      obtain ⟨hcounts, hspec⟩ := hcompletes.counts (counts_restart _ _)
      have hgenerations : last.derivation.generations = k :=
        hcompletes.generations.trans (Nat.zero_add k)
      refine ⟨requested, congrArg Prod.fst hcount, ?_, hcounts, fun _ => ?_⟩
      · omega
      · have hstepEnds := last.stepEnds (hspec ▸ hindex)
        rw [hstep] at hstepEnds
        cases hstepEnds with
        | unmatched hnone hkept => exact hnone
  | completed hcount hcompletes =>
      rename_i requested c
      obtain ⟨hcounts, -⟩ := hcompletes.counts (counts_restart _ _)
      have hgenerations : last.derivation.generations = Number.toCount requested :=
        hcompletes.generations.trans (Nat.zero_add _)
      refine ⟨requested, congrArg Prod.fst hcount, ?_, hcounts, fun hfewer => ?_⟩
      · omega
      · omega

/-- A seed that sprouts once, and is asked to do so five times. -/
def sprout : Program :=
  [.start [.named "seed"], .rule "seed" [.named "leaf", .push, .named "leaf", .pop] none,
    .iterate (.num 5)]

/-- The sprout has nothing left to rewrite behind its first generation, and to take all five steps
makes no difference. -/
theorem sprout_stops_unseen : ∃ spec, Specification.ofProgram sprout = .ok spec ∧
    let run : Run := ⟨.new spec 100, spec.context (.ofSeed 7)⟩
    run.iterate = run.iterateInFull ∧ run.iterate.2.derivation.generations = 1 ∧
      ∃ target, 1 < target ∧ Ends target run.iterate.2 := by
  refine ⟨_, rfl, ?_⟩
  intro run
  have hcount : ((run.context.evaluate run.derivation.spec.iterate).1.toOption.map
      Number.toCount) = some 5 := by decide +kernel
  have hone : run.iterate.2.derivation.generations = 1 := by decide +kernel
  obtain ⟨⟨⟩, hok⟩ := exists_of_isOk (x := run.iterate.1) (by decide +kernel)
  obtain ⟨hfull, hends⟩ := iterate_eq_iterateInFull
    (show Specification.ofProgram sprout = .ok run.derivation.spec from rfl)
  obtain ⟨requested, hrequested, hlast⟩ := hends hok
  refine ⟨hfull, hone, Number.toCount requested, ?_, hlast⟩
  rw [hrequested] at hcount
  have hfive : Number.toCount requested = 5 := Option.some.inj hcount
  omega

end Run

end LSystem
