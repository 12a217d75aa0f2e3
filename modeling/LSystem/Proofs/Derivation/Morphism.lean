import LSystem.Proofs.Derivation.Limit
import LSystem.Proofs.Derivation.Unmatched
import Mathlib.Logic.Function.Iterate
import Mathlib.Order.Bounds.Defs

/-!
# Derivations without a choice

When no name has more than one rule, a generation is a morphism of strings: each
symbol has one image, the body of its rule or the symbol itself, and a string
becomes the images of its symbols one after the other.  Nothing is weighed and
nothing is drawn, so a generation can go wrong in one way alone, by writing too
many symbols.

`step_morph_cases` says what one step does in terms of the morphism, and
`steps_of_fits` and `steps_of_exceeds` follow a run of steps.  Images are never
empty, so the strings only grow: if the last of them fits into the limit, all of
them do.
-/

namespace LSystem

open Syntax Eval Randomness

namespace Specification

/-- No name has two rules to choose from. -/
def Deterministic (spec : Specification) : Prop :=
  ∀ name, (spec.rulesOf name).length ≤ 1

/-- The body that replaces a symbol, if there is a rule for it. -/
def body? (spec : Specification) : Symbol → Option (List Symbol)
  | .named name => (spec.rulesOf name).head?.map Rule.body
  | .push | .pop => none

/-- What becomes of a symbol: the body of its rule, or the symbol itself. -/
def image (spec : Specification) (symbol : Symbol) : List Symbol :=
  (spec.body? symbol).getD [symbol]

/-- What becomes of a string: the images of its symbols in their places. -/
def morph (spec : Specification) (u : List Symbol) : List Symbol := u.flatMap spec.image

/-- The start string after some applications of the morphism. -/
def iterated (spec : Specification) (k : Nat) : List Symbol := spec.morph^[k] spec.start

variable {spec : Specification}

/-- Rules of different names leave no choice. Two rules of a name would put this name twice into
the list. -/
theorem deterministic_of_nodup (hnames : (spec.rules.toList.map Rule.name).Nodup) :
    spec.Deterministic := by
  intro name
  have hcount := List.nodup_iff_count_le_one.1 hnames name
  rw [List.count_eq_countP, List.countP_map, List.countP_eq_length_filter] at hcount
  exact hcount

/-- A string becomes the image of its first symbol, and behind it what becomes of the others. -/
theorem morph_cons (symbol : Symbol) (u : List Symbol) :
    spec.morph (symbol :: u) = spec.image symbol ++ spec.morph u := List.flatMap_cons

/-- A symbol without a body to replace it is its own image. -/
theorem image_of_body?_eq_none {symbol : Symbol} (h : spec.body? symbol = none) :
    spec.image symbol = [symbol] := by
  unfold image
  rw [h]
  rfl

/-- No image is empty, because no body is. A symbol without a rule is its own image, which has
length one. -/
theorem length_image_pos (hindex : Indexed spec.rules spec.index) (symbol : Symbol) :
    0 < (spec.image symbol).length := by
  cases hbody : spec.body? symbol with
  | none =>
      rw [image_of_body?_eq_none hbody]
      exact Nat.one_pos
  | some body =>
      cases symbol with
      | named name =>
          obtain ⟨rule, hrule, rfl⟩ := Option.map_eq_some_iff.1 hbody
          have hmem := (mem_rulesOf_iff.1 (List.mem_of_head? hrule)).1
          unfold image
          rw [hbody]
          exact List.length_pos_iff.2 (hindex.body rule hmem)
      | push => cases hbody
      | pop => cases hbody

/-- No generation is shorter than the string before it, because no image is empty: bodies of rules
have a symbol at least. -/
theorem length_le_morph (hindex : Indexed spec.rules spec.index) (u : List Symbol) :
    u.length ≤ (spec.morph u).length := by
  induction u with
  | nil => exact Nat.le_refl 0
  | cons symbol rest ih =>
      have hpos := length_image_pos hindex symbol
      rw [morph_cons, List.length_append, List.length_cons]
      omega

/-- The strings of a derivation only grow. One application of the morphism never makes a string
shorter, and the rest is induction on the number of them. -/
theorem length_iterate_mono (hindex : Indexed spec.rules spec.index) (u : List Symbol)
    {j k : Nat} (h : j ≤ k) : (spec.morph^[j] u).length ≤ (spec.morph^[k] u).length := by
  induction h with
  | refl => exact Nat.le_refl _
  | step _ ih =>
      rw [Function.iterate_succ_apply']
      exact Nat.le_trans ih (length_le_morph hindex _)

end Specification

/-! ### Scans without a choice -/

/-- The scan after one more symbol, in whose place stands a body if there is
one. -/
def Scan.put (scan : Scan) (symbol : Symbol) : Option (List Symbol) → Scan
  | some body => ⟨body.reverseAux scan.written, scan.length + body.length, true⟩
  | none => ⟨symbol :: scan.written, scan.length + 1, scan.matched⟩

/-- Of a choice a scan writes the body alone. Its position and its weight are told to nobody
else. -/
theorem Scan.add_eq_put (scan : Scan) (symbol : Symbol) (choice : Option Choice) :
    scan.add symbol choice = scan.put symbol (choice.map fun choice => choice.rule.body) := by
  cases choice with
  | none => rfl
  | some choice => rfl

variable {spec : Specification}

/-- With at most one rule for each name, the choice is there without evaluating
anything, and it is the same in every scope. -/
theorem chooseFor_eq_pure (hindex : Indexed spec.rules spec.index) (hone : spec.Deterministic)
    (symbol : Symbol) : ∃ choice : Option Choice,
      (∀ s, chooseFor spec s symbol = pure choice) ∧
        (choice.map fun choice => choice.rule.body) = spec.body? symbol := by
  cases symbol with
  | push => exact ⟨none, fun s => rfl, rfl⟩
  | pop => exact ⟨none, fun s => rfl, rfl⟩
  | named name =>
      have hlength := hone name
      change ∃ choice : Option Choice, (∀ s, spec.choose s name = pure choice) ∧
        (choice.map fun choice => choice.rule.body) = (spec.rulesOf name).head?.map Rule.body
      rw [← Specification.map_snd_candidates hindex] at hlength ⊢
      unfold Specification.choose
      match spec.candidates name, hlength with
      | [], _ => exact ⟨none, fun s => rfl, rfl⟩
      | [(i, rule)], _ => exact ⟨some ⟨i, rule, none⟩, fun s => rfl, rfl⟩

/-- With at most one rule for each name, the pieces of a string are its images. -/
theorem pieces_eq_pure (hindex : Indexed spec.rules spec.index) (hone : spec.Deterministic)
    (s : Scope) (u : List Symbol) : spec.pieces s u = pure (u.map spec.image) := by
  have hpiece (symbol : Symbol) :
      replacement symbol <$> chooseFor spec s symbol = pure (spec.image symbol) := by
    obtain ⟨choice, hchoice, hbody⟩ := chooseFor_eq_pure hindex hone symbol
    rw [hchoice s, map_pure, Specification.image, ← hbody]
    cases choice with
    | none => rfl
    | some choice => rfl
  unfold Specification.pieces
  simp only [hpiece, List.mapM_pure]

namespace Derivation

/-- One more symbol of a scan that has nothing to choose. -/
def rewriteSymbol (d : Derivation) (scan : Scan) (symbol : Symbol) :
    Except DerivationError Scan := d.allow (scan.put symbol (d.spec.body? symbol))

/-- The next generation of a derivation that has nothing to choose. -/
def rewrite (d : Derivation) : Except DerivationError Scan :=
  d.symbols.foldlM d.rewriteSymbol .empty

variable {d : Derivation}

/-- Where nothing is to be chosen, one symbol of a scan neither weighs nor draws, and what is left
of it is a function of the scan so far. -/
theorem scanSymbol_eq_rewriteSymbol (hindex : Indexed d.spec.rules d.spec.index)
    (hone : d.spec.Deterministic) (s : Scope) (scan : Scan) (symbol : Symbol) :
    d.scanSymbol s scan symbol = scanSymbol.liftExcept (d.rewriteSymbol scan symbol) := by
  obtain ⟨choice, hchoice, hbody⟩ := chooseFor_eq_pure hindex hone symbol
  unfold scanSymbol rewriteSymbol
  rw [hchoice s, ← hbody, ← Scan.add_eq_put]
  rfl

/-- A scan made of symbols that neither weigh nor draw does not weigh or draw either.  The scan so
far is general, because it changes with every symbol. -/
theorem foldlM_liftExcept (f : Scan → Symbol → Except DerivationError Scan) (u : List Symbol) :
    ∀ scan : Scan, u.foldlM (fun scan symbol => scanSymbol.liftExcept (f scan symbol)) scan =
      scanSymbol.liftExcept (u.foldlM f scan) := by
  induction u with
  | nil =>
      intro scan
      rfl
  | cons symbol rest ih =>
      intro scan
      rw [List.foldlM_cons, List.foldlM_cons]
      cases f scan symbol with
      | error e => rfl
      | ok next => exact ih next

/-- A scan without a choice looks at no scope and takes no draw. -/
theorem scan_eq_rewrite (hindex : Indexed d.spec.rules d.spec.index)
    (hone : d.spec.Deterministic) (s : Scope) :
    d.scan s = scanSymbol.liftExcept d.rewrite := by
  have hsymbol : d.scanSymbol s = fun scan symbol =>
      scanSymbol.liftExcept (d.rewriteSymbol scan symbol) := by
    funext scan symbol
    exact scanSymbol_eq_rewriteSymbol hindex hone s scan symbol
  unfold scan rewrite
  rw [hsymbol]
  exact foldlM_liftExcept d.rewriteSymbol d.symbols .empty

end Derivation

/-! ### Steps -/

namespace Run

variable {run : Run}

/-- A step without a choice leaves the generator alone. A name has one rule at most, which is
taken without a draw, so the whole step can be told without a computation that draws. -/
theorem step_eq_rewrite (hindex : Indexed run.derivation.spec.rules run.derivation.spec.index)
    (hone : run.derivation.spec.Deterministic) : run.step =
      match run.derivation.rewrite with
      | .error e => (.error e, run)
      | .ok scan =>
        if scan.matched then (.ok true, run.accept scan.symbols) else (.ok false, run) := by
  unfold step Context.run
  rw [Derivation.scan_eq_rewrite hindex hone]
  cases run.derivation.rewrite with
  | error e => rfl
  | ok scan => rfl

/-- A step without a choice that fails changes nothing. Not even a draw has been taken, so the run
before the step is the run after it. -/
theorem eq_of_step_error (hindex : Indexed run.derivation.spec.rules run.derivation.spec.index)
    (hone : run.derivation.spec.Deterministic) {e : DerivationError} {next : Run}
    (h : run.step = (.error e, next)) : next = run := by
  rw [step_eq_rewrite hindex hone] at h
  split at h
  · cases h
    rfl
  · split at h <;> cases h

/-- What a step does to a string `u`: it stops at the limit when the image of `u`
is too long, it changes nothing when no symbol of `u` has a rule, and otherwise it
goes on to the image of `u`. -/
theorem step_morph_cases
    (hindex : Indexed run.derivation.spec.rules run.derivation.spec.index)
    (hone : run.derivation.spec.Deterministic) :
    let d := run.derivation
    let next := d.spec.morph d.symbols
    (d.maxSymbols < next.length ∧
        ∃ length, run.step = (.error (.tooLong (d.generations + 1) length d.maxSymbols), run)) ∨
      (next.length ≤ d.maxSymbols ∧ next = d.symbols ∧ run.step = (.ok false, run)) ∨
      (next.length ≤ d.maxSymbols ∧ run.step = (.ok true, run.accept next)) := by
  intro d next
  have hpieces : Answers (d.spec.pieces run.context.scope d.symbols) run.context.generator
      (d.symbols.map d.spec.image) run.context.generator := by
    rw [pieces_eq_pure hindex hone]
    exact answers_pure_iff.2 ⟨rfl, rfl⟩
  have hnext : (d.symbols.map d.spec.image).flatten = next := List.flatMap_def.symm
  have hscan := Derivation.scan_of_answers_pieces hpieces
  rw [hnext] at hscan
  rcases hscan with ⟨hfits, scan, hscan, hholds⟩ | ⟨hlong, length, last, hscan⟩
  · have hstep := run.step_of_answers hscan
    cases hmatched : scan.matched with
    | false =>
        rw [hmatched] at hstep
        exact .inr (.inl ⟨hfits, hnext.symm.trans (hholds.kept hmatched), hstep⟩)
    | true =>
        rw [hmatched, hholds.symbols, hnext] at hstep
        exact .inr (.inr ⟨hfits, hstep⟩)
  · have hstep := run.step_of_fails hscan
    rw [eq_of_step_error hindex hone hstep] at hstep
    exact .inl ⟨hlong, length, hstep⟩

/-- While the strings fit into the limit, steps apply the morphism.  A step that
finds no rule may end them early, because the morphism then changes nothing. -/
theorem steps_of_fits (n : Nat) : ∀ run : Run,
    Indexed run.derivation.spec.rules run.derivation.spec.index →
      run.derivation.spec.Deterministic →
      (∀ k, k < n → (run.derivation.spec.morph^[k + 1] run.derivation.symbols).length ≤
        run.derivation.maxSymbols) →
      ∃ last, run.steps n = (.ok (), last) ∧
        last.derivation.symbols = run.derivation.spec.morph^[n] run.derivation.symbols ∧
        last.context.generator = run.context.generator := by
  induction n with
  | zero =>
      intro run _ _ _
      exact ⟨run, rfl, rfl, rfl⟩
  | succ n ih =>
      intro run hindex hone hfits
      rw [steps]
      rcases step_morph_cases hindex hone with
        ⟨hlong, -⟩ | ⟨-, hfixed, hstep⟩ | ⟨-, hstep⟩
      · exact absurd (hfits 0 (Nat.succ_pos n)) (Nat.not_le_of_lt hlong)
      · rw [hstep]
        exact ⟨run, rfl, (Function.iterate_fixed hfixed (n + 1)).symm, rfl⟩
      · rw [hstep]
        apply ih (run.accept _) hindex hone
        intro k hk
        exact hfits (k + 1) (Nat.succ_lt_succ hk)

/-- Steps stop at the first string that exceeds the limit, and the error tells
its generation. -/
theorem steps_of_exceeds (k : Nat) : ∀ (run : Run) {n : Nat},
    Indexed run.derivation.spec.rules run.derivation.spec.index →
      run.derivation.spec.Deterministic → k < n →
      (∀ j, j < k → (run.derivation.spec.morph^[j + 1] run.derivation.symbols).length ≤
        run.derivation.maxSymbols) →
      run.derivation.maxSymbols <
        (run.derivation.spec.morph^[k + 1] run.derivation.symbols).length →
      ∃ length last, run.steps n = (.error (.tooLong (run.derivation.generations + (k + 1))
          length run.derivation.maxSymbols), last) ∧
        last.context.generator = run.context.generator := by
  induction k with
  | zero =>
      intro run n hindex hone hn _ hlong
      obtain ⟨n, rfl⟩ := Nat.exists_eq_add_of_lt hn
      rw [Nat.zero_add, steps]
      rcases step_morph_cases hindex hone with
        ⟨-, length, hstep⟩ | ⟨hfits, -⟩ | ⟨hfits, -⟩
      · rw [hstep]
        exact ⟨length, run, rfl, rfl⟩
      · exact absurd hfits (Nat.not_le_of_lt hlong)
      · exact absurd hfits (Nat.not_le_of_lt hlong)
  | succ k ih =>
      intro run n hindex hone hn hbefore hlong
      obtain ⟨n, rfl⟩ := Nat.exists_eq_add_of_lt (Nat.lt_of_le_of_lt (Nat.zero_le _) hn)
      rw [Nat.zero_add, steps]
      have hfirst := hbefore 0 (Nat.succ_pos k)
      rcases step_morph_cases hindex hone with
        ⟨htoo, -⟩ | ⟨hfits, hfixed, -⟩ | ⟨-, hstep⟩
      · exact absurd hfirst (Nat.not_le_of_lt htoo)
      · -- a string that stays the same cannot exceed the limit later
        rw [Function.iterate_fixed hfixed, ← hfixed] at hlong
        exact absurd hfits (Nat.not_le_of_lt hlong)
      · rw [hstep]
        have hcount : run.derivation.generations + (k + 1 + 1) =
            run.derivation.generations + 1 + (k + 1) := by omega
        rw [hcount]
        apply ih (run.accept (run.derivation.spec.morph run.derivation.symbols)) hindex hone
        · omega
        · intro j hj
          exact hbefore (j + 1) (Nat.succ_lt_succ hj)
        · exact hlong

end Run

/-! ### Other weights -/

/-- The specification with other weights for its rules. -/
def Specification.reweigh (spec : Specification) (bias : Rule → Expr) : Specification :=
  { spec with rules := spec.rules.map fun rule => { rule with bias := bias rule } }

/-- The run of the specification with other weights. -/
def Run.reweigh (run : Run) (bias : Rule → Expr) : Run :=
  { run with derivation := { run.derivation with spec := run.derivation.spec.reweigh bias } }

namespace Specification

/-- The rules of a name are the same under other weights, in the same order. -/
theorem rulesOf_reweigh (spec : Specification) (bias : Rule → Expr) (name : String) :
    (spec.reweigh bias).rulesOf name =
      (spec.rulesOf name).map fun rule => { rule with bias := bias rule } := by
  unfold rulesOf reweigh
  rw [Array.toList_map, List.filter_map]
  rfl

/-- Other weights give no name a second rule. The names of the rules are what they were. -/
theorem Deterministic.reweigh (hone : spec.Deterministic) (bias : Rule → Expr) :
    (spec.reweigh bias).Deterministic := by
  intro name
  rw [rulesOf_reweigh, List.length_map]
  exact hone name

/-- The body that replaces a symbol does not depend on weights. The rules have the same names and
bodies in the same order, and a body is looked up by the name. -/
theorem body?_reweigh (spec : Specification) (bias : Rule → Expr) :
    (spec.reweigh bias).body? = spec.body? := by
  funext symbol
  cases symbol with
  | named name =>
      unfold body?
      simp only
      rw [rulesOf_reweigh, List.head?_map, Option.map_map]
      rfl
  | push => rfl
  | pop => rfl

/-- An index of the rules is one of the rules under other weights, since it goes by their
names. -/
theorem indexed_reweigh (hindex : Indexed spec.rules spec.index) (bias : Rule → Expr) :
    Indexed (spec.reweigh bias).rules (spec.reweigh bias).index := by
  have hnumbered (name : String) : numbered (spec.reweigh bias).rules name =
      (numbered spec.rules name).map
        (Prod.map (fun rule => { rule with bias := bias rule }) id) := by
    unfold numbered reweigh
    rw [Array.toList_map, List.zipIdx_map, List.filter_map]
    rfl
  constructor
  · intro name
    rw [hnumbered]
    simp only [List.map_eq_nil_iff, List.map_map]
    exact hindex.find name
  · intro rule hrule
    obtain ⟨old, hold, rfl⟩ := Array.mem_map.1 hrule
    exact hindex.body old hold

end Specification

namespace Run

variable {run : Run}

/-- Without a choice a step is the same whatever the weights are. Weights are evaluated only to
decide among several rules. -/
theorem step_reweigh (hindex : Indexed run.derivation.spec.rules run.derivation.spec.index)
    (hone : run.derivation.spec.Deterministic) (bias : Rule → Expr) :
    (run.reweigh bias).step = (run.step.1, run.step.2.reweigh bias) := by
  have hrewrite : (run.reweigh bias).derivation.rewrite = run.derivation.rewrite := by
    unfold Derivation.rewrite
    have hsymbol : (run.reweigh bias).derivation.rewriteSymbol = run.derivation.rewriteSymbol := by
      funext scan symbol
      exact congrArg (fun body? => run.derivation.allow (scan.put symbol (body? symbol)))
        (run.derivation.spec.body?_reweigh bias)
    rw [hsymbol]
    rfl
  rw [step_eq_rewrite (Specification.indexed_reweigh hindex bias) (hone.reweigh bias), hrewrite,
    step_eq_rewrite hindex hone]
  cases run.derivation.rewrite with
  | error e => rfl
  | ok scan =>
      simp only
      split
      · rfl
      · rfl

/-- Without a choice all steps are the same whatever the weights are. The induction is on the
number of steps; none of them changes the specification. -/
theorem steps_reweigh (bias : Rule → Expr) (n : Nat) : ∀ run : Run,
    Indexed run.derivation.spec.rules run.derivation.spec.index →
      run.derivation.spec.Deterministic →
      (run.reweigh bias).steps n = ((run.steps n).1, (run.steps n).2.reweigh bias) := by
  induction n with
  | zero =>
      intro run _ _
      rfl
  | succ n ih =>
      intro run hindex hone
      rw [steps, steps, step_reweigh hindex hone]
      rcases hstep : run.step with ⟨answer, next⟩
      cases answer with
      | error e => rfl
      | ok goes =>
          cases goes with
          | false => rfl
          | true =>
              obtain ⟨g, v, rfl⟩ := eq_accept_of_step hstep
              exact ih _ hindex hone

/-! ### The generations that are asked for -/

/-- The steps of a run that begins again, when the string that they lead to fits
into the limit. -/
theorem iterate_of_fits {requested : Float} {c : Context}
    (hindex : Indexed run.derivation.spec.rules run.derivation.spec.index)
    (hone : run.derivation.spec.Deterministic)
    (hcount : run.context.evaluate run.derivation.spec.iterate = (.ok requested, c))
    (hfits : Number.toCount requested = 0 ∨
      (run.derivation.spec.iterated (Number.toCount requested)).length ≤
        run.derivation.maxSymbols) :
    ∃ last, run.iterate = (.ok (), last) ∧
      last.derivation.symbols = run.derivation.spec.iterated (Number.toCount requested) ∧
      last.context.generator = c.generator := by
  unfold iterate
  rw [hcount]
  apply steps_of_fits _ (({ run with context := c } : Run).restart _) hindex hone
  intro k hk
  rcases hfits with hzero | hlast
  · omega
  · exact Nat.le_trans (Specification.length_iterate_mono hindex _ hk) hlast

/-- The steps of a run that begins again, when the string that they lead to does
not fit into the limit. -/
theorem iterate_of_exceeds {requested : Float} {c : Context}
    (hindex : Indexed run.derivation.spec.rules run.derivation.spec.index)
    (hone : run.derivation.spec.Deterministic)
    (hcount : run.context.evaluate run.derivation.spec.iterate = (.ok requested, c))
    (hsome : 1 ≤ Number.toCount requested)
    (hlong : run.derivation.maxSymbols <
      (run.derivation.spec.iterated (Number.toCount requested)).length) :
    ∃ k length last, run.iterate = (.error (.tooLong k length run.derivation.maxSymbols), last) ∧
      IsLeast {k | 1 ≤ k ∧
        run.derivation.maxSymbols < (run.derivation.spec.iterated k).length} k ∧
      last.context.generator = c.generator := by
  classical
  have hexists : ∃ k, run.derivation.maxSymbols < (run.derivation.spec.iterated (k + 1)).length :=
    ⟨Number.toCount requested - 1, by rwa [Nat.sub_add_cancel hsome]⟩
  have hfirst := Nat.find_spec hexists
  have hbefore (j : Nat) (hj : j < Nat.find hexists) :
      (run.derivation.spec.iterated (j + 1)).length ≤ run.derivation.maxSymbols :=
    Nat.le_of_not_lt (Nat.find_min hexists hj)
  have hle : Nat.find hexists ≤ Number.toCount requested - 1 :=
    Nat.find_min' hexists (by rwa [Nat.sub_add_cancel hsome])
  obtain ⟨length, last, hsteps, hgenerator⟩ := steps_of_exceeds (Nat.find hexists)
    (({ run with context := c } : Run).restart (Number.toCount requested))
    (n := Number.toCount requested) hindex hone (by omega) hbefore hfirst
  refine ⟨Nat.find hexists + 1, length, last, ?_, ⟨⟨by omega, hfirst⟩, ?_⟩, hgenerator⟩
  · unfold iterate
    rw [hcount]
    have hzero : (({ run with context := c } : Run).restart
        (Number.toCount requested)).derivation.generations + (Nat.find hexists + 1) =
          Nat.find hexists + 1 := Nat.zero_add _
    rw [hzero] at hsteps
    exact hsteps
  · rintro k ⟨hk, hlength⟩
    by_contra hless
    have hfit := hbefore (k - 1) (by omega)
    rw [Nat.sub_add_cancel hk] at hfit
    exact absurd hfit (Nat.not_le_of_lt hlength)

/-- Where no name has two rules, the weights can be any expressions at all: a run ends in the same
way, with them in its specification. -/
theorem iterate_reweigh (hindex : Indexed run.derivation.spec.rules run.derivation.spec.index)
    (hone : run.derivation.spec.Deterministic) (bias : Rule → Expr) :
    (run.reweigh bias).iterate = (run.iterate.1, run.iterate.2.reweigh bias) := by
  have hcount : (run.reweigh bias).context.evaluate (run.reweigh bias).derivation.spec.iterate =
      run.context.evaluate run.derivation.spec.iterate := rfl
  unfold iterate
  rw [hcount]
  match run.context.evaluate run.derivation.spec.iterate with
  | (.error e, c) => rfl
  | (.ok requested, c) =>
      exact steps_reweigh bias _ (({ run with context := c } : Run).restart _) hindex hone

/-- **Derivations without a choice iterate a morphism.**  When no name has two
rules and the number of generations has a value, `iterate` applies the morphism to
the start string that number of times.  It fails only when the string in the end
has more symbols than allowed, and then tells the first generation that has; none
at all are needed to come back to the start string, however long it is.  Nothing
is drawn once the number is there, and with any other weights, even such as have
no value, the outcome is the same. -/
theorem iterate_eq_iterated {program : Program} {requested : Float} {c : Context}
    (h : Specification.ofProgram program = .ok run.derivation.spec)
    (hone : run.derivation.spec.Deterministic)
    (hcount : run.context.evaluate run.derivation.spec.iterate = (.ok requested, c)) :
    let d := run.derivation
    let count := Number.toCount requested
    (count = 0 → ∃ last, run.iterate = (.ok (), last) ∧ last.derivation.symbols = d.spec.start) ∧
      (1 ≤ count → (d.spec.iterated count).length ≤ d.maxSymbols →
        ∃ last, run.iterate = (.ok (), last) ∧
          last.derivation.symbols = d.spec.iterated count) ∧
      (1 ≤ count → d.maxSymbols < (d.spec.iterated count).length →
        ∃ k length last, run.iterate = (.error (.tooLong k length d.maxSymbols), last) ∧
          IsLeast {k | 1 ≤ k ∧ d.maxSymbols < (d.spec.iterated k).length} k) ∧
      run.iterate.2.context.generator = c.generator ∧
      ∀ bias, (run.reweigh bias).iterate = (run.iterate.1, run.iterate.2.reweigh bias) := by
  intro d count
  have hindex := Specification.indexed_ofProgram h
  refine ⟨fun hzero => ?_, fun _ hfits => ?_, fun hsome hlong => ?_, ?_,
    iterate_reweigh hindex hone⟩
  · obtain ⟨last, hlast, hsymbols, -⟩ := iterate_of_fits hindex hone hcount (.inl hzero)
    refine ⟨last, hlast, ?_⟩
    have hnone : Number.toCount requested = 0 := hzero
    rw [hsymbols, hnone]
    rfl
  · obtain ⟨last, hlast, hsymbols, -⟩ := iterate_of_fits hindex hone hcount (.inr hfits)
    exact ⟨last, hlast, hsymbols⟩
  · obtain ⟨k, length, last, hlast, hleast, -⟩ := iterate_of_exceeds hindex hone hcount hsome hlong
    exact ⟨k, length, last, hlast, hleast⟩
  · by_cases hfits : count = 0 ∨ (d.spec.iterated count).length ≤ d.maxSymbols
    · obtain ⟨last, hlast, -, hgenerator⟩ := iterate_of_fits hindex hone hcount hfits
      rw [hlast]
      exact hgenerator
    · rw [not_or] at hfits
      obtain ⟨k, length, last, hlast, -, hgenerator⟩ := iterate_of_exceeds hindex hone hcount
        (Nat.one_le_iff_ne_zero.2 hfits.1) (Nat.lt_of_not_le hfits.2)
      rw [hlast]
      exact hgenerator

/-- Algae, whose two kinds of cells have one rule each; the weight of the first
could not be evaluated. -/
def algae : Program :=
  [.start [.named "A"], .rule "A" [.named "A", .named "B"] (some (.ident "unknown")),
    .rule "B" [.named "A"] none, .iterate (.num 7)]

/-- The algae exceed a limit of ten cells in the fifth of seven generations, and no draw is taken
up to there. -/
theorem algae_exceed_ten : ∃ spec, Specification.ofProgram algae = .ok spec ∧
    let run : Run := ⟨.new spec 10, spec.context (.ofSeed 7)⟩
    ∃ length last, run.iterate = (.error (.tooLong 5 length 10), last) ∧
      last.context.generator = .ofSeed 7 := by
  refine ⟨_, rfl, ?_⟩
  intro run
  have hone : run.derivation.spec.Deterministic :=
    Specification.deterministic_of_nodup (by decide)
  have hseven : ((run.context.evaluate run.derivation.spec.iterate).1.toOption.map
      Number.toCount) = some 7 := by decide +kernel
  have hdraws : (run.context.evaluate run.derivation.spec.iterate).2.generator = .ofSeed 7 := by
    decide +kernel
  match hcount : run.context.evaluate run.derivation.spec.iterate with
  | (.error e, c) =>
      rw [hcount] at hseven
      cases hseven
  | (.ok requested, c) =>
      rw [hcount] at hseven hdraws
      have hcounted : Number.toCount requested = 7 := Option.some.inj hseven
      obtain ⟨-, -, hexceeds, hgenerator, -⟩ := iterate_eq_iterated
        (show Specification.ofProgram algae = .ok run.derivation.spec from rfl) hone hcount
      have hlong : run.derivation.maxSymbols <
          (run.derivation.spec.iterated (Number.toCount requested)).length := by
        rw [hcounted]
        decide
      obtain ⟨k, length, last, hlast, ⟨hsome, hfirst⟩, hleast⟩ := hexceeds (by omega) hlong
      rw [hlast] at hgenerator
      -- the strings have 1, 2, 3, 5, 8 and 13 symbols
      have hle : k ≤ 5 := hleast ⟨by decide, by decide⟩
      have hnot : ∀ j, j < 5 → ¬ 10 < (run.derivation.spec.iterated j).length := by decide
      have hge : ¬ k < 5 := fun hless => hnot k hless hfirst
      obtain rfl : k = 5 := by omega
      exact ⟨length, last, hlast, hgenerator.trans hdraws⟩

end Run

end LSystem
