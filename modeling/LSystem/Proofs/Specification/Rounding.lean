import LSystem.Proofs.Specification.Intervals

/-!
# Choice under any rounding

How sums, differences and products are rounded decides which rule a draw falls on,
but not whether the choice is a sound one.  `chooseRounded` is the choice of a
specification under any `Rounding`, and rounding to the nearest double gives back
the choice itself.

`ChoiceEnds` lists how a choice among several rules can end.  The weights are
evaluated once each and in order, and the first that has no value or is negative
ends the choice; so does a total that cannot be used.  Only after that is anything
drawn, once, and then a rule is found whose weight is above zero.
-/

namespace LSystem

open Syntax Eval Randomness Number

/-- A rounding that takes nothing off a point and puts every point as high as the
total, so that no weight takes a point below zero. -/
def Rounding.blunt : Rounding where
  add := (· + ·)
  sub point _ := point
  mul _ total := total
  zero_add_zero := nearest.zero_add_zero
  sub_zero _ _ _ := .inl rfl
  point_not_lt_zero _ _ hfinite htotal :=
    not_lt_zero_of_isNegative (isNegative_of_not_le_zero hfinite htotal)

/-- The arithmetic of a run under a rounding. -/
def Arithmetic.rounded (r : Rounding) (s : Scope) : Arithmetic EvalM (Rounded r) := doubles s

/-- A rule that was chosen under a rounding. -/
def Chosen.ofRounded {r : Rounding} (chosen : Chosen (Rounded r)) : Choice :=
  ⟨chosen.position, chosen.rule, chosen.weighing.map fun (point, total) => ⟨point, total⟩⟩

/-- The rule that replaces a name, if it has any, under a rounding. -/
def Specification.chooseRounded (spec : Specification) (r : Rounding) (s : Scope)
    (name : String) : EvalM (Option Choice) :=
  Option.map Chosen.ofRounded <$> (Arithmetic.rounded r s).choose spec name

/-- The places of rules do not count for their total. -/
theorem Rounding.total_unplaced (r : Rounding) (weighted : List ((Nat × Rule) × Float)) :
    r.total (weighted.map unplaced) = r.total weighted := List.foldl_map

/-! ### How a choice ends -/

/-- How the choice among some rules of a name can end, and where it leaves the
generator.  An error leaves it where the last weight has; a rule is found one draw
later, and its weight is above zero. -/
inductive ChoiceEnds (spec : Specification) (r : Rounding) (s : Scope) (name : String)
    (rules : List Rule) (g : Generator) : Except EvalError (Option Choice) → Generator → Prop
  | unevaluated {before after : List Rule} {rule : Rule} {weights : List (Rule × Float)}
      {middle g' : Generator} {e : EvalError} (hrules : rules = before ++ rule :: after)
      (hbefore : Weights s g before weights middle) (hlow : ∀ entry ∈ weights, ¬ entry.2 < 0)
      (hfails : Fails (s.evaluate rule.bias) middle e g') :
      ChoiceEnds spec r s name rules g (.error e) g'
  | negative {before after : List Rule} {rule : Rule} {weights : List (Rule × Float)}
      {middle g' : Generator} {w : Float} (hrules : rules = before ++ rule :: after)
      (hbefore : Weights s g before weights middle) (hlow : ∀ entry ∈ weights, ¬ entry.2 < 0)
      (hweight : Answers (s.evaluate rule.bias) middle w g') (hnegative : w < 0) :
      ChoiceEnds spec r s name rules g (.error (.invalidBias rule.name w)) g'
  | unusable {weights : List (Rule × Float)} {g' : Generator}
      (hall : Weights s g rules weights g') (hlow : ∀ entry ∈ weights, ¬ entry.2 < 0)
      (htotal : (r.total weights).isFinite = false ∨ r.total weights ≤ 0) :
      ChoiceEnds spec r s name rules g (.error (.invalidBias name (r.total weights))) g'
  | chosen {weights : List (Rule × Float)} {middle : Generator} {i position : Nat} {rule : Rule}
      {w : Float} (hall : Weights s g rules weights middle)
      (hlow : ∀ entry ∈ weights, ¬ entry.2 < 0)
      (hfinite : (r.total weights).isFinite) (hpositive : ¬ r.total weights ≤ 0)
      (hplace : (numbered spec.rules name)[i]? = some (rule, position))
      (hweight : weights[i]? = some (rule, w)) (hpos : 0 < w) :
      ChoiceEnds spec r s name rules g
        (.ok (some ⟨position, rule,
          some ⟨r.mul middle.next.1 (r.total weights), r.total weights⟩⟩)) middle.next.2

namespace Specification

variable {spec : Specification} {r : Rounding} {s : Scope} {name : String}

/-- Rounding to the nearest double is what a specification does. -/
theorem chooseRounded_nearest (spec : Specification) (s : Scope) (name : String) :
    spec.chooseRounded .nearest s name = spec.choose s name :=
  spec.map_toChoice_choose s name

/-- The weights themselves are not rounded. They are evaluated as a specification does; the
rounding comes in with their total and with the point that is drawn. -/
theorem chooseRounded_eq (hseveral : 2 ≤ (spec.candidates name).length) :
    spec.chooseRounded r s name = (do
      let weighted ← weigh s (spec.candidates name)
      if !(r.total weighted).isFinite || r.total weighted ≤ 0 then
        throw (.invalidBias name (r.total weighted))
      else do
        let u ← draw
        return (r.pick (r.mul u (r.total weighted)) weighted).map
          fun (i, rule) => ⟨i, rule, some ⟨r.mul u (r.total weighted), r.total weighted⟩⟩) := by
  unfold chooseRounded
  have hweigh : (Arithmetic.rounded r s).weigh (spec.candidates name) =
      weigh s (spec.candidates name) := Arithmetic.weigh_doubles s _
  rw [Arithmetic.choose_eq_chooseWeighted _ hseveral, Arithmetic.chooseWeighted, map_bind, hweigh]
  refine bind_congr fun weighted => ?_
  simp only
  rw [apply_ite (Option.map Chosen.ofRounded <$> ·), map_bind]
  refine ite_congr rfl (fun _ => rfl) fun _ => bind_congr fun u => ?_
  rw [map_pure, Option.map_map]
  rfl

section Ends

variable {g g' : Generator}

/-- A choice among several rules fails when they are weighed, before anything is drawn. Either a
weight has no value or is negative, or the total cannot be used. -/
theorem choiceEnds_of_fails (hindex : Indexed spec.rules spec.index)
    (hseveral : 2 ≤ (spec.candidates name).length) {e : EvalError}
    (h : Fails (spec.chooseRounded r s name) g e g') :
    ChoiceEnds spec r s name (spec.rulesOf name) g (.error e) g' := by
  have hrules := map_snd_candidates hindex name
  rw [chooseRounded_eq hseveral] at h
  obtain hweigh | ⟨weighted, middle, hweigh, hrest⟩ := fails_bind_cases h
  · obtain ⟨before, candidate, after, weights, start, hcandidates, hbefore, hlow, hends⟩ :=
      fails_weigh_cases hweigh
    rw [hcandidates, List.map_append, List.map_cons] at hrules
    obtain hvalue | ⟨w, hweight, hnegative, rfl⟩ := hends
    · exact .unevaluated hrules.symm hbefore hlow hvalue
    · exact .negative hrules.symm hbefore hlow hweight hnegative
  · obtain ⟨hall, hlow⟩ := weigh_spec hweigh
    rw [hrules] at hall
    split at hrest
    · rename_i htotal
      cases hrest
      rw [Bool.or_eq_true, Bool.not_eq_true', decide_eq_true_eq, ← r.total_unplaced] at htotal
      rw [← r.total_unplaced]
      exact .unusable hall (List.forall_mem_map.2 hlow) htotal
    · obtain hdraw | ⟨u, last, -, hpure⟩ := fails_bind_cases hrest
      · cases hdraw
      · exact absurd hpure not_fails_pure

/-- A choice among several rules that does not fail finds one. The search stops at a weight above
zero, or the fallback is such a weight. -/
theorem choiceEnds_of_answers (hindex : Indexed spec.rules spec.index)
    (hseveral : 2 ≤ (spec.candidates name).length) {answer : Option Choice}
    (h : Answers (spec.chooseRounded r s name) g answer g') :
    ChoiceEnds spec r s name (spec.rulesOf name) g (.ok answer) g' := by
  rw [chooseRounded_eq hseveral] at h
  obtain ⟨weighted, middle, hweigh, hrest⟩ := answers_bind_iff.1 h
  obtain ⟨hall, hlow⟩ := weigh_spec hweigh
  rw [map_snd_candidates hindex name] at hall
  split at hrest
  · exact absurd hrest not_answers_throw
  · rename_i htotal
    rw [Bool.or_eq_true, not_or, Bool.not_eq_true', Bool.not_eq_false, decide_eq_true_eq]
      at htotal
    obtain ⟨hfinite, hpositive⟩ := htotal
    obtain ⟨u, last, hdraw, hpure⟩ := answers_bind_iff.1 hrest
    obtain ⟨rfl, rfl⟩ := answers_draw_iff.1 hdraw
    obtain ⟨rfl, rfl⟩ := answers_pure_iff.1 hpure
    obtain ⟨⟨position, rule⟩, w, hpick, hmem, hpos⟩ := Rounding.pick_positive
      (isFinite_of_answers_weigh hweigh) hfinite hpositive middle.nextBits.1
    change r.pick (r.mul middle.next.1 (r.total weighted)) weighted = _ at hpick
    -- the picked weight and its rule stand at one place
    obtain ⟨i, hi⟩ := List.getElem?_of_mem hmem
    have hplace : (numbered spec.rules name)[i]? = some (rule, position) := by
      rw [← getElem?_candidates hindex, ← map_fst_of_answers_weigh hweigh, List.getElem?_map, hi]
      rfl
    have hweight : (weighted.map unplaced)[i]? = some (rule, w) := by
      rw [List.getElem?_map, hi]
      rfl
    rw [hpick]
    rw [← r.total_unplaced] at hfinite hpositive ⊢
    exact .chosen hall (List.forall_mem_map.2 hlow) hfinite hpositive hplace hweight hpos

end Ends

/-! ### All choices -/

/-- A name without rules keeps its symbol under any rounding: nothing is weighed and nothing
drawn. -/
theorem chooseRounded_of_none (hindex : Indexed spec.rules spec.index)
    (hnone : spec.rulesOf name = []) : spec.chooseRounded r s name = pure none := by
  rw [← map_snd_candidates hindex, List.map_eq_nil_iff] at hnone
  unfold chooseRounded Arithmetic.choose
  rw [hnone]
  rfl

/-- The only rule of a name is chosen under any rounding; its weight is not even evaluated, and no
draw is taken. -/
theorem chooseRounded_of_only (hindex : Indexed spec.rules spec.index) {rule : Rule}
    (honly : spec.rulesOf name = [rule]) : ∃ i, spec.rules[i]? = some rule ∧
      ∀ s, spec.chooseRounded r s name = pure (some ⟨i, rule, none⟩) := by
  rw [← map_snd_candidates hindex, List.map_eq_singleton_iff] at honly
  obtain ⟨⟨i, found⟩, hcandidates, rfl⟩ := honly
  have hplace : (numbered spec.rules name)[0]? = some (found, i) := by
    rw [← getElem?_candidates hindex, hcandidates]
    rfl
  refine ⟨i, (mem_numbered_iff.1 (List.mem_of_getElem? hplace)).1, fun s => ?_⟩
  unfold chooseRounded Arithmetic.choose
  rw [hcandidates]
  rfl

/-- **Choice is sound under any rounding.**  Rounded to the nearest double the
choice is that of the specification.  Under every rounding no rule is chosen only
for a name that has none, and the only rule of a name is chosen in every scope
alike, without a draw.  Several rules have their weights evaluated in order; the
choice ends with the first weight that has no value or is negative, or with a total
that is not finite or not above zero, and nothing is drawn for it.  Otherwise one
draw is taken after the weights, and the rule that is found has a weight above
zero, wherever rounding has put the point. -/
theorem choose_under_rounding {program : Program} (h : ofProgram program = .ok spec) (s : Scope)
    (name : String) :
    let rules := program.alternatives name
    spec.chooseRounded .nearest s name = spec.choose s name ∧
      ∀ r : Rounding,
        (∀ g g', Answers (spec.chooseRounded r s name) g none g' ↔ rules = [] ∧ g' = g) ∧
        (∀ rule, rules = [rule] → ∃ i, spec.rules[i]? = some rule ∧
          ∀ t, spec.chooseRounded r t name = pure (some ⟨i, rule, none⟩)) ∧
        (2 ≤ rules.length → ∀ g, let ended := (spec.chooseRounded r s name).run.run g
          ChoiceEnds spec r s name rules g ended.1 ended.2) := by
  intro rules
  have hindex := indexed_ofProgram h
  have hrules : spec.rulesOf name = rules := rulesOf_eq_alternatives h name
  refine ⟨spec.chooseRounded_nearest s name, fun r => ?_⟩
  have hseveral (hlength : 2 ≤ rules.length) : 2 ≤ (spec.candidates name).length := by
    rw [← hrules, ← map_snd_candidates hindex, List.length_map] at hlength
    exact hlength
  refine ⟨fun g g' => ⟨fun hnone => ?_, ?_⟩, fun rule honly => ?_, fun hlength g => ?_⟩
  · match hcase : rules with
    | [] =>
        rw [chooseRounded_of_none hindex hrules] at hnone
        exact ⟨rfl, (answers_pure_iff.1 hnone).2⟩
    | [rule] =>
        obtain ⟨i, -, hpure⟩ := chooseRounded_of_only (r := r) hindex hrules
        rw [hpure s] at hnone
        cases (answers_pure_iff.1 hnone).1
    | first :: second :: rest =>
        have hends := choiceEnds_of_answers hindex (hseveral (by simp)) hnone
        cases hends
  · rintro ⟨hempty, rfl⟩
    rw [chooseRounded_of_none hindex (hrules.trans hempty)]
    exact answers_pure_iff.2 ⟨rfl, rfl⟩
  · exact chooseRounded_of_only hindex (hrules.trans honly)
  · intro ended
    rw [← hrules]
    match hended : ended with
    | (.error e, g') => exact choiceEnds_of_fails hindex (hseveral hlength) hended
    | (.ok answer, g') => exact choiceEnds_of_answers hindex (hseveral hlength) hended

/-- A raffle with three prizes, of which the last is never won. -/
def raffle : Program :=
  [.start [.named "ticket"],
    .rule "ticket" [.named "book"] (some (.num 1)),
    .rule "ticket" [.named "lamp"] (some (.num 2)),
    .rule "ticket" [.named "car"] (some (.num 0))]

/-- Where no weight takes the point below zero, the last prize with a weight above
zero is won. -/
theorem raffle_wins_lamp : ∃ spec, ofProgram raffle = .ok spec ∧
    let s := (spec.context (.ofSeed 1)).scope
    ∃ choice g', ChoiceEnds spec .blunt s "ticket" (raffle.alternatives "ticket") (.ofSeed 1)
      (.ok (some choice)) g' ∧ choice.rule.body = [.named "lamp"] := by
  refine ⟨_, rfl, ?_⟩
  intro s
  obtain ⟨-, hrounded⟩ := choose_under_rounding
    (show ofProgram raffle = .ok _ from rfl) s "ticket"
  have hends := (hrounded .blunt).2.2 (by decide) (.ofSeed 1)
  generalize hended : (chooseRounded _ .blunt s "ticket").run.run (.ofSeed 1) = ended at hends
  have hlamp : (ended.1.toOption.bind id).map (fun choice => choice.rule.body) =
      some [.named "lamp"] := by
    rw [← hended]
    decide +kernel
  match ended, hlamp with
  | (.ok (some choice), g'), hlamp => exact ⟨choice, g', hends, Option.some.inj hlamp⟩

end Specification

end LSystem
