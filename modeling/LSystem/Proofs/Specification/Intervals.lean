import LSystem.Proofs.Specification.Validation
import LSystem.Proofs.Specification.Selection
import Mathlib.Algebra.Order.BigOperators.Group.List
import Mathlib.Algebra.Order.Field.Rat
import Mathlib.Order.Interval.Set.Defs
import Mathlib.Tactic.NormNum

/-!
# Weights as intervals

The weights of the rules of a name, laid end to end, cut the line from zero to
their total into intervals, and a rule should be chosen for just the points of
its interval.  The choice never looks at an end of an interval.  It takes the
weights off the point until the point is below zero, and it keeps a fallback
for a point that is left over.

In doubles the two ways to choose differ by rounding.  To tell what is left
when nothing is rounded, the choice is written once for any numbers that can
be added, subtracted, multiplied and compared (`Arithmetic.choose`).  With
doubles it is the choice of a specification (`map_toChoice_choose`), and with
rational numbers it chooses by intervals and never falls back.
-/

namespace LSystem

open Syntax Eval Randomness

/-! ### The choice over any numbers -/

/-- What a choice asks of the numbers that it reckons with, apart from sums,
products and comparisons. -/
structure Arithmetic (m : Type → Type) (α : Type) where
  /-- The value of an expression. -/
  value : Expr → m α
  /-- The next draw. -/
  draw : m α
  isFinite : α → Bool
  /-- The refusal of a weight, or of a total, of the rules of a name. -/
  refuse : {β : Type} → String → α → m β

/-- A chosen rule with its position and, if there were others, the point that
was drawn and the total that it lies below. -/
structure Chosen (α : Type) where
  position : Nat
  rule : Rule
  weighing : Option (α × α)

namespace Arithmetic

variable {m : Type → Type} [Monad m] {α : Type} [Add α] [Sub α] [Mul α] [Zero α]
  [LT α] [DecidableLT α] [LE α] [DecidableLE α] (arith : Arithmetic m α)

/-- Rules with the values of their weights, none of which may be negative. -/
def weigh : List (Nat × Rule) → m (List ((Nat × Rule) × α))
  | [] => return []
  | (i, rule) :: rest => do
    let weight ← arith.value rule.bias
    if weight < 0 then arith.refuse rule.name weight
    else do
      let others ← weigh rest
      return ((i, rule), weight) :: others

/-- The choice among the rules of a name by their weights. -/
def chooseWeighted (name : String) (candidates : List (Nat × Rule)) :
    m (Option (Chosen α)) := do
  let weighted ← arith.weigh candidates
  let total := totalWeight weighted
  if !arith.isFinite total || total ≤ 0 then arith.refuse name total
  else do
    let u ← arith.draw
    let point := u * total
    return (pick point weighted).map fun (i, rule) => ⟨i, rule, some (point, total)⟩

/-- The rule that replaces a name, if it has any. -/
def choose (spec : Specification) (name : String) : m (Option (Chosen α)) :=
  match spec.candidates name with
  | [] => return none
  | [(i, rule)] => return some ⟨i, rule, none⟩
  | candidates => arith.chooseWeighted name candidates

/-- Among two rules or more the choice goes by the weights; with fewer there is nothing to
weigh. -/
theorem choose_eq_chooseWeighted {spec : Specification} {name : String}
    (hseveral : 2 ≤ (spec.candidates name).length) :
    arith.choose spec name = arith.chooseWeighted name (spec.candidates name) := by
  unfold choose
  match hlist : spec.candidates name, hseveral with
  | first :: second :: rest, _ => rfl

end Arithmetic

/-! ### Doubles -/

/-- The arithmetic of a run: doubles, and the draws of its generator. -/
def Arithmetic.doubles (s : Scope) : Arithmetic EvalM Float where
  value := s.evaluate
  draw := Eval.draw
  isFinite := Float.isFinite
  refuse name value := throw (.invalidBias name value)

def Chosen.toChoice (chosen : Chosen Float) : Choice :=
  ⟨chosen.position, chosen.rule, chosen.weighing.map fun (point, total) => ⟨point, total⟩⟩

/-- With doubles the rules are weighed as a specification weighs them, by induction on the
candidates. -/
theorem Arithmetic.weigh_doubles (s : Scope) (candidates : List (Nat × Rule)) :
    (doubles s).weigh candidates = LSystem.weigh s candidates := by
  induction candidates with
  | nil => rfl
  | cons candidate rest ih =>
      obtain ⟨i, rule⟩ := candidate
      rw [weigh, LSystem.weigh, ih]
      rfl

/-- With doubles, the choice is that of a specification. The two are written with different names
for the same sums, comparisons and draws. -/
theorem Specification.map_toChoice_choose (spec : Specification) (s : Scope) (name : String) :
    Option.map Chosen.toChoice <$> (Arithmetic.doubles s).choose spec name =
      spec.choose s name := by
  unfold Arithmetic.choose choose
  match spec.candidates name with
  | [] => rfl
  | [(i, rule)] => rfl
  | first :: second :: rest =>
      simp only [Arithmetic.chooseWeighted, chooseWeighted, Arithmetic.weigh_doubles, map_bind]
      refine bind_congr fun weighted => ?_
      rw [apply_ite (Option.map Chosen.toChoice <$> ·), map_bind]
      refine ite_congr rfl (fun _ => rfl) fun _ => bind_congr fun u => ?_
      rw [map_pure, Option.map_map]
      rfl

/-! ### Intervals -/

/-- The point lies over the `i`-th of some weights that are laid end to end. -/
def Covers (weights : List ℚ) (point : ℚ) (i : Nat) : Prop :=
  (weights.take i).sum ≤ point ∧ point < (weights.take (i + 1)).sum

section Covers

variable {weight point : ℚ} {weights : List ℚ} {i j : Nat}

/-- The first interval begins at zero and ends at the first weight. -/
theorem covers_cons_zero : Covers (weight :: weights) point 0 ↔ 0 ≤ point ∧ point < weight := by
  simp [Covers]

/-- To lie over a later weight is to lie over it with the first weight taken
off the point. -/
theorem covers_cons_succ :
    Covers (weight :: weights) point (i + 1) ↔ Covers weights (point - weight) i := by
  simp only [Covers, List.take_succ_cons, List.sum_cons, le_sub_iff_add_le, sub_lt_iff_lt_add]
  rw [add_comm weight, add_comm weight]

theorem not_covers_nil : ¬ Covers [] point i := by
  intro h
  rw [Covers, List.take_nil, List.take_nil] at h
  exact absurd (h.1.trans_lt h.2) (lt_irrefl _)

/-- A point over one of some weights that are not negative is not below zero, where the first
interval begins. -/
theorem Covers.nonneg (hweights : ∀ weight ∈ weights, 0 ≤ weight) (h : Covers weights point i) :
    0 ≤ point := by
  refine le_trans (List.sum_nonneg fun weight hmem => ?_) h.1
  exact hweights weight (List.mem_of_mem_take hmem)

/-- A point below the total of the weights lies over one of them, and over no
other. -/
theorem existsUnique_covers (hweights : ∀ weight ∈ weights, 0 ≤ weight) :
    ∀ {point : ℚ}, 0 ≤ point → point < weights.sum → ∃! i, Covers weights point i := by
  induction weights with
  | nil =>
      intro point hlow hhigh
      exact absurd (hlow.trans_lt hhigh) (lt_irrefl _)
  | cons weight rest ih =>
      intro point hlow hhigh
      have hrest : ∀ other ∈ rest, 0 ≤ other := fun other hmem =>
        hweights other (List.mem_cons_of_mem weight hmem)
      by_cases hfirst : point < weight
      · refine ⟨0, covers_cons_zero.2 ⟨hlow, hfirst⟩, fun j hj => ?_⟩
        cases j with
        | zero => rfl
        | succ j =>
            have hbehind := (covers_cons_succ.1 hj).nonneg hrest
            exact absurd (sub_nonneg.1 hbehind) (not_le.2 hfirst)
      · have hbehind := sub_nonneg.2 (not_lt.1 hfirst)
        rw [List.sum_cons] at hhigh
        obtain ⟨i, hi, honly⟩ := ih hrest hbehind (sub_lt_iff_lt_add'.2 hhigh)
        refine ⟨i + 1, covers_cons_succ.2 hi, fun j hj => ?_⟩
        cases j with
        | zero => exact absurd (covers_cons_zero.1 hj).2 hfirst
        | succ j => rw [honly j (covers_cons_succ.1 hj)]

/-! A point as a share of the total. -/

/-- A share of the total from zero to below one lies over one of the weights and over no other,
when the total is above zero. -/
theorem existsUnique_covers_mul_sum {u : ℚ} (hweights : ∀ weight ∈ weights, 0 ≤ weight)
    (hpositive : 0 < weights.sum) (hlow : 0 ≤ u) (hhigh : u < 1) :
    ∃! i, Covers weights (u * weights.sum) i :=
  existsUnique_covers hweights (mul_nonneg hlow hpositive.le)
    (mul_lt_of_lt_one_left hpositive hhigh)

/-- The shares that lie over a weight make up an interval, whose ends are the sums up to the
weight and including it, over the total. -/
theorem covers_mul_sum_iff {u : ℚ} (hpositive : 0 < weights.sum) :
    Covers weights (u * weights.sum) i ↔ u ∈ Set.Ico ((weights.take i).sum / weights.sum)
      ((weights.take (i + 1)).sum / weights.sum) := by
  rw [Covers, Set.mem_Ico, div_le_iff₀ hpositive, lt_div_iff₀ hpositive]

/-- A point over a weight is a share of the total from zero to below one. -/
theorem Covers.unit {u : ℚ} (hweights : ∀ weight ∈ weights, 0 ≤ weight)
    (hpositive : 0 < weights.sum) (h : Covers weights (u * weights.sum) i) : 0 ≤ u ∧ u < 1 := by
  have hrest : 0 ≤ (weights.drop (i + 1)).sum := List.sum_nonneg fun weight hmem =>
    hweights weight (List.mem_of_mem_drop hmem)
  have hend : (weights.take (i + 1)).sum ≤ weights.sum := by
    rw [← List.sum_take_add_sum_drop weights (i + 1)]
    exact le_add_of_nonneg_right hrest
  constructor
  · exact nonneg_of_mul_nonneg_left (h.nonneg hweights) hpositive
  · exact (mul_lt_iff_lt_one_left hpositive).1 (h.2.trans_le hend)

/-- Taking weights off a point stops at the weight over which the point lies.
What is left of the point before a weight is its distance from the end of the
weights already taken off. -/
theorem firstBelow_of_covers {ι : Type} {weighted : List (ι × ℚ)} :
    ∀ {point : ℚ} {i : Nat}, (∀ entry ∈ weighted, 0 ≤ entry.2) →
      Covers (weighted.map Prod.snd) point i →
        ∃ entry, weighted[i]? = some entry ∧ firstBelow point weighted = some entry.1 := by
  induction weighted with
  | nil =>
      intro point i _ h
      exact absurd h not_covers_nil
  | cons entry rest ih =>
      intro point i hweights h
      obtain ⟨choice, weight⟩ := entry
      have hrest : ∀ other ∈ rest, 0 ≤ other.2 := fun other hmem =>
        hweights other (List.mem_cons_of_mem _ hmem)
      cases i with
      | zero =>
          have hbelow := sub_neg.2 (covers_cons_zero.1 h).2
          exact ⟨(choice, weight), rfl, if_pos hbelow⟩
      | succ i =>
          have hcovers := covers_cons_succ.1 h
          have hleft : 0 ≤ point - weight := hcovers.nonneg fun other hmem => by
            obtain ⟨entry, hentry, rfl⟩ := List.mem_map.1 hmem
            exact hrest entry hentry
          obtain ⟨entry, hentry, hfirst⟩ := ih hrest hcovers
          exact ⟨entry, hentry, (if_neg (not_lt.2 hleft)).trans hfirst⟩

end Covers

/-- Without rounding the total of the choice is the sum of the weights. -/
theorem totalWeight_eq_sum {ι : Type} (weighted : List (ι × ℚ)) :
    totalWeight weighted = (weighted.map Prod.snd).sum := by
  rw [List.sum_eq_foldl, List.foldl_map]
  rfl

/-! ### Rational numbers -/

/-- The arithmetic of rational numbers, where nothing is rounded: expressions
have whatever values and draws `value` gives them, and the draw that decides
is `u`. -/
def Arithmetic.exact {ε : Type} (value : Expr → RandomM ε ℚ) (invalid : String → ℚ → ε)
    (u : ℚ) : Arithmetic (RandomM ε) ℚ where
  value
  draw := do
    modify fun g => g.next.2
    return u
  isFinite _ := true
  refuse name value := throw (invalid name value)

section Exact

variable {ε : Type} {value : Expr → RandomM ε ℚ} {invalid : String → ℚ → ε} {u : ℚ}

variable (invalid u) in
/-- Weights that are not negative are attached to their rules. -/
theorem Arithmetic.answers_weigh {candidates : List (Nat × Rule)} :
    ∀ {g g' : Generator} {weights : List ℚ},
      Answers ((candidates.map Prod.snd).mapM fun rule => value rule.bias) g weights g' →
      (∀ weight ∈ weights, 0 ≤ weight) →
        Answers ((exact value invalid u).weigh candidates) g (candidates.zip weights) g' ∧
          weights.length = candidates.length := by
  induction candidates with
  | nil =>
      intro g g' weights h _
      obtain ⟨rfl, rfl⟩ := answers_pure_iff.1 h
      exact ⟨answers_pure_iff.2 ⟨rfl, rfl⟩, rfl⟩
  | cons candidate rest ih =>
      intro g g' weights h hweights
      obtain ⟨i, rule⟩ := candidate
      rw [List.map_cons, List.mapM_cons] at h
      obtain ⟨weight, middle, hweight, htail⟩ := answers_bind_iff.1 h
      obtain ⟨others, last, hothers, hpure⟩ := answers_bind_iff.1 htail
      obtain ⟨rfl, rfl⟩ := answers_pure_iff.1 hpure
      have hlow : ¬ weight < 0 := not_lt.2 (hweights weight List.mem_cons_self)
      obtain ⟨hrest, hlength⟩ := ih hothers fun other hmem =>
        hweights other (List.mem_cons_of_mem weight hmem)
      refine ⟨answers_bind_iff.2 ⟨weight, middle, hweight, ?_⟩, ?_⟩
      · rw [if_neg hlow]
        exact answers_bind_iff.2 ⟨_, _, hrest, answers_pure_iff.2 ⟨rfl, rfl⟩⟩
      · rw [List.length_cons, List.length_cons, hlength]

/-- A rule that the search finds is chosen; the total of the weights has been
accepted, and the generator has moved on by one draw. -/
theorem Arithmetic.answers_chooseWeighted (name : String) {candidates : List (Nat × Rule)}
    {g g' : Generator} {weighted : List ((Nat × Rule) × ℚ)} {position : Nat} {rule : Rule}
    (hweigh : Answers ((exact value invalid u).weigh candidates) g weighted g')
    (hpositive : 0 < totalWeight weighted)
    (hfirst : firstBelow (u * totalWeight weighted) weighted = some (position, rule)) :
    Answers ((exact value invalid u).chooseWeighted name candidates) g
      (some ⟨position, rule, some (u * totalWeight weighted, totalWeight weighted)⟩)
      g'.next.2 := by
  refine answers_bind_iff.2 ⟨weighted, g', hweigh, ?_⟩
  have htotal : ¬ (!(exact value invalid u).isFinite (totalWeight weighted) ||
      decide (totalWeight weighted ≤ 0)) = true := by
    rw [Bool.or_eq_true, not_or, decide_eq_true_eq]
    exact ⟨Bool.false_ne_true, not_le.2 hpositive⟩
  simp only
  rw [if_neg htotal]
  refine answers_bind_iff.2 ⟨u, g'.next.2, rfl, answers_pure_iff.2 ⟨?_, rfl⟩⟩
  rw [pick, hfirst]
  rfl

end Exact

/-- The rules that a program declares for a name, in order. -/
def Syntax.Program.alternatives (program : Program) (name : String) : List Rule :=
  program.inventory.rules.filter fun rule => rule.name == name

namespace Specification

/-- The rules of a name in a specification are those that its program declares for the name, in
order. -/
theorem rulesOf_eq_alternatives {program : Program} {spec : Specification}
    (h : ofProgram program = .ok spec) (name : String) :
    spec.rulesOf name = program.alternatives name := by
  rw [rulesOf, (holds_ofProgram h).rules, Program.alternatives]

variable {ε : Type}

/-- The choice for a name falls on the `i`-th of its rules. -/
def Selects (spec : Specification) (arith : Arithmetic (RandomM ε) ℚ) (g : Generator)
    (name : String) (i : Nat) : Prop :=
  ∃ chosen g', Answers (arith.choose spec name) g (some chosen) g' ∧
    (numbered spec.rules name)[i]? = some (chosen.rule, chosen.position)

/-- No rule is listed twice at one place, since the places are different. -/
theorem nodup_numbered (rules : Array Rule) (name : String) : (numbered rules name).Nodup :=
  (List.Nodup.of_map Prod.snd (List.nodup_zipIdx_map_snd rules.toList)).filter _

/-- At most one place among the rules of a name is chosen. -/
theorem Selects.unique {spec : Specification} {arith : Arithmetic (RandomM ε) ℚ} {g : Generator}
    {name : String} {i j : Nat} (hi : spec.Selects arith g name i)
    (hj : spec.Selects arith g name j) : i = j := by
  obtain ⟨chosen, g', hchosen, hplace⟩ := hi
  obtain ⟨other, h', hother, hplace'⟩ := hj
  cases hchosen.symm.trans hother
  have hlow : i < (numbered spec.rules name).length := (List.getElem?_eq_some_iff.1 hplace).1
  exact (List.getElem?_inj hlow (nodup_numbered spec.rules name)).1 (hplace.trans hplace'.symm)

section Intervals

variable {spec : Specification} {name : String} {value : Expr → RandomM ε ℚ}
  {invalid : String → ℚ → ε} {u : ℚ} {g g' : Generator} {weights : List ℚ} {i : Nat}

variable (invalid) in
/-- The search through the weights of a name finds the rule over whose weight
the point lies, and the choice falls on it. -/
theorem selects_of_covers (hindex : Indexed spec.rules spec.index)
    (hseveral : 2 ≤ (spec.rulesOf name).length)
    (hvalues : Answers ((spec.rulesOf name).mapM fun rule => value rule.bias) g weights g')
    (hweights : ∀ weight ∈ weights, 0 ≤ weight) (hpositive : 0 < weights.sum)
    (hcovers : Covers weights (u * weights.sum) i) :
    spec.Selects (.exact value invalid u) g name i ∧
      ∃ weighted, Answers ((Arithmetic.exact value invalid u).weigh (spec.candidates name)) g
          weighted g' ∧
        firstBelow (u * totalWeight weighted) weighted ≠ none := by
  rw [← map_snd_candidates hindex] at hvalues
  rw [← map_snd_candidates hindex, List.length_map] at hseveral
  obtain ⟨hweigh, hlength⟩ := Arithmetic.answers_weigh invalid u hvalues hweights
  have hsnd : ((spec.candidates name).zip weights).map Prod.snd = weights :=
    List.map_snd_zip hlength.le
  have htotal : totalWeight ((spec.candidates name).zip weights) = weights.sum := by
    rw [totalWeight_eq_sum, hsnd]
  have hentries : ∀ entry ∈ (spec.candidates name).zip weights, 0 ≤ entry.2 := fun entry hmem =>
    hweights entry.2 (List.of_mem_zip hmem).2
  rw [← hsnd, ← totalWeight_eq_sum] at hcovers
  obtain ⟨⟨⟨position, rule⟩, weight⟩, hentry, hfirst⟩ := firstBelow_of_covers hentries hcovers
  have hcandidate : (spec.candidates name)[i]? = some (position, rule) :=
    (List.getElem?_zip_eq_some.1 hentry).1
  rw [← htotal] at hpositive
  have hchoice := Arithmetic.answers_chooseWeighted name hweigh hpositive hfirst
  rw [← Arithmetic.choose_eq_chooseWeighted _ hseveral] at hchoice
  refine ⟨⟨_, _, hchoice, (getElem?_candidates hindex).1 hcandidate⟩, _, hweigh, ?_⟩
  rw [hfirst]
  exact Option.some_ne_none _

/-- The choice falls on a rule exactly for the points over its weight. One direction is the
search, and the other follows because the intervals have no point in common. -/
theorem selects_iff_covers (hindex : Indexed spec.rules spec.index)
    (hseveral : 2 ≤ (spec.rulesOf name).length)
    (hvalues : Answers ((spec.rulesOf name).mapM fun rule => value rule.bias) g weights g')
    (hweights : ∀ weight ∈ weights, 0 ≤ weight) (hpositive : 0 < weights.sum)
    (hlow : 0 ≤ u) (hhigh : u < 1) :
    spec.Selects (.exact value invalid u) g name i ↔ Covers weights (u * weights.sum) i := by
  constructor
  · intro hselects
    obtain ⟨j, hcovers, -⟩ := existsUnique_covers_mul_sum hweights hpositive hlow hhigh
    have hj := selects_of_covers invalid hindex hseveral hvalues hweights hpositive hcovers
    rw [hselects.unique hj.1]
    exact hcovers
  · intro hcovers
    exact (selects_of_covers invalid hindex hseveral hvalues hweights hpositive hcovers).1

variable (invalid) in
/-- **The choice by intervals.**  The choice of a rule, which over doubles is
that of a specification, is made with rational numbers instead.  Let a name
have two rules or more in the program, and let their weights be evaluated to
numbers that are not negative and have a total above zero.

Whatever is drawn from zero to below one, the point lies over the weight of
exactly one rule, that rule is chosen and no other, and the search through the
weights finds it, so the fallback is not asked.  The draws that choose a rule
make up an interval whose length is the share of its weight in the total, and
no draw chooses a rule of weight zero. -/
theorem choose_by_intervals {program : Program} (hspec : ofProgram program = .ok spec)
    (hseveral : 2 ≤ (program.alternatives name).length)
    (hvalues : Answers ((program.alternatives name).mapM fun rule => value rule.bias) g weights g')
    (hweights : ∀ weight ∈ weights, 0 ≤ weight) (hpositive : 0 < weights.sum) :
    (∀ s : Scope, Option.map Chosen.toChoice <$> (Arithmetic.doubles s).choose spec name =
      spec.choose s name) ∧
    let arith (u : ℚ) := Arithmetic.exact value invalid u
    let start (i : Nat) := (weights.take i).sum / weights.sum
    (∀ u, 0 ≤ u → u < 1 →
      (∃! i, Covers weights (u * weights.sum) i) ∧
      (∀ i, spec.Selects (arith u) g name i ↔ Covers weights (u * weights.sum) i) ∧
      ∃ weighted, Answers ((arith u).weigh (spec.candidates name)) g weighted g' ∧
        firstBelow (u * totalWeight weighted) weighted ≠ none) ∧
    ∀ i (hi : i < weights.length),
      {u | (0 ≤ u ∧ u < 1) ∧ spec.Selects (arith u) g name i} =
        Set.Ico (start i) (start (i + 1)) ∧
      start (i + 1) - start i = weights[i] / weights.sum ∧
      (weights[i] = 0 → ∀ u, 0 ≤ u → u < 1 → ¬ spec.Selects (arith u) g name i) := by
  have hindex := indexed_ofProgram hspec
  rw [← rulesOf_eq_alternatives hspec] at hseveral hvalues
  refine ⟨fun s => spec.map_toChoice_choose s name, ?_⟩
  intro arith start
  have hselects {u : ℚ} (hlow : 0 ≤ u) (hhigh : u < 1) (i : Nat) :
      spec.Selects (arith u) g name i ↔ Covers weights (u * weights.sum) i :=
    selects_iff_covers hindex hseveral hvalues hweights hpositive hlow hhigh
  refine ⟨fun u hlow hhigh => ?_, fun i hi => ⟨?_, ?_, ?_⟩⟩
  · have hcovers := existsUnique_covers_mul_sum hweights hpositive hlow hhigh
    obtain ⟨i, hi, -⟩ := id hcovers
    exact ⟨hcovers, hselects hlow hhigh,
      (selects_of_covers invalid hindex hseveral hvalues hweights hpositive hi).2⟩
  · ext u
    rw [Set.mem_ofPred_eq, ← covers_mul_sum_iff hpositive]
    constructor
    · rintro ⟨⟨hlow, hhigh⟩, h⟩
      exact (hselects hlow hhigh i).1 h
    · intro h
      have hunit := h.unit hweights hpositive
      exact ⟨hunit, (hselects hunit.1 hunit.2 i).2 h⟩
  · rw [← sub_div, List.sum_take_succ weights i hi, add_sub_cancel_left]
  · intro hzero u hlow hhigh h
    have hcovers := (hselects hlow hhigh i).1 h
    rw [Covers, List.sum_take_succ weights i hi, hzero, add_zero] at hcovers
    exact absurd (hcovers.1.trans_lt hcovers.2) (lt_irrefl _)

/-- A ticket that wins seldom, and never wins the car. -/
def lottery : Program :=
  [.start [.named "ticket"],
    .rule "ticket" [.named "book"] (some (.ident "seldom")),
    .rule "ticket" [.named "car"] (some (.ident "never")),
    .rule "ticket" [.named "ticket", .named "ticket"] none]

/-- One chance in four for a book. -/
def chances : Expr → RandomM String ℚ
  | .ident "seldom" => return 1
  | .ident "never" => return 0
  | _ => return 3

/-- Where the book ends the third rule begins, and the car between them gets nothing. The point is
the end of the first interval, which belongs to the next one that is not empty. -/
theorem lottery_after_book : ∃ spec, ofProgram lottery = .ok spec ∧
    let arith := Arithmetic.exact chances (fun name _ => name) (1 / 4)
    spec.Selects arith (.ofSeed 1) "ticket" 2 ∧ ¬ spec.Selects arith (.ofSeed 1) "ticket" 1 := by
  have hvalues : Answers ((lottery.alternatives "ticket").mapM fun rule => chances rule.bias)
      (.ofSeed 1) [1, 0, 3] (.ofSeed 1) := rfl
  have hweights : ∀ weight ∈ ([1, 0, 3] : List ℚ), 0 ≤ weight := by decide
  have h (spec : Specification) (hspec : ofProgram lottery = .ok spec) :=
    choose_by_intervals (fun name _ => name) hspec (by decide) hvalues hweights
      (by decide +kernel)
  refine ⟨_, rfl, ?_⟩
  obtain ⟨hdraws, hrules⟩ := (h _ rfl).2
  intro arith
  have hunit : (0 : ℚ) ≤ 1 / 4 ∧ (1 / 4 : ℚ) < 1 := by norm_num
  refine ⟨((hdraws (1 / 4) hunit.1 hunit.2).2.1 2).2 ?_, ?_⟩
  · constructor <;> norm_num
  · exact (hrules 1 (by decide)).2.2 rfl (1 / 4) hunit.1 hunit.2

end Intervals

end Specification

end LSystem
