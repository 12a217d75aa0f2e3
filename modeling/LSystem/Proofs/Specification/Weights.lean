import LSystem.Proofs.Eval.Answer
import LSystem.Proofs.Number.Order
import LSystem.Proofs.Specification.Rules

/-!
# Chosen rules

A choice among the rules of a name finds a rule, and the rule that it finds has
a weight above zero.  Rounding cannot spoil either: the point that is drawn has
no sign, a weight that is zero cannot take it below zero, and a total above
zero has a weight above zero in it.  No more than this is asked of a `Rounding`,
so `Rounding.pick_positive` holds however sums and differences are rounded.
-/

namespace LSystem

open Syntax Eval Randomness Number

/-! ### Picking by weight -/

section Pick

variable {α ι : Type} [LT α] [DecidableLT α] [Zero α]

/-- The fallback of a choice is an entry whose weight is above zero. The induction is on the
entries, of which the last one with such a weight is kept. -/
theorem lastPositive_positive {weighted : List (ι × α)} {i : ι}
    (h : lastPositive weighted = some i) : ∃ w, (i, w) ∈ weighted ∧ 0 < w := by
  induction weighted with
  | nil => cases h
  | cons entry rest ih =>
      obtain ⟨j, weight⟩ := entry
      rw [lastPositive] at h
      split at h
      · rename_i k hlast
        obtain rfl : k = i := Option.some.inj h
        obtain ⟨w, hmem, hpos⟩ := ih hlast
        exact ⟨w, List.mem_cons_of_mem _ hmem, hpos⟩
      · split at h
        · rename_i hpos
          obtain rfl : j = i := Option.some.inj h
          exact ⟨weight, List.mem_cons_self, hpos⟩
        · cases h

/-- There is a fallback as soon as some weight is above zero. So a total above zero leaves no
choice without a rule. -/
theorem lastPositive_isSome {weighted : List (ι × α)} {entry : ι × α} (hmem : entry ∈ weighted)
    (hpos : 0 < entry.2) : ∃ i, lastPositive weighted = some i := by
  induction weighted with
  | nil => cases hmem
  | cons first rest ih =>
      obtain ⟨j, weight⟩ := first
      rw [lastPositive]
      split
      · rename_i k _
        exact ⟨k, rfl⟩
      · rename_i hlast
        rcases List.mem_cons.1 hmem with rfl | hrest
        · rw [if_pos hpos]
          exact ⟨j, rfl⟩
        · obtain ⟨k, hk⟩ := ih hrest
          rw [hk] at hlast
          cases hlast

variable [Sub α]

/-- The weight takes no point across zero unless it is above zero. -/
def Crosses (weight : α) : Prop := ∀ point : α, ¬ point < 0 → point - weight < 0 → 0 < weight

/-- The entry at which the search stops has a weight above zero: until there the point was not
below zero, and it is taken below by this weight. The induction is on the entries. -/
theorem firstBelow_positive {weighted : List (ι × α)} {i : ι} :
    ∀ {point : α}, (∀ entry ∈ weighted, Crosses entry.2) → ¬ point < 0 →
      firstBelow point weighted = some i → ∃ w, (i, w) ∈ weighted ∧ 0 < w := by
  induction weighted with
  | nil =>
      intro point _ _ h
      cases h
  | cons entry rest ih =>
      intro point hcross hpoint h
      obtain ⟨j, weight⟩ := entry
      rw [firstBelow] at h
      split at h
      · rename_i hbelow
        obtain rfl : j = i := Option.some.inj h
        exact ⟨weight, List.mem_cons_self,
          hcross (j, weight) List.mem_cons_self point hpoint hbelow⟩
      · rename_i habove
        obtain ⟨w, hmem, hpos⟩ :=
          ih (fun other hother => hcross other (List.mem_cons_of_mem _ hother)) habove h
        exact ⟨w, List.mem_cons_of_mem _ hmem, hpos⟩

/-- A point that is not below zero picks something, whose weight is above zero,
as soon as there is such a weight. -/
theorem pick_positive {point : α} {weighted : List (ι × α)}
    (hcross : ∀ entry ∈ weighted, Crosses entry.2) (hpoint : ¬ point < 0)
    (hsome : ∃ entry ∈ weighted, 0 < entry.2) :
    ∃ i w, pick point weighted = some i ∧ (i, w) ∈ weighted ∧ 0 < w := by
  unfold pick
  split
  · rename_i i hfirst
    obtain ⟨w, hmem, hpos⟩ := firstBelow_positive hcross hpoint hfirst
    exact ⟨i, w, rfl, hmem, hpos⟩
  · obtain ⟨entry, hentry, hpos⟩ := hsome
    obtain ⟨i, hlast⟩ := lastPositive_isSome hentry hpos
    obtain ⟨w, hmem, hw⟩ := lastPositive_positive hlast
    exact ⟨i, w, hlast, hmem, hw⟩

end Pick

/-! ### Roundings -/

/-- The point of a draw below a total is not below zero. -/
theorem point_not_lt_zero (bits : UInt64) {total : Float} (hfinite : total.isFinite)
    (htotal : ¬ total ≤ 0) : ¬ unitOfBits bits * total < 0 := by
  apply not_lt_zero_of_isNegative
  apply isNegative_mul
  · exact isNegative_div (isNegative_toFloat bits) rfl
  · exact isNegative_of_not_le_zero hfinite htotal

/-- A way to round the sums, the differences and the products of doubles, of which
a choice asks no more than the three laws. -/
structure Rounding where
  add : Float → Float → Float
  sub : Float → Float → Float
  mul : Float → Float → Float
  /-- Zeros of any signs add up to a zero. -/
  zero_add_zero : ∀ x y : Float, x == 0 → y == 0 → add x y == 0
  /-- Subtracting a zero changes nothing, except perhaps the sign of a zero. -/
  sub_zero : ∀ x z : Float, z == 0 → sub x z = x ∨ (x == 0 ∧ sub x z == 0)
  /-- The point of a draw below a total is not below zero. -/
  point_not_lt_zero : ∀ (bits : UInt64) (total : Float), total.isFinite → ¬ total ≤ 0 →
    ¬ mul (unitOfBits bits) total < 0

/-- Doubles that are reckoned with under a rounding. -/
def Rounded (_ : Rounding) : Type := Float

namespace Rounding

/-- Rounding to the nearest double. -/
def nearest : Rounding where
  add := (· + ·)
  sub := (· - ·)
  mul := (· * ·)
  zero_add_zero _ _ hx hy :=
    beq_zero_iff.2 (unpacked_add_eq_zero (beq_zero_iff.1 hx) (beq_zero_iff.1 hy))
  sub_zero x z hz := by
    rcases sub_zero_cases x (beq_zero_iff.1 hz) with hsame | ⟨hx, hzero⟩
    · exact .inl hsame
    · exact .inr ⟨beq_zero_iff.2 hx, beq_zero_iff.2 hzero⟩
  point_not_lt_zero bits _ := LSystem.point_not_lt_zero bits

variable (r : Rounding)

instance : Add (Rounded r) := ⟨r.add⟩

instance : Sub (Rounded r) := ⟨r.sub⟩

instance : Mul (Rounded r) := ⟨r.mul⟩

instance : Zero (Rounded r) := inferInstanceAs (Zero Float)

instance : LT (Rounded r) := inferInstanceAs (LT Float)

instance : DecidableLT (Rounded r) := inferInstanceAs (DecidableLT Float)

instance : LE (Rounded r) := inferInstanceAs (LE Float)

instance : DecidableLE (Rounded r) := inferInstanceAs (DecidableLE Float)

variable {ι : Type}

/-- The sum of weights, rounded after each of them. -/
def total (weighted : List (ι × Float)) : Float :=
  weighted.foldl (fun total entry => r.add total entry.2) 0

/-- The choice over which a point lies. -/
def pick (point : Float) (weighted : List (ι × Float)) : Option ι :=
  LSystem.pick (α := Rounded r) point weighted

variable {r}

/-- A finite double that is not below zero can be a weight. -/
theorem crosses {w : Float} (hfinite : w.isFinite) (hlow : ¬ w < 0) :
    Crosses (α := Rounded r) w := by
  intro point hpoint hbelow
  by_contra hhigh
  have hzero := beq_zero_iff.2 (unpacked_eq_zero hfinite hlow hhigh)
  rcases r.sub_zero point w hzero with hsame | ⟨-, hleft⟩
  · have hstays : ¬ r.sub point w < 0 := by
      rw [hsame]
      exact hpoint
    exact hstays hbelow
  · exact not_lt_zero_of_unpacked_eq_zero (beq_zero_iff.1 hleft) hbelow

/-- Weights that are all zero add up to zero. Each sum of zeros is a zero under any rounding that
is allowed. -/
theorem total_beq_zero {weighted : List (ι × Float)} (h : ∀ entry ∈ weighted, entry.2 == 0) :
    r.total weighted == 0 := by
  have hfold : ∀ sum : Float, sum == 0 →
      weighted.foldl (fun total entry => r.add total entry.2) sum == 0 := by
    induction weighted with
    | nil =>
        intro sum hsum
        exact hsum
    | cons entry rest ih =>
        intro sum hsum
        apply ih fun other hother => h other (List.mem_cons_of_mem _ hother)
        exact r.zero_add_zero sum entry.2 hsum (h entry List.mem_cons_self)
  exact hfold 0 (beq_zero_iff.2 ⟨.positive, unpacked_zero⟩)

/-- Among finite weights with a total above zero one is above zero. Otherwise all weights are
zeros, and their total is one. -/
theorem exists_positive_weight {weighted : List (ι × Float)}
    (hweights : ∀ entry ∈ weighted, entry.2.isFinite ∧ ¬ entry.2 < 0)
    (htotal : ¬ r.total weighted ≤ 0) : ∃ entry ∈ weighted, 0 < entry.2 := by
  by_contra hnone
  apply htotal
  apply le_zero_of_unpacked_eq_zero
  apply beq_zero_iff.1
  apply total_beq_zero
  intro entry hentry
  obtain ⟨hfinite, hlow⟩ := hweights entry hentry
  apply beq_zero_iff.2
  apply unpacked_eq_zero hfinite hlow
  intro hpos
  exact hnone ⟨entry, hentry, hpos⟩

/-- **Rounding spoils no draw.**  When weights that are finite and not negative have
a total above zero, every draw picks one that is above zero. -/
theorem pick_positive {weighted : List (ι × Float)}
    (hweights : ∀ entry ∈ weighted, entry.2.isFinite ∧ ¬ entry.2 < 0)
    (hfinite : (r.total weighted).isFinite) (htotal : ¬ r.total weighted ≤ 0) (bits : UInt64) :
    ∃ i w, r.pick (r.mul (unitOfBits bits) (r.total weighted)) weighted = some i ∧
      (i, w) ∈ weighted ∧ 0 < w := by
  apply LSystem.pick_positive (α := Rounded r)
  · intro entry hentry
    exact crosses (hweights entry hentry).1 (hweights entry hentry).2
  · exact r.point_not_lt_zero bits _ hfinite htotal
  · exact exists_positive_weight hweights htotal

end Rounding

/-! ### The choice of a rule -/

/-- The weights of some rules, evaluated in the scope one after the other from
the generator `g` on. -/
inductive Weights (s : Scope) : Generator → List Rule → List (Rule × Float) → Generator → Prop
  | nil (g : Generator) : Weights s g [] [] g
  | cons {g middle g' : Generator} {rule : Rule} {w : Float} {rest : List Rule}
      {others : List (Rule × Float)} (hweight : Answers (s.evaluate rule.bias) g w middle)
      (hrest : Weights s middle rest others g') :
      Weights s g (rule :: rest) ((rule, w) :: others) g'

variable {s : Scope} {g g' : Generator}

theorem Weights.map_fst {rules : List Rule} {weights : List (Rule × Float)}
    (h : Weights s g rules weights g') : weights.map Prod.fst = rules := by
  induction h with
  | nil g => rfl
  | cons hweight hrest ih => rw [List.map_cons, ih]

/-- All weights are finite, being values of expressions, which are checked. -/
theorem Weights.isFinite {rules : List Rule} {weights : List (Rule × Float)}
    (h : Weights s g rules weights g') : ∀ entry ∈ weights, entry.2.isFinite := by
  induction h with
  | nil g =>
      intro entry hentry
      cases hentry
  | cons hweight hrest ih =>
      intro entry hentry
      rcases List.mem_cons.1 hentry with rfl | hrest
      · exact isFinite_of_answers_evaluate hweight
      · exact ih entry hrest

/-- A rule with its weight, the position left out. -/
def unplaced (entry : (Nat × Rule) × Float) : Rule × Float := (entry.1.2, entry.2)

/-- Weighing evaluates the weights of all candidates in turn, and none of them is negative. The
induction is on the candidates, as in the other facts about weighing. -/
theorem weigh_spec {candidates : List (Nat × Rule)} :
    ∀ {g g' : Generator} {weighted : List ((Nat × Rule) × Float)},
      Answers (weigh s candidates) g weighted g' →
        Weights s g (candidates.map Prod.snd) (weighted.map unplaced) g' ∧
          ∀ entry ∈ weighted, ¬ entry.2 < 0 := by
  induction candidates with
  | nil =>
      intro g g' weighted h
      obtain ⟨rfl, rfl⟩ := answers_pure_iff.1 h
      refine ⟨.nil _, ?_⟩
      intro entry hentry
      cases hentry
  | cons candidate rest ih =>
      intro g g' weighted h
      obtain ⟨i, rule⟩ := candidate
      obtain ⟨weight, middle, hweight, hrest⟩ := answers_bind_iff.1 h
      split at hrest
      · exact absurd hrest not_answers_throw
      · rename_i hlow
        obtain ⟨others, middle', hothers, hpure⟩ := answers_bind_iff.1 hrest
        obtain ⟨rfl, rfl⟩ := answers_pure_iff.1 hpure
        obtain ⟨hweights, hall⟩ := ih hothers
        refine ⟨.cons hweight hweights, ?_⟩
        intro entry hentry
        rcases List.mem_cons.1 hentry with rfl | hold
        · exact hlow
        · exact hall entry hold

/-- Weights that were evaluated are finite and not negative. A weight below zero would have been
refused, and an infinite one has no value. -/
theorem isFinite_of_answers_weigh {candidates : List (Nat × Rule)}
    {weighted : List ((Nat × Rule) × Float)} (h : Answers (weigh s candidates) g weighted g') :
    ∀ entry ∈ weighted, entry.2.isFinite ∧ ¬ entry.2 < 0 := by
  obtain ⟨hweights, hlow⟩ := weigh_spec h
  intro entry hentry
  exact ⟨hweights.isFinite (unplaced entry) (List.mem_map_of_mem hentry), hlow entry hentry⟩

/-- The weights are attached to the candidates, which stay in order. -/
theorem map_fst_of_answers_weigh {candidates : List (Nat × Rule)} :
    ∀ {g g' : Generator} {weighted : List ((Nat × Rule) × Float)},
      Answers (weigh s candidates) g weighted g' → weighted.map Prod.fst = candidates := by
  induction candidates with
  | nil =>
      intro g g' weighted h
      obtain ⟨rfl, -⟩ := answers_pure_iff.1 h
      rfl
  | cons candidate rest ih =>
      intro g g' weighted h
      obtain ⟨i, rule⟩ := candidate
      obtain ⟨weight, middle, -, hrest⟩ := answers_bind_iff.1 h
      split at hrest
      · exact absurd hrest not_answers_throw
      · obtain ⟨others, middle', hothers, hpure⟩ := answers_bind_iff.1 hrest
        obtain ⟨rfl, -⟩ := answers_pure_iff.1 hpure
        rw [List.map_cons, ih hothers]

/-- Weighing fails at the first candidate whose weight has no value or is negative,
once those before it are evaluated, and looks at none behind it. -/
theorem fails_weigh_cases {e : EvalError} {candidates : List (Nat × Rule)} :
    ∀ {g g' : Generator}, Fails (weigh s candidates) g e g' →
      ∃ (before : List (Nat × Rule)) (candidate : Nat × Rule) (after : List (Nat × Rule))
        (weights : List (Rule × Float)) (middle : Generator),
        candidates = before ++ candidate :: after ∧
          Weights s g (before.map Prod.snd) weights middle ∧ (∀ entry ∈ weights, ¬ entry.2 < 0) ∧
          (Fails (s.evaluate candidate.2.bias) middle e g' ∨
            ∃ w, Answers (s.evaluate candidate.2.bias) middle w g' ∧ w < 0 ∧
              e = .invalidBias candidate.2.name w) := by
  induction candidates with
  | nil =>
      intro g g' h
      exact absurd h not_fails_pure
  | cons candidate rest ih =>
      intro g g' h
      obtain ⟨i, rule⟩ := candidate
      have hnone : ∀ entry ∈ ([] : List (Rule × Float)), ¬ entry.2 < 0 := nofun
      obtain hweight | ⟨weight, middle, hweight, hrest⟩ := fails_bind_cases h
      · exact ⟨[], (i, rule), rest, [], g, rfl, .nil g, hnone, .inl hweight⟩
      · split at hrest
        · rename_i hnegative
          cases hrest
          exact ⟨[], (i, rule), rest, [], g, rfl, .nil g, hnone,
            .inr ⟨weight, hweight, hnegative, rfl⟩⟩
        · rename_i hlow
          obtain hothers | ⟨others, middle', -, hpure⟩ := fails_bind_cases hrest
          · obtain ⟨before, failing, after, weights, start, rfl, hweights, hall, hfails⟩ :=
              ih hothers
            refine ⟨(i, rule) :: before, failing, after, (rule, weight) :: weights, start, rfl,
              .cons hweight hweights, ?_, hfails⟩
            exact List.forall_mem_cons.2 ⟨hlow, hall⟩
          · exact absurd hpure not_fails_pure

/-- A choice by weights finds a candidate whose weight was evaluated to a number
above zero; after the weights it takes one draw. -/
theorem chooseWeighted_spec {name : String} {candidates : List (Nat × Rule)}
    {answer : Option Choice} (h : Answers (chooseWeighted s name candidates) g answer g') :
    ∃ choice w weights middle, answer = some choice ∧
      Weights s g (candidates.map Prod.snd) weights middle ∧
      (choice.rule, w) ∈ weights ∧ 0 < w ∧ g' = middle.next.2 := by
  obtain ⟨weighted, middle, hweigh, hrest⟩ := answers_bind_iff.1 h
  obtain ⟨hweights, hlow⟩ := weigh_spec hweigh
  simp only at hrest
  split at hrest
  · exact absurd hrest not_answers_throw
  · rename_i htotal
    rw [Bool.or_eq_true, not_or, Bool.not_eq_true', Bool.not_eq_false, decide_eq_true_eq]
      at htotal
    obtain ⟨hfinite, hpositive⟩ := htotal
    obtain ⟨u, middle', hdraw, hpure⟩ := answers_bind_iff.1 hrest
    obtain ⟨hanswer, hlast⟩ := answers_pure_iff.1 hpure
    obtain ⟨rfl, rfl⟩ := answers_draw_iff.1 hdraw
    obtain ⟨⟨i, rule⟩, w, hpick, hmem, hpos⟩ := Rounding.pick_positive (r := .nearest)
      (isFinite_of_answers_weigh hweigh) hfinite hpositive middle.nextBits.1
    change pick (middle.next.1 * totalWeight weighted) weighted = _ at hpick
    rw [hpick] at hanswer
    exact ⟨_, w, _, middle, hanswer, hweights, List.mem_map_of_mem (f := unplaced) hmem, hpos,
      hlast⟩

end LSystem
