import LSystem.Proofs.Specification.Weights

/-!
# Selecting a rule without its position

A choice tells the position of its rule among all rules of the specification,
but it does not depend on it.  `select` reads the rules of a name alone, in
their order, and `map_rule_choose` says that a specification selects in this way:
where the rules of a name stand, and which other names have rules, makes no
difference to what a symbol is replaced by, to the draws or to the errors.
-/

namespace LSystem

open Syntax Eval Randomness

/-- Rules with the values of their weights, none of which may be negative. -/
def weighRules (s : Scope) : List Rule → EvalM (List (Rule × Float))
  | [] => return []
  | rule :: rest => do
    let weight ← s.evaluate rule.bias
    if weight < 0 then throw (.invalidBias rule.name weight)
    else do
      let others ← weighRules s rest
      return (rule, weight) :: others

/-- The rule among several over which a drawn point lies. -/
def selectWeighted (s : Scope) (name : String) (rules : List Rule) : EvalM (Option Rule) := do
  let weighted ← weighRules s rules
  let total := totalWeight weighted
  if !total.isFinite || total ≤ 0 then throw (.invalidBias name total)
  else do
    let u ← draw
    return pick (u * total) weighted

/-- The rule that replaces a name with the given rules. -/
def select (s : Scope) (name : String) : List Rule → EvalM (Option Rule)
  | [] => return none
  | [rule] => return some rule
  | rules => selectWeighted s name rules

/-! ### Picking under another name -/

section Pick

variable {α ι κ : Type} (f : ι → κ) (weighted : List (ι × α))

theorem totalWeight_map [Add α] [Zero α] :
    totalWeight (weighted.map (Prod.map f id)) = totalWeight weighted := List.foldl_map

variable [LT α] [DecidableLT α] [Zero α]

/-- The last entry of a positive weight is the same one under other names, by induction on the
entries. -/
theorem lastPositive_map :
    lastPositive (weighted.map (Prod.map f id)) = (lastPositive weighted).map f := by
  induction weighted with
  | nil => rfl
  | cons entry rest ih =>
      obtain ⟨i, weight⟩ := entry
      rw [List.map_cons, Prod.map_apply, lastPositive, lastPositive, ih]
      cases lastPositive rest with
      | some j => rfl
      | none => exact (apply_ite (Option.map f) (0 < weight) (some i) none).symm

variable [Sub α]

/-- The search through the weights stops at the same entry under other names, since it compares
points only. -/
theorem firstBelow_map (point : α) :
    firstBelow point (weighted.map (Prod.map f id)) = (firstBelow point weighted).map f := by
  induction weighted generalizing point with
  | nil => rfl
  | cons entry rest ih =>
      obtain ⟨i, weight⟩ := entry
      rw [List.map_cons, Prod.map_apply, firstBelow, firstBelow, ih, id_eq]
      split
      · rfl
      · rfl

/-- What is picked does not depend on how the choices are told apart. -/
theorem pick_map (point : α) :
    pick point (weighted.map (Prod.map f id)) = (pick point weighted).map f := by
  unfold pick
  rw [firstBelow_map, lastPositive_map]
  cases firstBelow point weighted with
  | some i => rfl
  | none => rfl

end Pick

/-! ### The choice of a specification -/

variable (s : Scope)

/-- Weighing candidates and leaving out their positions is weighing their rules: the same weights,
draws and errors. -/
theorem map_unplaced_weigh (candidates : List (Nat × Rule)) :
    List.map unplaced <$> weigh s candidates = weighRules s (candidates.map Prod.snd) := by
  induction candidates with
  | nil => rfl
  | cons candidate rest ih =>
      obtain ⟨i, rule⟩ := candidate
      rw [List.map_cons, weigh, weighRules, map_bind]
      refine bind_congr fun weight => ?_
      split
      · rfl
      · rw [← ih, map_bind, bind_map_left]
        rfl

/-- The rule that is chosen among candidates is the one that is selected among their rules, from
the same draws. -/
theorem map_rule_chooseWeighted (name : String) (candidates : List (Nat × Rule)) :
    Option.map Choice.rule <$> chooseWeighted s name candidates =
      selectWeighted s name (candidates.map Prod.snd) := by
  unfold chooseWeighted selectWeighted
  rw [← map_unplaced_weigh, map_bind, bind_map_left]
  refine bind_congr fun weighted => ?_
  have htotal : totalWeight (weighted.map unplaced) = totalWeight weighted :=
    totalWeight_map Prod.snd weighted
  have hpick (point : Float) : pick point (weighted.map unplaced) =
      (pick point weighted).map Prod.snd := pick_map Prod.snd weighted point
  simp only [htotal, hpick]
  split
  · rfl
  · rw [map_bind]
    refine bind_congr fun u => ?_
    rw [map_pure, Option.map_map]
    rfl

/-- **The rules of a name decide alone.**  What a specification chooses for a
name is selected among the rules of that name, in the order of the program. -/
theorem Specification.map_rule_choose {spec : Specification}
    (hindex : Indexed spec.rules spec.index) (name : String) :
    Option.map Choice.rule <$> spec.choose s name = select s name (spec.rulesOf name) := by
  rw [← map_snd_candidates hindex]
  unfold choose
  match spec.candidates name with
  | [] => rfl
  | [(i, rule)] => rfl
  | first :: second :: rest => exact map_rule_chooseWeighted s name (first :: second :: rest)

end LSystem
