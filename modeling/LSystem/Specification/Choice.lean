import LSystem.Specification.Basic
import LSystem.Eval.Basic

/-!
# Weighted choice of rules

A name with one rule is replaced by its body.  Among several rules of a name the
weights decide: they are laid end to end from zero on, a point is drawn below
their total, and the rule is the one over which the point lies.  `pick` finds
it by taking the weights off the point until it falls below zero; where
rounding leaves the point past all of them, the last weight above zero takes
it.

`pick` needs no more of its numbers than subtraction and comparison, so it
serves exact numbers as well as doubles.
-/

namespace LSystem

open Syntax Eval

section Pick

variable {α ι : Type} [Sub α] [LT α] [DecidableLT α] [Zero α]

/-- The first choice whose weight takes the point below zero. -/
def firstBelow : α → List (ι × α) → Option ι
  | _, [] => none
  | point, (i, weight) :: rest =>
    if point - weight < 0 then some i else firstBelow (point - weight) rest

/-- The last choice with a weight above zero. -/
def lastPositive : List (ι × α) → Option ι
  | [] => none
  | (i, weight) :: rest =>
    match lastPositive rest with
    | some j => some j
    | none => if 0 < weight then some i else none

/-- The choice over which a point lies. -/
def pick (point : α) (weighted : List (ι × α)) : Option ι :=
  match firstBelow point weighted with
  | some i => some i
  | none => lastPositive weighted

end Pick

/-- The sum of weights, from the first on. -/
def totalWeight {α ι : Type} [Add α] [Zero α] (weighted : List (ι × α)) : α :=
  weighted.foldl (fun total entry => total + entry.2) 0

/-- The point that was drawn and the total that it lies below. -/
structure Weighing where
  point : Float
  total : Float

/-- A chosen rule by its position, and how it was chosen if there were others. -/
structure Choice where
  position : Nat
  rule : Rule
  weighing : Option Weighing

namespace Specification

/-- The rules at some positions, with these. -/
def rulesAt (spec : Specification) : List Nat → List (Nat × Rule)
  | [] => []
  | i :: positions =>
    match spec.rules[i]? with
    | some rule => (i, rule) :: spec.rulesAt positions
    | none => spec.rulesAt positions

/-- The rules of a name with their positions. -/
def candidates (spec : Specification) (name : String) : List (Nat × Rule) :=
  spec.rulesAt ((spec.index.find? name).getD [])

end Specification

/-- Rules with the values of their weights, none of which may be negative. -/
def weigh (s : Scope) : List (Nat × Rule) → EvalM (List ((Nat × Rule) × Float))
  | [] => return []
  | (i, rule) :: rest => do
    let weight ← s.evaluate rule.bias
    if weight < 0 then throw (.invalidBias rule.name weight)
    else do
      let others ← weigh s rest
      return ((i, rule), weight) :: others

/-- The choice among the rules of a name by their weights. -/
def chooseWeighted (s : Scope) (name : String) (candidates : List (Nat × Rule)) :
    EvalM (Option Choice) := do
  let weighted ← weigh s candidates
  let total := totalWeight weighted
  if !total.isFinite || total ≤ 0 then throw (.invalidBias name total)
  else do
    let u ← draw
    let point := u * total
    return (pick point weighted).map fun (i, rule) => ⟨i, rule, some ⟨point, total⟩⟩

/-- The rule that replaces a name, if it has any.  Without an alternative the
weight is not looked at and nothing is drawn. -/
def Specification.choose (spec : Specification) (s : Scope) (name : String) :
    EvalM (Option Choice) :=
  match spec.candidates name with
  | [] => return none
  | [(i, rule)] => return some ⟨i, rule, none⟩
  | candidates => chooseWeighted s name candidates

end LSystem
