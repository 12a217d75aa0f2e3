import LSystem.Proofs.Derivation.Calls
import Mathlib.Data.List.Infix

/-!
# Balanced brackets

The `level` of a string counts the branches that it opens and leaves open.  A
string is balanced when no prefix closes more than it has opened and nothing is
left open in the end, and its `nesting` is the highest level of a prefix.

One generation of a string by balanced bodies moves no level down and no level
up by more than the nesting of a body: this is `Generation.prefix_level`, from
which balance and a bound on the nesting follow for every string of a lineage.
-/

namespace LSystem

open Syntax Eval Randomness

/-- The number of branches that a string opens less the number that it closes. -/
def level (u : List Symbol) : Int := (u.count .push : Int) - u.count .pop

/-- Every prefix opens at least as many branches as it closes, and the whole
string as many. -/
def Balanced (u : List Symbol) : Prop := (∀ p ∈ u.inits, 0 ≤ level p) ∧ level u = 0

instance (u : List Symbol) : Decidable (Balanced u) :=
  inferInstanceAs (Decidable ((∀ p ∈ u.inits, 0 ≤ level p) ∧ level u = 0))

/-- The greatest number in a list, zero for the empty list. -/
def greatest (ns : List Nat) : Nat := ns.foldr max 0

/-- The most branches that are open at a time. -/
def nesting (u : List Symbol) : Nat := greatest (u.inits.map fun p => (level p).toNat)

/-- The greatest nesting of a rule body. -/
def Specification.bodyNesting (spec : Specification) : Nat :=
  greatest (spec.rules.toList.map fun rule => nesting rule.body)

/-! ### Levels -/

theorem level_nil : level [] = 0 := rfl

/-- Levels add up along a string. So the level of a string can be followed symbol by symbol, or
piece by piece in a generation. -/
theorem level_append (u v : List Symbol) : level (u ++ v) = level u + level v := by
  unfold level
  rw [List.count_append, List.count_append]
  omega

/-- The level of a string is that of its first symbol and that of the others. -/
theorem level_cons (symbol : Symbol) (u : List Symbol) :
    level (symbol :: u) = level [symbol] + level u :=
  level_append [symbol] u

theorem level_push : level [.push] = 1 := by decide

theorem level_pop : level [.pop] = -1 := by decide

/-- A name opens and closes nothing. -/
theorem level_named (name : String) : level [.named name] = 0 := by
  unfold level
  rw [List.count_singleton, List.count_singleton]
  rfl

/-- A number bounds the greatest one of a list exactly when it bounds all of them; the empty list
is bounded by every number. -/
theorem greatest_le_iff {ns : List Nat} {n : Nat} : greatest ns ≤ n ↔ ∀ m ∈ ns, m ≤ n := by
  induction ns with
  | nil => simp [greatest]
  | cons m rest ih =>
      have hcons : greatest (m :: rest) = max m (greatest rest) := rfl
      rw [hcons, Nat.max_le, ih, List.forall_mem_cons]

theorem le_greatest {ns : List Nat} {m : Nat} (h : m ∈ ns) : m ≤ greatest ns :=
  greatest_le_iff.1 (Nat.le_refl _) m h

/-- No prefix of a string has more open branches than the nesting of the string allows. -/
theorem level_le_nesting {p u : List Symbol} (h : p <+: u) : level p ≤ nesting u := by
  have hmem : (level p).toNat ∈ u.inits.map fun p => (level p).toNat :=
    List.mem_map_of_mem ((List.mem_inits p u).2 h)
  have hle := le_greatest hmem
  unfold nesting
  omega

/-- A number bounds the nesting of a string exactly when it bounds the levels of all prefixes.  A
nesting is at least zero, as the empty prefix has level zero. -/
theorem nesting_le_iff {u : List Symbol} {n : Nat} :
    nesting u ≤ n ↔ ∀ p, p <+: u → level p ≤ n := by
  constructor
  · intro h p hp
    have hlevel := level_le_nesting hp
    omega
  · intro h
    apply greatest_le_iff.2
    intro m hm
    obtain ⟨p, hp, rfl⟩ := List.mem_map.1 hm
    have hlevel := h p ((List.mem_inits p u).1 hp)
    omega

/-- A string is balanced when no prefix closes more branches than it opens and the string closes
all of them.  This is the definition, with prefixes in place of the list of them. -/
theorem balanced_iff {u : List Symbol} :
    Balanced u ↔ (∀ p, p <+: u → 0 ≤ level p) ∧ level u = 0 := by
  unfold Balanced
  simp only [List.mem_inits]

/-! ### Levels in a generation -/

/-- A prefix of two parts put together ends in the first or the second of them. -/
theorem prefix_append_cases {p u v : List Symbol} (h : p <+: u ++ v) :
    p <+: u ∨ ∃ q, q <+: v ∧ p = u ++ q := by
  obtain ⟨rest, hrest⟩ := h
  rcases List.append_eq_append_iff.1 hrest with ⟨tail, hu, -⟩ | ⟨tail, hp, hv⟩
  · exact .inl ⟨tail, hu.symm⟩
  · exact .inr ⟨tail, ⟨rest, hv.symm⟩, hp⟩

/-- All bodies of rules are balanced. -/
def Specification.BalancedBodies (spec : Specification) : Prop :=
  ∀ rule ∈ spec.rules, Balanced rule.body

instance (spec : Specification) : Decidable spec.BalancedBodies :=
  inferInstanceAs (Decidable (∀ rule ∈ spec.rules, Balanced rule.body))

variable {spec : Specification} {s : Scope} {g g' : Generator} {u v : List Symbol}

/-- No body of a rule is nested deeper than the deepest of them. -/
theorem Specification.nesting_body_le {rule : Rule} (hrule : rule ∈ spec.rules) :
    nesting rule.body ≤ spec.bodyNesting := by
  apply le_greatest
  have hmem : rule ∈ spec.rules.toList := Array.mem_toList_iff.2 hrule
  exact List.mem_map_of_mem (f := fun rule : Rule => nesting rule.body) hmem

/-- What replaces a symbol ends on the level of the symbol. A body is balanced and so stands for a
name, and a bracket stands for itself. -/
theorem Rewrites.level_eq (hbodies : spec.BalancedBodies) {symbol : Symbol}
    {piece : List Symbol} (h : Rewrites spec s g symbol piece g') :
    level piece = level [symbol] := by
  obtain rfl | ⟨rule, hrule, rfl, rfl⟩ := h.piece_cases
  · rfl
  · rw [level_named]
    exact (hbodies rule hrule).2

/-- On the way through what replaces a symbol the level lies between that of a
place next to the symbol and as much more as a body nests. -/
theorem Rewrites.prefix_level (hbodies : spec.BalancedBodies) {symbol : Symbol}
    {piece q : List Symbol} (h : Rewrites spec s g symbol piece g') (hq : q <+: piece) :
    ∃ p, p <+: [symbol] ∧ level p ≤ level q ∧ level q ≤ level p + spec.bodyNesting := by
  obtain rfl | ⟨rule, hrule, rfl, rfl⟩ := h.piece_cases
  · exact ⟨q, hq, Int.le_refl _, by omega⟩
  · have hlow := (balanced_iff.1 (hbodies rule hrule)).1 q hq
    have hnesting := Specification.nesting_body_le hrule
    have hhigh := level_le_nesting hq
    refine ⟨[], List.nil_prefix, ?_, ?_⟩
    · rw [level_nil]
      exact hlow
    · rw [level_nil]
      omega

/-- A generation by balanced bodies opens as many branches as the string before it, and closes as
many, because every piece has the level of its symbol. -/
theorem Generation.level_eq (hbodies : spec.BalancedBodies) (h : Generation spec s g u v g') :
    level v = level u := by
  induction h with
  | nil g => rfl
  | cons hpiece hrest ih =>
      rename_i symbol piece rest next
      calc level (piece ++ next) = level piece + level next := level_append piece next
        _ = level [symbol] + level rest := by rw [hpiece.level_eq hbodies, ih]
        _ = level (symbol :: rest) := (level_cons symbol rest).symm

/-- A prefix of a generation lies on the level of a prefix of the string before
it, or above it by the nesting of a body at most. -/
theorem Generation.prefix_level (hbodies : spec.BalancedBodies)
    (h : Generation spec s g u v g') : ∀ {q : List Symbol}, q <+: v →
      ∃ p, p <+: u ∧ level p ≤ level q ∧ level q ≤ level p + spec.bodyNesting := by
  induction h with
  | nil g =>
      intro q hq
      exact ⟨q, hq, Int.le_refl _, by omega⟩
  | cons hpiece hrest ih =>
      intro q hq
      rename_i symbol piece rest next
      rcases prefix_append_cases hq with hinside | ⟨tail, htail, rfl⟩
      · obtain ⟨p, hp, hlow, hhigh⟩ := hpiece.prefix_level hbodies hinside
        exact ⟨p, hp.trans (List.prefix_append [symbol] rest), hlow, hhigh⟩
      · obtain ⟨p, hp, hlow, hhigh⟩ := ih htail
        have hpiece_level := hpiece.level_eq hbodies
        refine ⟨symbol :: p, List.cons_prefix_cons.2 ⟨rfl, hp⟩, ?_, ?_⟩
        · rw [level_append, level_cons, hpiece_level]
          omega
        · rw [level_append, level_cons, hpiece_level]
          omega

/-- A generation of a balanced string is balanced: its levels are nowhere lower than those of the
string, and both end on level zero. -/
theorem Generation.balanced (hbodies : spec.BalancedBodies) (h : Generation spec s g u v g')
    (hu : Balanced u) : Balanced v := by
  rw [balanced_iff] at hu ⊢
  obtain ⟨hprefixes, hlevel⟩ := hu
  constructor
  · intro q hq
    obtain ⟨p, hp, hlow, -⟩ := h.prefix_level hbodies hq
    exact Int.le_trans (hprefixes p hp) hlow
  · rw [h.level_eq hbodies, hlevel]

/-- A generation nests deeper by the nesting of a body at most. Each symbol is replaced by a body
that begins at the level of the symbol. -/
theorem Generation.nesting_le (hbodies : spec.BalancedBodies) (h : Generation spec s g u v g') :
    nesting v ≤ nesting u + spec.bodyNesting := by
  apply nesting_le_iff.2
  intro q hq
  obtain ⟨p, hp, -, hhigh⟩ := h.prefix_level hbodies hq
  have hlevel := level_le_nesting hp
  omega

/-! ### Levels along a lineage -/

/-- From a balanced start string all strings of a lineage are balanced, and each
generation adds the nesting of a body at most. -/
theorem Lineage.balanced {contexts : List Context} {older : List (List Symbol)}
    (hbodies : spec.BalancedBodies) (hstart : Balanced spec.start)
    (h : Lineage spec contexts (v :: older)) :
    Balanced v ∧ nesting v ≤ nesting spec.start + older.length * spec.bodyNesting := by
  generalize hstrings : v :: older = strings at h
  induction h generalizing v older with
  | start =>
      cases hstrings
      exact ⟨hstart, by omega⟩
  | next hold hscope hgeneration ih =>
      cases hstrings
      rename_i u older
      obtain ⟨hbalanced, hnesting⟩ := ih rfl
      refine ⟨hgeneration.balanced hbodies hbalanced, ?_⟩
      have hone := hgeneration.nesting_le hbodies
      rw [List.length_cons, Nat.succ_mul]
      omega

end LSystem
