import LSystem.Proofs.Specification.Rules
import Mathlib.Logic.ExistsUnique

/-!
# The index of the rules

The index of a specification and its array of rules are grown side by side, and
nothing ties an entry of the one to a rule of the other but the way they are
grown.  `Indexed` is the tie, and it is kept by every declaration; here is what
it comes to for a finished specification.  An entry is the list of all places
of its name from the first on, so no place in it is out of range, no rule is
found under another name, and what is chosen from are the rules of the name as
the program has them.
-/

namespace LSystem

open Syntax

section Numbered

variable {rules : Array Rule} {name : String} {i : Nat}

/-- The places of the rules of a name are those at which a rule stands that has the name. -/
theorem mem_map_snd_numbered_iff : i ∈ (numbered rules name).map Prod.snd ↔
    ∃ rule, rules[i]? = some rule ∧ rule.name = name := by
  constructor
  · intro h
    obtain ⟨⟨rule, place⟩, hentry, rfl⟩ := List.mem_map.1 h
    exact ⟨rule, mem_numbered_iff.1 hentry⟩
  · intro h
    obtain ⟨rule, hrule⟩ := h
    exact List.mem_map.2 ⟨(rule, i), mem_numbered_iff.2 hrule, rfl⟩

/-- The places of the rules of a name are strictly increasing, being a part of all places in
order. -/
theorem pairwise_lt_numbered (rules : Array Rule) (name : String) :
    ((numbered rules name).map Prod.snd).Pairwise (· < ·) := by
  have hplaces : (rules.toList.zipIdx.map Prod.snd).Pairwise (· < ·) := by
    rw [List.zipIdx_map_snd]
    exact List.pairwise_lt_range'
  exact hplaces.sublist (List.filter_sublist.map Prod.snd)

/-- A name has no places exactly if no rule has that name, so an entry of the index tells whether
there is a rule. -/
theorem numbered_eq_nil_iff : numbered rules name = [] ↔ ∀ rule ∈ rules, rule.name ≠ name := by
  constructor
  · intro hnone rule hrule hname
    obtain ⟨place, hplace⟩ := Array.mem_iff_getElem?.1 hrule
    have hentry : (rule, place) ∈ numbered rules name := mem_numbered_iff.2 ⟨hplace, hname⟩
    rw [hnone] at hentry
    cases hentry
  · intro hother
    refine List.eq_nil_iff_forall_not_mem.2 fun entry hentry => ?_
    obtain ⟨rule, place⟩ := entry
    obtain ⟨hplace, hname⟩ := mem_numbered_iff.1 hentry
    exact hother rule (Array.mem_of_getElem? hplace) hname

end Numbered

namespace Indexed

variable {rules : Array Rule} {index : Bindings (List Nat)} {name : String}
  {positions : List Nat} {i : Nat}

/-- An entry is the list of the places of its name, of which there is one at least. -/
theorem find?_eq_some_iff (h : Indexed rules index) : index.find? name = some positions ↔
    positions = (numbered rules name).map Prod.snd ∧ positions ≠ [] := by
  rw [h.find name]
  by_cases hnone : numbered rules name = []
  · rw [if_pos hnone, hnone]
    constructor
    · intro heq
      cases heq
    · intro h
      exact absurd h.1 h.2
  · rw [if_neg hnone, Option.some_inj]
    constructor
    · intro heq
      subst heq
      exact ⟨rfl, fun hnil => hnone (List.map_eq_nil_iff.1 hnil)⟩
    · intro h
      exact h.1.symm

/-- The index has an entry for a name exactly if some rule has that name; there is no empty entry
and none is missing. -/
theorem exists_find?_iff (h : Indexed rules index) :
    (∃ positions, index.find? name = some positions) ↔ ∃ rule ∈ rules, rule.name = name := by
  constructor
  · intro hentry
    obtain ⟨positions, hfind⟩ := hentry
    obtain ⟨rfl, hne⟩ := h.find?_eq_some_iff.1 hfind
    obtain ⟨place, hplace⟩ := List.exists_mem_of_ne_nil _ hne
    obtain ⟨rule, hrule, hname⟩ := mem_map_snd_numbered_iff.1 hplace
    exact ⟨rule, Array.mem_of_getElem? hrule, hname⟩
  · intro hrules
    obtain ⟨rule, hrule, hname⟩ := hrules
    refine ⟨_, h.find?_eq_some_iff.2 ⟨rfl, fun hnil => ?_⟩⟩
    exact numbered_eq_nil_iff.1 (List.map_eq_nil_iff.1 hnil) rule hrule hname

/-- A number is in the entry of a name exactly if it is the place of a rule of that name: no other
place is listed and none is left out. -/
theorem mem_iff (h : Indexed rules index) (hfind : index.find? name = some positions) :
    i ∈ positions ↔ ∃ rule, rules[i]? = some rule ∧ rule.name = name := by
  obtain ⟨rfl, -⟩ := h.find?_eq_some_iff.1 hfind
  exact mem_map_snd_numbered_iff

/-- A rule is found under its name and under no other. So two entries of the index never share a
place. -/
theorem mem_entry_iff (h : Indexed rules index) {rule : Rule} (hrule : rules[i]? = some rule) :
    (∃ positions, index.find? name = some positions ∧ i ∈ positions) ↔ name = rule.name := by
  constructor
  · intro hentry
    obtain ⟨positions, hfind, hmem⟩ := hentry
    obtain ⟨other, hother, hname⟩ := (h.mem_iff hfind).1 hmem
    cases hrule.symm.trans hother
    exact hname.symm
  · intro hname
    subst hname
    obtain ⟨positions, hfind⟩ := h.exists_find?_iff.2 ⟨rule, Array.mem_of_getElem? hrule, rfl⟩
    exact ⟨positions, hfind, (h.mem_iff hfind).2 ⟨rule, hrule, rfl⟩⟩

end Indexed

namespace Specification

/-- No place of an entry is passed over. -/
theorem map_fst_candidates {spec : Specification} (h : Indexed spec.rules spec.index)
    (name : String) : (spec.candidates name).map Prod.fst = (spec.index.find? name).getD [] := by
  rw [candidates_eq h, h.getD_find, List.map_map]
  rfl

/-- **The index is exact.**  In a specification that comes from a program a name has an entry
exactly when a rule has that name.  The entry is not empty, rises strictly, and holds the place of
a rule exactly when the rule has the name, so all its places are in range; and every rule stands
in the entry of one name alone.  The candidates for a name are taken from all the places of its
entry, and they are the rules of the name in the order of the program. -/
theorem index_exact {program : Program} {spec : Specification}
    (h : ofProgram program = .ok spec) :
    (∀ name, (∃ positions, spec.index.find? name = some positions) ↔
      ∃ rule ∈ spec.rules, rule.name = name) ∧
    (∀ name positions, spec.index.find? name = some positions →
      positions ≠ [] ∧ positions.Pairwise (· < ·) ∧ (∀ i ∈ positions, i < spec.rules.size) ∧
        ∀ i, i ∈ positions ↔ ∃ rule, spec.rules[i]? = some rule ∧ rule.name = name) ∧
    (∀ i < spec.rules.size, ∃! name, ∃ positions,
      spec.index.find? name = some positions ∧ i ∈ positions) ∧
    ∀ name, (spec.candidates name).map Prod.fst = (spec.index.find? name).getD [] ∧
      (spec.candidates name).map Prod.snd =
        spec.rules.toList.filter fun rule => rule.name == name := by
  have hindex := indexed_ofProgram h
  refine ⟨fun name => hindex.exists_find?_iff, fun name positions hfind => ?_, fun i hi => ?_,
    fun name => ⟨map_fst_candidates hindex name, map_snd_candidates hindex name⟩⟩
  · obtain ⟨hpositions, hne⟩ := hindex.find?_eq_some_iff.1 hfind
    refine ⟨hne, hpositions ▸ pairwise_lt_numbered spec.rules name, fun i hi => ?_,
      fun i => hindex.mem_iff hfind⟩
    obtain ⟨rule, hrule, -⟩ := (hindex.mem_iff hfind).1 hi
    exact (Array.getElem?_eq_some_iff.1 hrule).1
  · have hrule : spec.rules[i]? = some spec.rules[i] := Array.getElem?_eq_getElem hi
    exact ⟨spec.rules[i].name, (hindex.mem_entry_iff hrule).2 rfl,
      fun name hname => (hindex.mem_entry_iff hrule).1 hname⟩

/-- A program in which the rules of two names stand among one another. -/
def braid : Program :=
  [.rule "b" [.named "a"] none, .rule "a" [.named "b"] (some (.num 2)), .start [.named "a"],
    .rule "b" [.named "b"] none, .rule "c" [.push, .pop] none, .rule "a" [.named "c"] none]

/-- The rules of `a` are the second and the last, and those are chosen from; `d` has none. -/
theorem braid_indexed : ∃ spec, ofProgram braid = .ok spec ∧
    spec.index.find? "a" = some [1, 4] ∧ spec.index.find? "d" = none ∧
    (∃! name, ∃ positions, spec.index.find? name = some positions ∧ 3 ∈ positions) ∧
    (spec.candidates "a").map Prod.snd =
      spec.rules.toList.filter fun rule => rule.name == "a" := by
  refine ⟨_, rfl, rfl, rfl, ?_⟩
  obtain ⟨-, -, hone, hcandidates⟩ := index_exact (show ofProgram braid = .ok _ from rfl)
  exact ⟨hone 3 (by decide), (hcandidates "a").2⟩

end Specification

end LSystem
