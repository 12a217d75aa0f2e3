import LSystem.Except
import LSystem.Specification.Build
import LSystem.Specification.Choice

/-!
# The rules of a name

The index of a specification is a second way to say what the names of its rules
say already.  A draft keeps the two in step while its declarations are taken
up, and its rules keep a body that is not empty; so in a finished specification
the candidates for a name are the rules of that name, in the order of the
program.
-/

namespace LSystem

open Syntax

/-- The rules of a name in an array of rules, with their positions. -/
def numbered (rules : Array Rule) (name : String) : List (Rule × Nat) :=
  rules.toList.zipIdx.filter fun entry => entry.1.name == name

/-- A rule with a number is listed for a name exactly if it stands at that place and has that
name. -/
theorem mem_numbered_iff {rules : Array Rule} {name : String} {rule : Rule} {i : Nat} :
    (rule, i) ∈ numbered rules name ↔ rules[i]? = some rule ∧ rule.name = name := by
  rw [numbered, List.mem_filter, List.mk_mem_zipIdx_iff_getElem?, Array.getElem?_toList,
    beq_iff_eq]

/-- A new rule is listed last for its own name, and other names keep their lists. -/
theorem numbered_push (rules : Array Rule) (rule : Rule) (name : String) :
    numbered (rules.push rule) name =
      if rule.name = name then numbered rules name ++ [(rule, rules.size)]
      else numbered rules name := by
  unfold numbered
  rw [Array.toList_push, List.zipIdx_append, List.filter_append, List.zipIdx_singleton]
  by_cases h : rule.name = name <;> simp [h]

/-- The index lists the positions of the rules of every name that has any, and
every rule replaces its name by something. -/
structure Indexed (rules : Array Rule) (index : Bindings (List Nat)) : Prop where
  find : ∀ name, index.find? name =
    if numbered rules name = [] then none else some ((numbered rules name).map Prod.snd)
  body : ∀ rule ∈ rules, rule.body ≠ []

/-- With the index, no name without an entry has rules. -/
theorem Indexed.getD_find {rules : Array Rule} {index : Bindings (List Nat)}
    (h : Indexed rules index) (name : String) :
    (index.find? name).getD [] = (numbered rules name).map Prod.snd := by
  rw [h.find name]
  by_cases hnone : numbered rules name = [] <;> simp [hnone]

namespace Draft

/-- A blank draft has neither rules nor an index, which agree. -/
theorem indexed_blank : Indexed blank.rules blank.index := by
  constructor
  · intro name
    rfl
  · intro rule hrule
    exact absurd hrule (Array.not_mem_empty rule)

/-- One more rule is one more position for its name, and for no other. The position is the number
of rules so far, so it is greater than all that are listed. -/
theorem indexed_addRule {d : Draft} {rule : Rule} (h : Indexed d.rules d.index)
    (hbody : rule.body ≠ []) : Indexed (d.addRule rule).rules (d.addRule rule).index := by
  constructor
  · intro name
    unfold addRule
    rw [Bindings.find?_insert, numbered_push, h.getD_find]
    by_cases hname : rule.name = name
    · subst hname
      simp
    · rw [if_neg hname, if_neg hname]
      exact h.find name
  · intro other hother
    rcases Array.mem_push.1 hother with hold | rfl
    · exact h.body other hold
    · exact hbody

/-- A declaration adds one rule or leaves the rules and their index alone. What can fail about a
declaration has been checked by then, an empty body among it. -/
theorem rules_add {d d' : Draft} {declaration : Declaration} (h : d.add declaration = .ok d') :
    (∃ rule, rule.body ≠ [] ∧ d' = d.addRule rule) ∨
      (d'.rules = d.rules ∧ d'.index = d.index) := by
  cases declaration with
  | start value | length value | width value | color value | iterate value =>
      obtain ⟨declared, -, hd⟩ := bind_eq_ok h
      cases hd
      exact .inr ⟨rfl, rfl⟩
  | rule name body bias =>
      rw [add] at h
      split at h
      · cases h
      · rename_i hbody
        cases h
        refine .inl ⟨⟨name, body, bias.getD (.num 1)⟩, ?_, rfl⟩
        intro hempty
        exact hbody (List.isEmpty_iff.2 hempty)
  | transform name motion =>
      cases h
      exact .inr ⟨rfl, rfl⟩
  | var name value =>
      rw [add] at h
      split at h
      · cases h
      · cases h
        exact .inr ⟨rfl, rfl⟩

/-- Taking up a declaration keeps the rules and the index in step: a rule is added to both, and
every other kind of declaration to neither. -/
theorem indexed_add {d d' : Draft} {declaration : Declaration} (hd : Indexed d.rules d.index)
    (h : d.add declaration = .ok d') : Indexed d'.rules d'.index := by
  obtain ⟨rule, hbody, rfl⟩ | ⟨hrules, hindex⟩ := rules_add h
  · exact indexed_addRule hd hbody
  · rw [hrules, hindex]
    exact hd

/-- Taking up a whole program keeps the two in step, by induction on its declarations. -/
theorem indexed_foldlM {program : Program} : ∀ {d d' : Draft}, Indexed d.rules d.index →
    program.foldlM add d = .ok d' → Indexed d'.rules d'.index := by
  induction program with
  | nil =>
      intro d d' hd h
      cases h
      exact hd
  | cons declaration rest ih =>
      intro d d' hd h
      rw [List.foldlM_cons] at h
      obtain ⟨next, hadd, hrest⟩ := bind_eq_ok h
      exact ih (indexed_add hd hadd) hrest

end Draft

namespace Specification

/-- The rules of a name, in the order of the program. -/
def rulesOf (spec : Specification) (name : String) : List Rule :=
  spec.rules.toList.filter fun rule => rule.name == name

/-- A specification that comes from a program has an exact index. The draft that it is made from
has taken up the program from nothing, and every declaration has kept the two in step. -/
theorem indexed_ofProgram {program : Program} {spec : Specification}
    (h : ofProgram program = .ok spec) : Indexed spec.rules spec.index := by
  obtain ⟨draft, hfold, hfinish⟩ := bind_eq_ok h
  have hdraft := Draft.indexed_foldlM Draft.indexed_blank hfold
  unfold Draft.finish at hfinish
  split at hfinish
  · cases hfinish
  · cases hfinish
    exact hdraft

/-- Without their places the rules listed for a name are the rules of that name. -/
theorem map_fst_numbered (spec : Specification) (name : String) :
    (numbered spec.rules name).map Prod.fst = spec.rulesOf name := by
  have hfilter := List.filter_map (f := Prod.fst) (p := fun rule : Rule => rule.name == name)
    (l := spec.rules.toList.zipIdx)
  rw [List.zipIdx_map_fst] at hfilter
  exact hfilter.symm

/-- What is looked up at positions are rules of the specification; a position out of range would
give none. -/
theorem mem_rules_of_mem_rulesAt {spec : Specification} {entry : Nat × Rule} {positions : List Nat}
    (h : entry ∈ spec.rulesAt positions) : entry.2 ∈ spec.rules := by
  induction positions with
  | nil => cases h
  | cons i rest ih =>
      unfold rulesAt at h
      split at h
      · rename_i rule hrule
        rcases List.mem_cons.1 h with rfl | hrest
        · exact Array.mem_of_getElem? hrule
        · exact ih hrest
      · exact ih h

/-- Positions that hold the given rules give these rules. The induction is on the entries. -/
theorem rulesAt_map_snd (spec : Specification) : ∀ {entries : List (Rule × Nat)},
    (∀ entry ∈ entries, spec.rules[entry.2]? = some entry.1) →
      spec.rulesAt (entries.map Prod.snd) = entries.map Prod.swap := by
  intro entries
  induction entries with
  | nil =>
      intro _
      rfl
  | cons entry rest ih =>
      intro h
      have hentry := h entry List.mem_cons_self
      rw [List.map_cons, rulesAt, hentry, List.map_cons,
        ih fun other hother => h other (List.mem_cons_of_mem entry hother)]
      rfl

/-- The candidates for a name are its rules with their positions. What the choice weighs is thus
told by the rules alone. -/
theorem candidates_eq {spec : Specification} (h : Indexed spec.rules spec.index)
    (name : String) : spec.candidates name = (numbered spec.rules name).map Prod.swap := by
  rw [candidates, h.getD_find]
  apply rulesAt_map_snd
  intro entry hentry
  exact (mem_numbered_iff.1 hentry).1

/-- With the index in step, the candidates for a name are its rules in the order of the
program. -/
theorem map_snd_candidates {spec : Specification} (h : Indexed spec.rules spec.index)
    (name : String) : (spec.candidates name).map Prod.snd = spec.rulesOf name := by
  rw [candidates_eq h, ← map_fst_numbered, List.map_map]
  rfl

/-- A candidate and the rule of the name have the same place among their likes. -/
theorem getElem?_candidates {spec : Specification} (h : Indexed spec.rules spec.index)
    {name : String} {i position : Nat} {rule : Rule} :
    (spec.candidates name)[i]? = some (position, rule) ↔
      (numbered spec.rules name)[i]? = some (rule, position) := by
  rw [candidates_eq h, List.getElem?_map, Option.map_eq_some_iff]
  constructor
  · rintro ⟨⟨found, place⟩, hfound, hswap⟩
    cases hswap
    exact hfound
  · intro hfound
    exact ⟨_, hfound, rfl⟩

/-- The rules of a name are all rules that have this name and no others. -/
theorem mem_rulesOf_iff {spec : Specification} {name : String} {rule : Rule} :
    rule ∈ spec.rulesOf name ↔ rule ∈ spec.rules ∧ rule.name = name := by
  rw [rulesOf, List.mem_filter, Array.mem_toList_iff, beq_iff_eq]

end Specification

end LSystem
