import LSystem.Proofs.Development.Alike
import LSystem.Proofs.Specification.Validation
import LSystem.Proofs.Specification.Selection
import Mathlib.Data.List.Perm.Basic

/-!
# The order of declarations

Only rules of one name compete with each other, and only transforms of one name
replace each other, so the order among these is the only order of declarations
that counts.  A program and its reordering have inventories that agree name by
name; their specifications are alike, although the rules stand at other
positions, and so is all that comes of them.
-/

namespace LSystem

open Syntax Eval Randomness

/-! ### Bindings name by name -/

/-- The value of a name depends on the entries for that name alone. -/
theorem Bindings.find?_insertAll_filter {α : Type} (b : Bindings α)
    (entries : List (String × α)) (name : String) :
    (b.insertAll entries).find? name =
      (b.insertAll (entries.filter fun entry => entry.1 == name)).find? name := by
  rw [find?_insertAll, find?_insertAll, List.filter_filter]
  simp only [Bool.and_self]

/-- Lists with an entry at most are equal in every order. -/
theorem eq_of_perm_of_length_le_one {α : Type} {l l' : List α} (hperm : l.Perm l')
    (hlength : l.length ≤ 1) : l = l' := by
  match l, hlength with
  | [], _ => exact (List.nil_perm.1 hperm).symm
  | [a], _ => exact List.singleton_perm.1 hperm

/-- Entries that name everything once at most are, name by name, the same in any
order. -/
theorem filter_eq_of_perm {α : Type} {entries entries' : List (String × α)}
    (hperm : entries.Perm entries') (hnames : (entries.map Prod.fst).Nodup) (name : String) :
    entries.filter (fun entry => entry.1 == name) =
      entries'.filter fun entry => entry.1 == name := by
  have hcount := List.nodup_iff_count_le_one.1 hnames name
  rw [List.count_eq_countP, List.countP_map, List.countP_eq_length_filter] at hcount
  exact eq_of_perm_of_length_le_one (hperm.filter _) hcount

/-! ### Programs in another order -/

namespace Syntax

/-- The declaration is a rule for the name. -/
def Declaration.isRuleOf (name : String) : Declaration → Bool
  | .rule other _ _ => other == name
  | _ => false

/-- The declaration is a transform of the name. -/
def Declaration.isTransformOf (name : String) : Declaration → Bool
  | .transform other _ => other == name
  | _ => false

/-- The declarations of a program in another order, which keeps the rules of a
name in order among themselves and the transforms of a name too. -/
structure Program.Reorders (program other : Program) : Prop where
  perm : program.Perm other
  rules : ∀ name, program.filter (Declaration.isRuleOf name) =
    other.filter (Declaration.isRuleOf name)
  transforms : ∀ name, program.filter (Declaration.isTransformOf name) =
    other.filter (Declaration.isTransformOf name)

namespace Program.Reorders

variable {program other : Program}

theorem symm (h : program.Reorders other) : other.Reorders program :=
  ⟨h.perm.symm, fun name => (h.rules name).symm, fun name => (h.transforms name).symm⟩

/-- Two blocks of declarations can change places when no name has rules in both and
no name has transforms in both. -/
theorem append_comm {front back : Program}
    (hrules : ∀ name, front.filter (Declaration.isRuleOf name) = [] ∨
      back.filter (Declaration.isRuleOf name) = [])
    (htransforms : ∀ name, front.filter (Declaration.isTransformOf name) = [] ∨
      back.filter (Declaration.isTransformOf name) = []) :
    Program.Reorders (front ++ back) (back ++ front) := by
  have hfilter (p : Declaration → Bool) (hp : front.filter p = [] ∨ back.filter p = []) :
      (front ++ back).filter p = (back ++ front).filter p := by
    rw [List.filter_append, List.filter_append]
    rcases hp with hfront | hback
    · rw [hfront, List.nil_append, List.append_nil]
    · rw [hback, List.nil_append, List.append_nil]
  exact ⟨List.perm_append_comm, fun name => hfilter _ (hrules name),
    fun name => hfilter _ (htransforms name)⟩

/-- Where nothing is declared twice in one order, nothing is in the other. -/
theorem sound (h : program.Reorders other) (hsound : program.inventory.Sound) :
    other.inventory.Sound := by
  constructor
  · intro what
    have hperm : (program.inventory.globals what).Perm (other.inventory.globals what) :=
      h.perm.filterMap _
    rw [← hperm.length_eq]
    exact hsound.globals what
  · intro rule hrule
    exact hsound.rules rule ((h.perm.filterMap Declaration.rule?).mem_iff.2 hrule)
  · exact ((h.perm.filterMap Declaration.definition?).map Prod.fst).nodup_iff.1
      hsound.definitions

/-- A global that is declared once has the same value in every order. -/
theorem value?_eq (h : program.Reorders other) (hsound : program.inventory.Sound)
    (what : Global) : program.inventory.value? what = other.inventory.value? what :=
  congrArg List.head? (eq_of_perm_of_length_le_one (h.perm.filterMap _) (hsound.globals what))

/-- The rules of a name are the same, and in the same order. -/
theorem rules_eq (h : program.Reorders other) (name : String) :
    program.inventory.rules.filter (fun rule => rule.name == name) =
      other.inventory.rules.filter fun rule => rule.name == name := by
  have hrules (p : Program) : p.inventory.rules.filter (fun rule => rule.name == name) =
      (p.filter (Declaration.isRuleOf name)).filterMap Declaration.rule? := by
    rw [inventory, List.filter_filterMap, List.filterMap_filter]
    congr
    funext declaration
    cases declaration <;> rfl
  rw [hrules, hrules, h.rules]

/-- The transforms of a name are the same, and in the same order, so that the last one is the
same. -/
theorem transforms_eq (h : program.Reorders other) (name : String) :
    program.transforms.filter (fun entry => entry.1 == name) =
      other.transforms.filter fun entry => entry.1 == name := by
  have htransforms (p : Program) : p.transforms.filter (fun entry => entry.1 == name) =
      (p.filter (Declaration.isTransformOf name)).filterMap Declaration.transform? := by
    rw [Program.transforms, List.filter_filterMap, List.filterMap_filter]
    congr
    funext declaration
    cases declaration <;> rfl
  rw [htransforms, htransforms, h.transforms]

/-- A name that is bound once is bound to the same in every order. -/
theorem definitions_eq (h : program.Reorders other) (hsound : program.inventory.Sound)
    (name : String) : program.inventory.definitions.filter (fun entry => entry.1 == name) =
      other.inventory.definitions.filter fun entry => entry.1 == name :=
  filter_eq_of_perm (h.perm.filterMap Declaration.definition?) hsound.definitions name

end Program.Reorders

end Syntax

/-! ### Specifications of reordered programs -/

/-- A context with more definitions. Nothing but the definitions of a context changes when
variables are defined, by induction on the entries. -/
theorem foldl_define (entries : List (String × Expr)) : ∀ c : Context,
    entries.foldl (fun c (name, value) => c.define name value) c =
      { c with definitions := c.definitions.insertAll entries } := by
  induction entries with
  | nil =>
      intro c
      rfl
  | cons entry rest ih =>
      intro c
      exact ih (c.define entry.1 entry.2)

namespace Specification

variable {program other : Program} {spec spec' : Specification}

/-- Specifications of the same declarations in another order are alike. The rules of each name
keep their order, globals and variables are declared once, and the last motion of each name is the
last still. -/
theorem alike_of_reorders (h : program.Reorders other) (hspec : ofProgram program = .ok spec)
    (hspec' : ofProgram other = .ok spec') : spec.Alike spec' := by
  have hholds := holds_ofProgram hspec
  have hholds' := holds_ofProgram hspec'
  have hvalue := h.value?_eq hholds.sound
  have hstart : some spec.start = some spec'.start := by
    rw [← hholds.start, ← hholds'.start, hvalue]
  have hfallback : spec.fallback = spec'.fallback := by
    rw [fallback, fallback, hholds.length, hholds'.length, hholds.width, hholds'.width,
      hholds.color, hholds'.color, hvalue, hvalue, hvalue]
  constructor
  · exact Option.some.inj hstart
  · rw [hholds.iterate, hholds'.iterate, hvalue]
  · funext name
    rw [motion, motion, hfallback, hholds.transforms, hholds'.transforms,
      Bindings.find?_insertAll_filter, h.transforms_eq, ← Bindings.find?_insertAll_filter]
  · intro s name
    have hrules : spec.rulesOf name = spec'.rulesOf name := by
      rw [rulesOf, rulesOf, hholds.rules, hholds'.rules, h.rules_eq]
    rw [map_rule_choose s (indexed_ofProgram hspec), map_rule_choose s (indexed_ofProgram hspec'),
      hrules]

/-- A program and its reordering bind the same to all names at the start of a run, and draw from
the same generator. -/
theorem context_alike_of_reorders (h : program.Reorders other)
    (hspec : ofProgram program = .ok spec) (hspec' : ofProgram other = .ok spec')
    (g : Generator) : (spec.context g).Alike (spec'.context g) := by
  have hholds := holds_ofProgram hspec
  have hfind : ((Context.initial g).definitions.insertAll spec.definitions).find? =
      ((Context.initial g).definitions.insertAll spec'.definitions).find? := by
    funext name
    rw [hholds.definitions, (holds_ofProgram hspec').definitions,
      Bindings.find?_insertAll_filter, h.definitions_eq hholds.sound,
      ← Bindings.find?_insertAll_filter]
  rw [context, context, foldl_define, foldl_define]
  refine ⟨?_, rfl⟩
  rw [Context.scope, Context.scope, hfind]

/-- A program has a meaning when a reordering of it has one. Whether a declaration offends is told
by the inventory, which has the same entries in another order. -/
theorem exists_of_reorders (h : program.Reorders other)
    (hspec : ∃ spec, ofProgram program = .ok spec) : ∃ spec, ofProgram other = .ok spec := by
  rw [ofProgram_isOk_iff] at hspec ⊢
  obtain ⟨hsound, hstart⟩ := hspec
  refine ⟨h.sound hsound, ?_⟩
  rw [← h.value?_eq hsound]
  exact hstart

/-- **The order of declarations does not count**, except among rules of one name
and among transforms of one name.  When a program has a meaning, so has every
such reordering of it, and from any generator on, with any limit and any
turtle, the two come to the same string, the same number of generations and
the same drawing, or fail with the same error. -/
theorem outcome_of_reorders (h : program.Reorders other) :
    ((∃ spec, ofProgram program = .ok spec) ↔ ∃ spec', ofProgram other = .ok spec') ∧
      ∀ spec spec', ofProgram program = .ok spec → ofProgram other = .ok spec' →
        ∀ (maxSymbols : Nat) (g : Generator) (config : RenderConfig),
          (Run.mk (.new spec maxSymbols) (spec.context g)).outcome config =
            (Run.mk (.new spec' maxSymbols) (spec'.context g)).outcome config := by
  refine ⟨⟨exists_of_reorders h, exists_of_reorders h.symm⟩, ?_⟩
  intro spec spec' hspec hspec' maxSymbols g config
  have halike := alike_of_reorders h hspec hspec'
  have hrun : Run.Alike ⟨.new spec maxSymbols, spec.context g⟩
      ⟨.new spec' maxSymbols, spec'.context g⟩ :=
    ⟨⟨halike, rfl, halike.start, rfl⟩, context_alike_of_reorders h hspec hspec' g⟩
  exact hrun.outcome config

/-- A hedge that grows on one of two sides. -/
def hedge : Program :=
  [.start [.named "hedge"],
    .rule "hedge" [.named "hedge", .named "twig"] (some (.num 3)),
    .rule "hedge" [.named "twig", .named "hedge"] none]

/-- What the hedge is made of, and how long it grows. -/
def twigs : Program :=
  [.var "springs" (.num 2), .rule "twig" [.named "leaf", .named "leaf"] none,
    .transform "leaf" (.rotate (.num 30) .deg), .iterate (.ident "springs")]

/-- The hedge comes out the same when it is declared behind its twigs, although its rules then
stand at other positions. -/
theorem hedge_before_twigs : ∃ spec spec', ofProgram (hedge ++ twigs) = .ok spec ∧
    ofProgram (twigs ++ hedge) = .ok spec' ∧
    spec.rules[0]?.map Rule.name = some "hedge" ∧ spec'.rules[0]?.map Rule.name = some "twig" ∧
    let run : Run := ⟨.new spec 100, spec.context (.ofSeed 7)⟩
    let run' : Run := ⟨.new spec' 100, spec'.context (.ofSeed 7)⟩
    (run.outcome .standard).isOk = true ∧ run.outcome .standard = run'.outcome .standard := by
  have hreorders : Program.Reorders (hedge ++ twigs) (twigs ++ hedge) := by
    refine .append_comm (fun name => ?_) (fun name => .inl rfl)
    by_cases hname : "hedge" = name
    · subst hname
      exact .inr rfl
    · refine .inl ?_
      simp [hedge, Declaration.isRuleOf, hname]
  refine ⟨_, _, rfl, rfl, rfl, rfl, ?_⟩
  intro run run'
  exact ⟨by decide +kernel, (outcome_of_reorders hreorders).2 _ _ rfl rfl 100 (.ofSeed 7) .standard⟩

end Specification

end LSystem
