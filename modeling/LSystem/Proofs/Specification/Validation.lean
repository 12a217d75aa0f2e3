import LSystem.Proofs.Specification.Inventory
import Mathlib.Data.List.Nodup

/-!
# Programs with and without a meaning

Declarations are taken up in order, and the first that cannot stand beside those
before it says what is wrong with the program.  `Declaration.Offends` tells which
these are from the declarations alone, and `Draft.add_eq_error_iff` says that a draft
which has taken up some declarations refuses exactly the ones that offend against
them.  A start string is missed only when nothing else is wrong.

Whether any declaration offends does not depend on the order, and the inventory shows
it: `Inventory.Sound` allows one declaration of each global, different names for
variables and no empty rule.  A program without a fault means what its declarations
say: each transform what was declared last for its name, and everything else what was
declared.
-/

namespace LSystem

open Syntax Eval

/-! ### Faults -/

namespace Syntax

/-- The declaration cannot stand after these, and the error says why: it sets a global
or a variable that they set, or it is a rule that replaces its name by nothing. -/
inductive Declaration.Offends (before : Program) : Declaration → SpecError → Prop
  | setAgain {declaration other : Declaration} {what : Global} (hearlier : other ∈ before)
      (hother : (other.global? what).isSome) (hnow : (declaration.global? what).isSome) :
      Offends before declaration (.duplicateDeclaration what)
  | boundAgain {name : String} {old value : Expr} (hearlier : .var name old ∈ before) :
      Offends before (.var name value) (.duplicateVariable name)
  | emptyBody {name : String} {bias : Option Expr} :
      Offends before (.rule name [] bias) (.emptyRule name)

/-- No declaration offends against those before it. -/
def Program.Faultless (program : Program) : Prop :=
  ∀ (before : Program) declaration e, before ++ [declaration] <+: program →
    ¬ declaration.Offends before e

/-- The error belongs to the first declaration that offends against those before it. -/
def Program.FirstFault (program : Program) (e : SpecError) : Prop :=
  ∃ (before : Program) (declaration : Declaration), before ++ [declaration] <+: program ∧
    before.Faultless ∧ declaration.Offends before e

theorem Program.faultless_nil : Program.Faultless [] := by
  intro before declaration e hfront
  cases before <;> cases List.prefix_nil.1 hfront

/-- A program stays without a fault by one more declaration exactly if this one does not offend
against those before it. -/
theorem Program.faultless_concat_iff {program : Program} {declaration : Declaration} :
    Program.Faultless (program ++ [declaration]) ↔
      program.Faultless ∧ ∀ e, ¬ declaration.Offends program e := by
  constructor
  · intro h
    refine ⟨fun before other e hfront => ?_, fun e => h program declaration e List.prefix_rfl⟩
    exact h before other e (hfront.trans (List.prefix_append _ _))
  · rintro ⟨hbefore, hlast⟩ before other e hfront
    rcases List.prefix_concat_iff.1 hfront with heq | hfront
    · obtain ⟨rfl, hother⟩ := List.append_inj' heq rfl
      cases hother
      exact hlast e
    · exact hbefore before other e hfront

end Syntax

/-! ### Programs without a fault -/

/-- Declarations that can stand beside each other. -/
structure Inventory.Sound (i : Inventory) : Prop where
  globals : ∀ what, (i.globals what).length ≤ 1
  rules : ∀ rule ∈ i.rules, rule.body ≠ []
  definitions : (i.definitions.map Prod.fst).Nodup

/-- What can stand beside more can stand alone. Fewer globals, rules and variables have no new
fault among them. -/
theorem Inventory.Sound.of_append {i j : Inventory} (h : (i ++ j).Sound) : i.Sound := by
  constructor
  · intro what
    have hlength : (i.globals what ++ j.globals what).length ≤ 1 := h.globals what
    rw [List.length_append] at hlength
    omega
  · intro rule hrule
    exact h.rules rule (List.mem_append_left j.rules hrule)
  · have hnames : ((i.definitions ++ j.definitions).map Prod.fst).Nodup := h.definitions
    rw [List.map_append] at hnames
    exact hnames.of_append_left

namespace Syntax.Program

variable {program : Program} {declaration : Declaration}

/-- A variable is in the inventory exactly if the program declares it, with whatever value. -/
theorem mem_definitions_iff {name : String} :
    name ∈ program.inventory.definitions.map Prod.fst ↔ ∃ old, .var name old ∈ program := by
  constructor
  · intro h
    obtain ⟨⟨other, old⟩, hmem, rfl⟩ := List.mem_map.1 h
    obtain ⟨found, hfound, hset⟩ := List.mem_filterMap.1 hmem
    cases found <;> cases hset
    exact ⟨old, hfound⟩
  · rintro ⟨old, hmem⟩
    exact List.mem_map.2 ⟨(name, old), List.mem_filterMap.2 ⟨_, hmem, rfl⟩, rfl⟩

/-- A global is in the inventory exactly if some declaration of the program sets it. -/
theorem globals_ne_nil_iff {what : Global} :
    program.inventory.globals what ≠ [] ↔ ∃ other ∈ program, (other.global? what).isSome := by
  simp only [inventory, ne_eq, List.filterMap_eq_nil_iff, not_forall, Option.isSome_iff_ne_none,
    exists_prop]

/-- No rule of the inventory has an empty body exactly if the program declares no such rule, with
a bias or without. -/
theorem forall_body_ne_nil_iff : (∀ rule ∈ program.inventory.rules, rule.body ≠ []) ↔
    ∀ name bias, .rule name [] bias ∉ program := by
  constructor
  · intro h name bias hmem
    exact h _ (List.mem_filterMap.2 ⟨_, hmem, rfl⟩) rfl
  · intro h rule hrule hempty
    obtain ⟨declaration, hmem, hset⟩ := List.mem_filterMap.1 hrule
    cases declaration <;> cases hset
    subst hempty
    exact h _ _ hmem

/-- A declaration that can stand beside others does not offend against them. A second declaration
of a global or a variable would be twice in the inventory. -/
theorem not_offends_of_sound {e : SpecError}
    (h : (program.inventory ++ Program.inventory [declaration]).Sound) :
    ¬ declaration.Offends program e := by
  rw [inventory_singleton] at h
  intro hoffends
  cases hoffends with
  | setAgain hearlier hother hnow =>
      rename_i other what
      have hpos := List.length_pos_iff.2 (globals_ne_nil_iff.2 ⟨other, hearlier, hother⟩)
      have hlength : (program.inventory.globals what ++
          (declaration.global? what).toList).length ≤ 1 := h.globals what
      obtain ⟨value, hvalue⟩ := Option.isSome_iff_exists.1 hnow
      rw [hvalue, List.length_append, Option.toList_some, List.length_singleton] at hlength
      omega
  | boundAgain hearlier =>
      rename_i name old value
      have hnames : ((program.inventory.definitions ++ [(name, value)]).map Prod.fst).Nodup :=
        h.definitions
      rw [List.map_append, List.nodup_append'] at hnames
      exact hnames.2.2 (mem_definitions_iff.2 ⟨old, hearlier⟩) List.mem_cons_self
  | emptyBody => exact h.rules _ (List.mem_append_right _ List.mem_cons_self) rfl

/-- A declaration that does not offend against others can stand beside them. With the other
direction, soundness can be found out one declaration after the other. -/
theorem sound_of_not_offends (hsound : program.inventory.Sound)
    (h : ∀ e, ¬ declaration.Offends program e) :
    (program.inventory ++ Program.inventory [declaration]).Sound := by
  rw [inventory_singleton]
  constructor
  · intro what
    change (program.inventory.globals what ++ (declaration.global? what).toList).length ≤ 1
    cases hvalue : declaration.global? what with
    | none => simpa using hsound.globals what
    | some value =>
        have hnone : program.inventory.globals what = [] := by
          by_contra hearlier
          obtain ⟨other, hother, hset⟩ := globals_ne_nil_iff.1 hearlier
          exact h _ (.setAgain hother hset (Option.isSome_of_eq_some hvalue))
        rw [hnone]
        exact Nat.le_refl 1
  · intro rule hrule hempty
    rcases List.mem_append.1 hrule with hold | hnew
    · exact hsound.rules rule hold hempty
    · have hset : declaration.rule? = some rule := Option.mem_toList.1 hnew
      cases declaration <;> cases hset
      subst hempty
      exact h _ .emptyBody
  · change ((program.inventory.definitions ++ declaration.definition?.toList).map Prod.fst).Nodup
    rw [List.map_append, List.nodup_append']
    refine ⟨hsound.definitions, ?_, ?_⟩
    · cases declaration.definition? <;> simp
    · intro name hearlier hnow
      obtain ⟨old, hold⟩ := mem_definitions_iff.1 hearlier
      obtain ⟨⟨other, value⟩, hmem, rfl⟩ := List.mem_map.1 hnow
      have hset := Option.mem_toList.1 hmem
      cases declaration <;> cases hset
      exact h _ (.boundAgain hold)

/-- The order of declarations does not count for whether any of them offends. -/
theorem faultless_iff_sound : program.Faultless ↔ program.inventory.Sound := by
  induction program using List.reverseRecOn with
  | nil => exact iff_of_true faultless_nil ⟨fun _ => Nat.zero_le 1, nofun, List.nodup_nil⟩
  | append_singleton program declaration ih =>
      rw [faultless_concat_iff, inventory_append, ih]
      constructor
      · rintro ⟨hsound, hoffends⟩
        exact sound_of_not_offends hsound hoffends
      · intro h
        exact ⟨h.of_append, fun e => not_offends_of_sound h⟩

end Syntax.Program

/-! ### Drafts refuse what offends -/

namespace Draft

variable {d : Draft} {before : Program} {declaration : Declaration} {e : SpecError}

/-- Setting a global fails exactly if it is set already, and the error names the global. -/
theorem declareOnce_eq_error_iff {α : Type} {what : Global} {slot : Option α} {value : α} :
    declareOnce what slot value = .error e ↔ slot.isSome ∧ e = .duplicateDeclaration what := by
  cases slot with
  | none => simp [declareOnce]
  | some old => simp [declareOnce, eq_comm]

/-- A global is refused when it has a value. The other globals, the rules and the variables have
no say in it. -/
theorem add_global_eq_error_iff {what : Global} (h : (declaration.global? what).isSome) :
    d.add declaration = .error e ↔ (d.global what).isSome ∧ e = .duplicateDeclaration what := by
  have hrest {α : Type} {x : Except SpecError α} {f : α → Draft} :
      (x >>= fun a => pure (f a)) = .error e ↔ x = .error e := by
    rw [bind_eq_error_iff]
    exact or_iff_left fun ⟨a, _, hpure⟩ => nomatch hpure
  -- of the pairs of a declaration and a global only those are left that belong together
  cases declaration <;> cases what <;> try cases h
  all_goals exact hrest.trans declareOnce_eq_error_iff

/-- A global has a value when one of the declarations has set it. -/
theorem isSome_global_iff (hd : d.inventory = before.inventory) (what : Global) :
    (d.global what).isSome ↔ ∃ other ∈ before, (other.global? what).isSome := by
  have hglobals : (d.global what).toList = before.inventory.globals what :=
    congrFun (congrArg Inventory.globals hd) what
  rw [← Program.globals_ne_nil_iff, ← hglobals]
  cases d.global what <;> simp

/-- A variable is known when one of the declarations has set it. -/
theorem any_definitions_iff (hd : d.inventory = before.inventory) {name : String} :
    (d.definitions.any fun declared => declared.1 == name) = true ↔
      ∃ old, .var name old ∈ before := by
  have hdefinitions : d.definitions = before.inventory.definitions :=
    congrArg Inventory.definitions hd
  rw [← Program.mem_definitions_iff, ← hdefinitions, List.any_eq_true, List.mem_map]
  simp only [beq_iff_eq]

/-- A draft refuses exactly what offends against the declarations that it has taken up. The draft
looks at itself only, and its inventory is that of the declarations. -/
theorem add_eq_error_iff (hd : d.inventory = before.inventory) :
    d.add declaration = .error e ↔ declaration.Offends before e := by
  have hglobal {what : Global} (hnow : (declaration.global? what).isSome) :
      d.add declaration = .error e ↔ (∃ other ∈ before, (other.global? what).isSome) ∧
        e = .duplicateDeclaration what := by
    rw [add_global_eq_error_iff hnow, isSome_global_iff hd what]
  constructor
  · intro h
    have hagain (what : Global) (hnow : (declaration.global? what).isSome) :
        declaration.Offends before e := by
      obtain ⟨⟨other, hearlier, hother⟩, rfl⟩ := (hglobal hnow).1 h
      exact .setAgain hearlier hother hnow
    cases declaration with
    | start value => exact hagain .start rfl
    | length value => exact hagain .length rfl
    | width value => exact hagain .width rfl
    | color value => exact hagain .color rfl
    | iterate value => exact hagain .iterate rfl
    | rule name body bias =>
        rw [add] at h
        split at h
        · rename_i hempty
          cases h
          rw [List.isEmpty_iff] at hempty
          subst hempty
          exact .emptyBody
        · cases h
    | transform name motion => cases h
    | var name value =>
        rw [add] at h
        split at h
        · rename_i hknown
          cases h
          obtain ⟨old, hold⟩ := (any_definitions_iff hd).1 hknown
          exact .boundAgain hold
        · cases h
  · intro h
    cases h with
    | setAgain hearlier hother hnow => exact (hglobal hnow).2 ⟨⟨_, hearlier, hother⟩, rfl⟩
    | boundAgain hearlier =>
        rw [add, if_pos ((any_definitions_iff hd).2 ⟨_, hearlier⟩)]
        rfl
    | emptyBody => rfl

/-- Finishing a draft fails exactly if no start string was declared; whatever else is missing has
a default. -/
theorem finish_eq_error_iff : d.finish = .error e ↔ d.start = none ∧ e = .missingStart := by
  unfold finish
  split
  · rename_i hnone
    constructor
    · intro h
      cases h
      exact ⟨hnone, rfl⟩
    · rintro ⟨-, rfl⟩
      rfl
  · rename_i start hstart
    constructor
    · intro h
      cases h
    · rintro ⟨hnone, -⟩
      rw [hstart] at hnone
      cases hnone

end Draft

/-! ### Programs -/

namespace Specification

variable {program : Program} {spec : Specification} {e : SpecError}

/-- Taking up a program with one declaration more is taking up the program and then that
declaration, which is what the inductions from the right go by. -/
theorem foldlM_concat (program : Program) (declaration : Declaration) :
    List.foldlM Draft.add Draft.blank (program ++ [declaration]) =
      program.foldlM Draft.add Draft.blank >>= fun d => d.add declaration := by
  simp only [List.foldlM_append, List.foldlM_cons, List.foldlM_nil, bind_pure]

/-- All declarations are taken up when none of them offends. The induction is from the right,
since whether a declaration offends is told by those before it. -/
theorem exists_foldlM_iff :
    (∃ d, program.foldlM Draft.add Draft.blank = .ok d) ↔ program.Faultless := by
  induction program using List.reverseRecOn with
  | nil => exact iff_of_true ⟨_, rfl⟩ Program.faultless_nil
  | append_singleton program declaration ih =>
      rw [foldlM_concat, Program.faultless_concat_iff, ← ih]
      constructor
      · rintro ⟨d', h⟩
        obtain ⟨d, hd, hadd⟩ := bind_eq_ok h
        refine ⟨⟨d, hd⟩, fun e hoffends => ?_⟩
        rw [(Draft.add_eq_error_iff (inventory_of_foldlM hd)).2 hoffends] at hadd
        cases hadd
      · rintro ⟨⟨d, hd⟩, hoffends⟩
        rw [hd]
        cases hadd : d.add declaration with
        | ok d' => exact ⟨d', hadd⟩
        | error e =>
            exact absurd ((Draft.add_eq_error_iff (inventory_of_foldlM hd)).1 hadd) (hoffends e)

/-- The first declaration that offends is the one that is refused. Those before it have been taken
up, and those behind it are not looked at. -/
theorem foldlM_eq_error_iff :
    program.foldlM Draft.add Draft.blank = .error e ↔ program.FirstFault e := by
  constructor
  · intro h
    induction program using List.reverseRecOn with
    | nil => cases h
    | append_singleton program declaration ih =>
        rw [foldlM_concat, bind_eq_error_iff] at h
        rcases h with hbefore | ⟨d, hd, hadd⟩
        · obtain ⟨before, other, hfront, hfault⟩ := ih hbefore
          exact ⟨before, other, hfront.trans (List.prefix_append _ _), hfault⟩
        · exact ⟨program, declaration, List.prefix_rfl, exists_foldlM_iff.1 ⟨d, hd⟩,
            (Draft.add_eq_error_iff (inventory_of_foldlM hd)).1 hadd⟩
  · rintro ⟨before, declaration, ⟨after, rfl⟩, hfaultless, hoffends⟩
    obtain ⟨d, hd⟩ := exists_foldlM_iff.2 hfaultless
    rw [List.foldlM_append, foldlM_concat, hd]
    have hadd := (Draft.add_eq_error_iff (inventory_of_foldlM hd)).2 hoffends
    exact bind_eq_error_iff.2 (.inl hadd)

/-- A program is refused at the first declaration that offends, or for want of a start
string when none offends. -/
theorem ofProgram_eq_error_iff : ofProgram program = .error e ↔ program.FirstFault e ∨
    (program.Faultless ∧ (∀ symbols, .start symbols ∉ program) ∧ e = .missingStart) := by
  rw [ofProgram, bind_eq_error_iff, foldlM_eq_error_iff, ← exists_foldlM_iff, ← exists_and_right]
  refine or_congr_right (exists_congr fun d => and_congr_right fun hd => ?_)
  rw [Draft.finish_eq_error_iff, ← Option.not_isSome_iff_eq_none]
  refine and_congr_left fun _ => ?_
  have hstart : d.start.isSome ↔ ∃ other ∈ program, (other.global? .start).isSome :=
    Draft.isSome_global_iff (inventory_of_foldlM hd) .start
  rw [hstart]
  constructor
  · rintro hnone symbols hmem
    exact hnone ⟨_, hmem, rfl⟩
  · rintro hnone ⟨other, hmem, hset⟩
    cases other <;> cases hset
    exact hnone _ hmem

end Specification

/-! ### What a program means -/

/-- The value of a global that is declared once at most. -/
def Inventory.value? (i : Inventory) (what : Global) : Option what.Value := (i.globals what).head?

/-- The specification holds what is declared, and the defaults of the rest. -/
structure Specification.Holds (spec : Specification) (program : Program) : Prop where
  sound : program.inventory.Sound
  start : program.inventory.value? .start = some spec.start
  length : spec.length = (program.inventory.value? .length).getD (.num 1)
  width : spec.width = (program.inventory.value? .width).getD (.num 1)
  color : spec.color = (program.inventory.value? .color).getD .black
  iterate : spec.iterate = (program.inventory.value? .iterate).getD (.num 1)
  rules : spec.rules.toList = program.inventory.rules
  definitions : spec.definitions = program.inventory.definitions
  transforms : spec.transforms = Draft.blank.transforms.insertAll program.transforms

/-- The motion that is declared for a name. -/
def Syntax.Declaration.motionOf? (name : String) : Declaration → Option (Motion StrokeOverride)
  | .transform other motion => if other = name then some motion else none
  | _ => none

/-- The motion that is declared last for a name. -/
def Syntax.Program.lastMotion? (program : Program) (name : String) :
    Option (Motion StrokeOverride) := (program.filterMap (Declaration.motionOf? name)).getLast?

/-- The motion of a name without a declaration: `+` and `-` turn by a quarter. -/
def quarterTurn? (name : String) : Option (Motion Stroke) :=
  if name = "+" then some (.rotate (.num 90) .deg)
  else if name = "-" then some (.rotate (.num (-90)) .deg)
  else none

namespace Specification

variable {program : Program} {spec : Specification}

/-- The specification of a program holds what the program declares, each global, rule, variable
and transform, and defaults for what it does not declare. -/
theorem holds_ofProgram (h : ofProgram program = .ok spec) : spec.Holds program := by
  obtain ⟨d, hfold, hfinish⟩ := bind_eq_ok h
  have hsound := Program.faultless_iff_sound.1 (exists_foldlM_iff.1 ⟨d, hfold⟩)
  have hinventory := inventory_of_foldlM hfold
  have hvalue (what : Global) : program.inventory.value? what = d.global what := by
    rw [← hinventory]
    exact Option.head?_toList
  unfold Draft.finish at hfinish
  split at hfinish
  · cases hfinish
  · rename_i start hstart
    cases hfinish
    constructor
    · exact hsound
    · exact (hvalue .start).trans hstart
    · rw [hvalue]; rfl
    · rw [hvalue]; rfl
    · rw [hvalue]; rfl
    · rw [hvalue]; rfl
    · exact congrArg Inventory.rules hinventory
    · exact congrArg Inventory.definitions hinventory
    · exact (Draft.inventory_foldlM hfold).2

/-- A program has a specification exactly when its declarations can stand beside each
other and a start string is among them. -/
theorem ofProgram_isOk_iff : (∃ spec, ofProgram program = .ok spec) ↔
    program.inventory.Sound ∧ ∃ start, program.inventory.value? .start = some start := by
  constructor
  · rintro ⟨spec, h⟩
    have hholds := holds_ofProgram h
    exact ⟨hholds.sound, spec.start, hholds.start⟩
  · rintro ⟨hsound, start, hstart⟩
    obtain ⟨d, hfold⟩ := exists_foldlM_iff.2 (Program.faultless_iff_sound.2 hsound)
    have hd : d.start = some start := by
      rw [← hstart, ← inventory_of_foldlM hfold]
      exact Option.head?_toList.symm
    have hfinish : ofProgram program = d.finish := by
      rw [ofProgram, hfold]
      rfl
    rw [hfinish, Draft.finish, hd]
    exact ⟨_, rfl⟩

/-- The transform of a name is the one declared last for it, with the defaults of its line;
without a declaration `+` and `-` are quarter turns, and other names have none. -/
theorem find?_transforms (h : spec.Holds program) (name : String) :
    spec.transforms.find? name =
      ((program.lastMotion? name).map (Motion.map Stroke.ofOverride)).or (quarterTurn? name) := by
  have hdeclared : (program.transforms.filter fun entry => entry.1 == name).map Prod.snd =
      (program.filterMap (Declaration.motionOf? name)).map (Motion.map Stroke.ofOverride) := by
    rw [Program.transforms, List.filter_filterMap, List.map_filterMap, List.map_filterMap]
    congr
    funext declaration
    cases declaration with
    | transform other motion =>
        by_cases hname : other = name <;>
          simp [Declaration.transform?, Declaration.motionOf?, Option.filter, hname]
    | _ => rfl
  have hblank : Draft.blank.transforms.find? name = quarterTurn? name := by
    simp only [quarterTurn?, eq_comm (a := name)]
    rfl
  rw [h.transforms, Bindings.find?_insertAll, hblank, ← List.getLast?_map, hdeclared,
    List.getLast?_map]
  rfl

/-- **A program is checked as a whole and means what it declares.**  It has a meaning
exactly when it sets the start string once and no other global twice, no variable
twice, and has no rule with an empty body.  Otherwise the error is that of the first
declaration that sets something again or is such a rule, and if there is none, that
the start string is missing.  A program with a meaning means its declarations in their
order, the last one for a transform, and the defaults of what it leaves out. -/
theorem ofProgram_validates (program : Program) :
    ((∃ spec, ofProgram program = .ok spec) ↔
      (program.inventory.globals .start).length = 1 ∧
        (∀ what, (program.inventory.globals what).length ≤ 1) ∧
        (program.inventory.definitions.map Prod.fst).Nodup ∧
        ∀ name bias, .rule name [] bias ∉ program) ∧
      (∀ e, ofProgram program = .error e ↔ program.FirstFault e ∨
        (program.Faultless ∧ (∀ symbols, .start symbols ∉ program) ∧ e = .missingStart)) ∧
      ∀ spec, ofProgram program = .ok spec → spec.Holds program ∧
        ∀ name, spec.transforms.find? name =
          ((program.lastMotion? name).map (Motion.map fun look =>
            ⟨look.width.getD (.num 1), look.color.getD .black⟩)).or (quarterTurn? name) := by
  refine ⟨?_, fun e => ofProgram_eq_error_iff, fun spec h =>
    ⟨holds_ofProgram h, find?_transforms (holds_ofProgram h)⟩⟩
  rw [ofProgram_isOk_iff]
  constructor
  · rintro ⟨hsound, start, hstart⟩
    refine ⟨?_, hsound.globals, hsound.definitions, Program.forall_body_ne_nil_iff.1 hsound.rules⟩
    have hpos := List.length_pos_of_mem (List.mem_of_head? hstart)
    exact Nat.le_antisymm (hsound.globals .start) hpos
  · rintro ⟨hone, hglobals, hnames, hbodies⟩
    refine ⟨⟨hglobals, Program.forall_body_ne_nil_iff.2 hbodies, hnames⟩, ?_⟩
    obtain ⟨start, hstart⟩ := List.length_eq_one_iff.1 hone
    exact ⟨start, by rw [Inventory.value?, hstart, List.head?_cons]⟩

/-- Of several faults the first one in the program is told, and not the missing start
string. -/
example : ofProgram [.length (.num 2), .var "x" (.num 1), .rule "F" [] none, .length (.num 3),
    .var "x" (.num 2)] = .error (.emptyRule "F") := rfl

end Specification

end LSystem
