import LSystem.Proofs.Specification.Rules
import Mathlib.Data.List.Induction

/-!
# What a program declares

The `inventory` of a program lists its declarations kind by kind.  A draft has an
inventory too, and a declaration that is taken up adds to it, so that a draft comes to
hold what the declarations say and nothing else.
-/

namespace LSystem

open Syntax Eval

/-! ### Declarations kind by kind -/

/-- What a global stands for. -/
def Global.Value : Global → Type
  | .start => List Symbol
  | .length | .width | .iterate => Expr
  | .color => Color

namespace Syntax.Declaration

/-- The value of a global, if this is what is declared. -/
def global? : Declaration → (what : Global) → Option what.Value
  | .start symbols, .start => some symbols
  | .length value, .length => some value
  | .width value, .width => some value
  | .color value, .color => some value
  | .iterate value, .iterate => some value
  | _, _ => none

/-- The rule that is declared, with weight one where it has none. -/
def rule? : Declaration → Option Rule
  | .rule name body bias => some ⟨name, body, bias.getD (.num 1)⟩
  | _ => none

/-- The variable that is declared. -/
def definition? : Declaration → Option (String × Expr)
  | .var name value => some (name, value)
  | _ => none

/-- The transform that is declared, with the defaults of its line. -/
def transform? : Declaration → Option (String × Motion Stroke)
  | .transform name motion => some (name, motion.map Stroke.ofOverride)
  | _ => none

end Syntax.Declaration

/-- Declarations kind by kind, each kind in order.  Transforms are not among
them, because a transform can stand beside any other declaration. -/
@[ext]
structure Inventory where
  globals : (what : Global) → List what.Value
  rules : List Rule
  definitions : List (String × Expr)

/-- Two inventories one after the other. -/
instance : Append Inventory where
  append i j :=
    ⟨fun what => i.globals what ++ j.globals what, i.rules ++ j.rules,
      i.definitions ++ j.definitions⟩

namespace Inventory

theorem append_assoc (i j k : Inventory) : i ++ j ++ k = i ++ (j ++ k) := by
  apply Inventory.ext
  · funext what
    exact List.append_assoc _ _ _
  · exact List.append_assoc _ _ _
  · exact List.append_assoc _ _ _

end Inventory

/-- The declarations of a program kind by kind. -/
def Syntax.Program.inventory (program : Program) : Inventory where
  globals what := program.filterMap fun declaration => declaration.global? what
  rules := program.filterMap Declaration.rule?
  definitions := program.filterMap Declaration.definition?

/-- The transforms of a program in order. -/
def Syntax.Program.transforms (program : Program) : List (String × Motion Stroke) :=
  program.filterMap Declaration.transform?

/-- The inventory of two programs, one behind the other, is their two inventories put together. -/
theorem inventory_append (program other : Program) :
    Program.inventory (program ++ other) = program.inventory ++ other.inventory := by
  apply Inventory.ext
  · funext what
    exact List.filterMap_append
  · exact List.filterMap_append
  · exact List.filterMap_append

/-- A single declaration has at most one entry of one kind in its inventory, and a transform has
none. -/
theorem inventory_singleton (declaration : Declaration) : Program.inventory [declaration] =
    ⟨fun what => (declaration.global? what).toList, declaration.rule?.toList,
      declaration.definition?.toList⟩ := by
  have hone {α : Type} (kind : Declaration → Option α) :
      [declaration].filterMap kind = (kind declaration).toList := by
    rw [List.filterMap_cons]
    cases kind declaration with
    | none => rfl
    | some value => rfl
  exact Inventory.ext (funext fun what => hone fun other => other.global? what) (hone _) (hone _)

/-! ### Drafts -/

/-- Bindings with some values set one after the other. -/
def Bindings.insertAll {α : Type} (b : Bindings α) (entries : List (String × α)) : Bindings α :=
  entries.foldl (fun b entry => b.insert entry.1 entry.2) b

/-- A name has the value it was given last, if it was given any. -/
theorem Bindings.find?_insertAll {α : Type} (b : Bindings α) (entries : List (String × α))
    (name : String) : (b.insertAll entries).find? name =
      ((entries.filter fun entry => entry.1 == name).getLast?.map Prod.snd).or (b.find? name) := by
  induction entries using List.reverseRecOn with
  | nil => rfl
  | append_singleton entries entry ih =>
      have hlast : b.insertAll (entries ++ [entry]) =
          (b.insertAll entries).insert entry.1 entry.2 := List.foldl_append
      simp only [hlast, find?_insert, List.filter_append, List.filter_cons, beq_iff_eq]
      by_cases hname : entry.1 = name
      · rw [if_pos hname, if_pos hname, List.filter_nil, List.getLast?_concat]
        rfl
      · rw [if_neg hname, if_neg hname, List.filter_nil, List.append_nil, ih]

namespace Draft

variable {d d' : Draft} {declaration : Declaration} {program : Program}

/-- The value of a global so far. -/
def global (d : Draft) : (what : Global) → Option what.Value
  | .start => d.start
  | .length => d.length
  | .width => d.width
  | .color => d.color
  | .iterate => d.iterate

/-- What a draft has taken up, kind by kind. -/
def inventory (d : Draft) : Inventory where
  globals what := (d.global what).toList
  rules := d.rules.toList
  definitions := d.definitions

/-- A global can be set only while it is not set, and then it has the value that was declared. -/
theorem declareOnce_eq_ok {α : Type} {what : Global} {slot slot' : Option α} {value : α}
    (h : declareOnce what slot value = .ok slot') : slot = none ∧ slot' = some value := by
  cases slot with
  | none =>
      cases h
      exact ⟨rfl, rfl⟩
  | some old => cases h

/-- A draft has more in its inventory when each kind has. Every declaration is of one kind, so
each case of taking one up comes to this. -/
theorem inventory_eq_append (hglobals : ∀ what, (d'.global what).toList =
      (d.global what).toList ++ (declaration.global? what).toList)
    (hrules : d'.rules.toList = d.rules.toList ++ declaration.rule?.toList)
    (hdefinitions : d'.definitions = d.definitions ++ declaration.definition?.toList) :
    d'.inventory = d.inventory ++ Program.inventory [declaration] := by
  rw [inventory_singleton]
  exact Inventory.ext (funext hglobals) hrules hdefinitions

/-- A declaration adds to the inventory and to the transforms of a draft. There is one case for
each kind of declaration, and in each only the part of its kind changes. -/
theorem inventory_add (h : d.add declaration = .ok d') :
    d'.inventory = d.inventory ++ Program.inventory [declaration] ∧
      d'.transforms = d.transforms.insertAll (Program.transforms [declaration]) := by
  have hnothing {α : Type} (kind : List α) : kind = kind ++ [] := (List.append_nil kind).symm
  cases declaration with
  | start value | length value | width value | color value | iterate value =>
      obtain ⟨slot, hslot, hd⟩ := bind_eq_ok h
      obtain ⟨hnone, rfl⟩ := declareOnce_eq_ok hslot
      have hdeclared : [value] = Option.toList none ++ [value] := rfl
      rw [← hnone] at hdeclared
      cases hd
      refine ⟨inventory_eq_append (fun what => ?_) (hnothing _) (hnothing _), rfl⟩
      -- the other globals are as they were
      cases what <;> try exact hnothing _
      exact hdeclared
  | rule name body bias =>
      rw [add] at h
      split at h
      · cases h
      · cases h
        refine ⟨inventory_eq_append (fun what => ?_) Array.toList_push (hnothing _), rfl⟩
        cases what <;> exact hnothing _
  | transform name motion =>
      cases h
      refine ⟨inventory_eq_append (fun what => ?_) (hnothing _) (hnothing _), rfl⟩
      cases what <;> exact hnothing _
  | var name value =>
      rw [add] at h
      split at h
      · cases h
      · cases h
        refine ⟨inventory_eq_append (fun what => ?_) (hnothing _) rfl, rfl⟩
        cases what <;> exact hnothing _

/-- The draft after some declarations has their inventory. Nothing is dropped, put elsewhere or
taken up twice, by induction on the declarations. -/
theorem inventory_foldlM : ∀ {d : Draft}, program.foldlM add d = .ok d' →
    d'.inventory = d.inventory ++ program.inventory ∧
      d'.transforms = d.transforms.insertAll program.transforms := by
  induction program with
  | nil =>
      intro d h
      cases h
      exact ⟨Inventory.ext (funext fun what => (List.append_nil _).symm)
        (List.append_nil _).symm (List.append_nil _).symm, rfl⟩
  | cons declaration rest ih =>
      intro d h
      rw [List.foldlM_cons] at h
      obtain ⟨next, hadd, hrest⟩ := bind_eq_ok h
      obtain ⟨hinventory, htransforms⟩ := ih hrest
      obtain ⟨hone, htransform⟩ := inventory_add hadd
      have hcons := inventory_append [declaration] rest
      have hall : Program.transforms (declaration :: rest) =
          Program.transforms [declaration] ++ Program.transforms rest :=
        List.filterMap_append (l := [declaration])
      rw [List.singleton_append] at hcons
      rw [hinventory, hone, Inventory.append_assoc, hcons, htransforms, htransform, hall]
      exact ⟨rfl, (List.foldl_append ..).symm⟩

/-- A blank draft has taken up nothing, so its inventory adds nothing. -/
theorem inventory_blank_append (i : Inventory) : blank.inventory ++ i = i := by
  apply Inventory.ext
  · funext what
    cases what <;> rfl
  · rfl
  · rfl

end Draft

/-- The draft at the end of a program and the program have the same inventory. -/
theorem Specification.inventory_of_foldlM {program : Program} {d : Draft}
    (h : program.foldlM Draft.add Draft.blank = .ok d) : d.inventory = program.inventory := by
  rw [(Draft.inventory_foldlM h).1, Draft.inventory_blank_append]

end LSystem
