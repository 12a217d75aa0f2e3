import LSystem.Proofs.Number.Comparison
import LSystem.Proofs.Rendering.Finite

/-!
# The box around a drawing

The box is the hull of the origin and the ends of all lines: every side of it is a
coordinate of one of these points, and none of them lies beyond it.  `IsHull.cover` keeps
this when a point is added.  Since a side is told by the points as a set, the order in which
they came does not matter, and more points make the box no smaller.

A NaN can only be in the origin.  It compares with nothing, so it bounds nothing and lies
beyond nothing, and the first line takes its place.
-/

namespace LSystem

open Syntax Eval Randomness Number

variable {α : Type}

/-! ### The end of a row of values -/

/-- The value is one of some values, and all numbers among them are on one side of it. -/
structure IsEnd (le : α → α → Prop) (number : α → Prop) (x : α) (values : List α) : Prop where
  mem : x ∈ values
  le : ∀ v ∈ values, number v → le x v

namespace IsEnd

variable {lt le : α → α → Prop} {number : α → Prop} {x y value : α} {values others : List α}

/-- A value is the end of the row that consists of it alone: a number is not beyond itself, and
there is nothing else to compare with. -/
theorem singleton (hc : Compares lt le number) (x : α) : IsEnd le number x [x] := by
  refine ⟨List.mem_singleton_self x, fun v hv hnumber => ?_⟩
  obtain rfl := List.mem_singleton.1 hv
  exact hc.refl hnumber

/-- Of the old end and a new value, the new value is the end unless the old one is
beyond it. -/
theorem choose [DecidableRel lt] (hc : Compares lt le number) (h : IsEnd le number x values)
    (hvalue : number value) :
    IsEnd le number (if lt x value then x else value) (values ++ [value]) := by
  split
  · rename_i hlt
    refine ⟨List.mem_append_left _ h.mem, fun v hv hnumber => ?_⟩
    rcases List.mem_append.1 hv with hold | hnew
    · exact h.le v hold hnumber
    · obtain rfl := List.mem_singleton.1 hnew
      exact hc.of_lt hlt
  · rename_i hlt
    refine ⟨List.mem_append_right _ (List.mem_singleton_self value), fun v hv hnumber => ?_⟩
    rcases List.mem_append.1 hv with hold | hnew
    · have hle := h.le v hold hnumber
      exact hc.trans (hc.of_not_lt (hc.numbers hle).1 hvalue hlt) hle
    · obtain rfl := List.mem_singleton.1 hnew
      exact hc.refl hvalue

/-- Among more values the end is further out. Each of the fewer values is one of the more. -/
theorem mono (h : IsEnd le number x values) (hothers : IsEnd le number y others)
    (hsub : values ⊆ others) (hx : number x) : le y x :=
  hothers.le x (hsub h.mem) hx

/-- The same values have the same end. Each of the two ends is among the values and compares with
the other, unless neither of them is a number. -/
theorem unique (hc : Compares lt le number) (h : IsEnd le number x values)
    (hothers : IsEnd le number y others) (hsub : values ⊆ others) (hsuper : others ⊆ values) :
    le x y ∧ le y x ∨ ¬ number x ∧ ¬ number y := by
  by_cases hx : number x
  · have hle := h.mono hothers hsub hx
    exact .inl ⟨hothers.mono h hsuper (hc.numbers hle).1, hle⟩
  · refine .inr ⟨hx, fun hy => hx ?_⟩
    exact (hc.numbers (hothers.mono h hsuper hy)).1

end IsEnd

/-! ### Hulls -/

/-- Both parts have a property. -/
structure Vec2.Has (P : α → Prop) (v : Vec2 α) : Prop where
  x : P v.x
  y : P v.y

namespace BoundingBox

/-- Every side is a coordinate of one of the points, and none of them lies beyond it. -/
structure IsHull [LE α] (number : α → Prop) (box : BoundingBox α) (points : List (Vec2 α)) :
    Prop where
  left : IsEnd (· ≤ ·) number box.min.x (points.map Vec2.x)
  bottom : IsEnd (· ≤ ·) number box.min.y (points.map Vec2.y)
  right : IsEnd (· ≥ ·) number box.max.x (points.map Vec2.x)
  top : IsEnd (· ≥ ·) number box.max.y (points.map Vec2.y)

/-- A box contains a point exactly if it does so in each coordinate, from below and from above. -/
theorem contains_iff [LE α] [DecidableLE α] {box : BoundingBox α} {point : Vec2 α} :
    box.contains point ↔ (box.min.x ≤ point.x ∧ box.min.y ≤ point.y) ∧
      point.x ≤ box.max.x ∧ point.y ≤ box.max.y := by
  simp [contains, and_assoc]

namespace IsHull

variable [LE α] {number : α → Prop} {box other : BoundingBox α} {point : Vec2 α}
  {points others : List (Vec2 α)}

/-- A hull contains every one of its points that is a number in both coordinates. -/
theorem contains [DecidableLE α] (h : box.IsHull number points) (hmem : point ∈ points)
    (hpoint : point.Has number) : box.contains point := by
  have hx : point.x ∈ points.map Vec2.x := List.mem_map_of_mem hmem
  have hy : point.y ∈ points.map Vec2.y := List.mem_map_of_mem hmem
  refine contains_iff.2 ⟨⟨?_, ?_⟩, ?_, ?_⟩
  · exact h.left.le _ hx hpoint.x
  · exact h.bottom.le _ hy hpoint.y
  · exact h.right.le _ hx hpoint.x
  · exact h.top.le _ hy hpoint.y

variable [LT α]

/-- The box that a drawing begins with is the hull of its one point. -/
theorem ofPoint (hc : Compares (α := α) (· < ·) (· ≤ ·) number) (point : Vec2 α) :
    (ofPoint point).IsHull number [point] where
  left := .singleton hc point.x
  bottom := .singleton hc point.y
  right := .singleton hc.flip point.x
  top := .singleton hc.flip point.y

/-- The hull with one more point. Each side moves out to the point if the point lies beyond it,
and else stays where it was. -/
theorem cover [DecidableLT α] (hc : Compares (α := α) (· < ·) (· ≤ ·) number)
    (h : box.IsHull number points) (hpoint : point.Has number) :
    (box.cover point).IsHull number (points ++ [point]) := by
  constructor <;> rw [List.map_append]
  · exact h.left.choose hc hpoint.x
  · exact h.bottom.choose hc hpoint.y
  · exact h.right.choose hc.flip hpoint.x
  · exact h.top.choose hc.flip hpoint.y

/-- The hull of more points contains what the hull of fewer does. -/
theorem contains_mono [DecidableLE α] (hc : Compares (α := α) (· < ·) (· ≤ ·) number)
    (h : box.IsHull number points) (hother : other.IsHull number others)
    (hsub : points ⊆ others) (hpoint : box.contains point) : other.contains point := by
  obtain ⟨⟨hleft, hbottom⟩, hright, htop⟩ := contains_iff.1 hpoint
  have hx := List.map_subset Vec2.x hsub
  have hy := List.map_subset Vec2.y hsub
  refine contains_iff.2 ⟨⟨?_, ?_⟩, ?_, ?_⟩
  · exact hc.trans (h.left.mono hother.left hx (hc.numbers hleft).1) hleft
  · exact hc.trans (h.bottom.mono hother.bottom hy (hc.numbers hbottom).1) hbottom
  · exact hc.trans hright (h.right.mono hother.right hx (hc.numbers hright).2)
  · exact hc.trans htop (h.top.mono hother.top hy (hc.numbers htop).2)

end IsHull

/-- Boxes with the same sides, up to the sign of zeros. -/
structure Same (box other : BoundingBox Float) : Prop where
  left : SameValue box.min.x other.min.x
  bottom : SameValue box.min.y other.min.y
  right : SameValue box.max.x other.max.x
  top : SameValue box.max.y other.max.y

/-- The same points have the same hull. The sides are ends of the same rows of values, so only the
sign of a zero may differ. -/
theorem IsHull.same {box other : BoundingBox Float} {points others : List (Vec2 Float)}
    (h : box.IsHull IsNumber points) (hother : other.IsHull IsNumber others)
    (hsub : points ⊆ others) (hsuper : others ⊆ points) : box.Same other := by
  have hx := List.map_subset Vec2.x hsub
  have hx' := List.map_subset Vec2.x hsuper
  have hy := List.map_subset Vec2.y hsub
  have hy' := List.map_subset Vec2.y hsuper
  have hflip := compares_float.flip
  constructor
  · exact sameValue_of_le_of_le (h.left.unique compares_float hother.left hx hx')
  · exact sameValue_of_le_of_le (h.bottom.unique compares_float hother.bottom hy hy')
  · exact sameValue_of_le_of_le ((h.right.unique hflip hother.right hx hx').imp_left And.symm)
  · exact sameValue_of_le_of_le ((h.top.unique hflip hother.top hy hy').imp_left And.symm)

end BoundingBox

/-! ### Drawings -/

/-- Both ends of some lines, in order. -/
def Segment.ends (lines : List (Segment α)) : List (Vec2 α) :=
  lines.flatMap fun line => [line.start, line.finish]

namespace Drawing

variable [LT α] [DecidableLT α]

/-- The drawing with lines added one after the other. -/
def addAll (d : Drawing α) (lines : List (Segment α)) : Drawing α := lines.foldl addSegment d

/-- The drawing of some lines. -/
def ofLines (origin : Vec2 α) (lines : List (Segment α)) : Drawing α :=
  (empty origin).addAll lines

/-- Adding lines keeps the box a hull. The induction is on the lines, each of which adds two
points. -/
theorem isHull_addAll [LE α] {number : α → Prop}
    (hc : Compares (α := α) (· < ·) (· ≤ ·) number) (lines : List (Segment α)) :
    ∀ {d : Drawing α} {points : List (Vec2 α)}, d.bounds.IsHull number points →
      (∀ p ∈ Segment.ends lines, p.Has number) →
        (d.addAll lines).bounds.IsHull number (points ++ Segment.ends lines) := by
  induction lines with
  | nil =>
      intro d points h _
      rw [Segment.ends, List.flatMap_nil, List.append_nil]
      exact h
  | cons line rest ih =>
      intro d points h hlines
      rw [Segment.ends, List.flatMap_cons, List.forall_mem_append, List.forall_mem_cons,
        List.forall_mem_singleton] at hlines
      obtain ⟨⟨hstart, hfinish⟩, hrest⟩ := hlines
      have hline := (h.cover hc hstart).cover hc hfinish
      have hall : ((d.addSegment line).addAll rest).bounds.IsHull number _ := ih hline hrest
      rw [List.append_assoc, List.append_assoc] at hall
      exact hall

/-- The box of a drawing of some lines is the hull of the origin and the ends of these lines; only
the origin may fail to be a number. -/
theorem isHull_ofLines [LE α] {number : α → Prop}
    (hc : Compares (α := α) (· < ·) (· ≤ ·) number) (origin : Vec2 α) {lines : List (Segment α)}
    (hlines : ∀ p ∈ Segment.ends lines, p.Has number) :
    (ofLines origin lines).bounds.IsHull number (origin :: Segment.ends lines) := by
  have horigin : (empty origin).bounds.IsHull number [origin] := .ofPoint hc origin
  exact isHull_addAll hc lines horigin hlines

/-- Adding lines to a drawing grows its box by the ends of these lines, in their order, and by
nothing else. -/
theorem bounds_addAll (lines : List (Segment Float)) :
    ∀ d : Drawing Float, (d.addAll lines).bounds = d.bounds.coverAll lines := by
  induction lines with
  | nil => exact fun d => rfl
  | cons line rest ih => exact fun d => ih (d.addSegment line)

end Drawing

/-- A finite point is a number in both coordinates, so the box around it is bounded by it. -/
theorem Vec2.IsFinite.isNumber {v : Vec2 Float} (h : v.IsFinite) : v.Has IsNumber :=
  ⟨.of_isFinite h.x, .of_isFinite h.y⟩

/-- All ends of the lines of a finite drawing are finite points. -/
theorem Drawing.IsFinite.ends {d : Drawing Float} (h : d.IsFinite) :
    ∀ p ∈ Segment.ends d.segments.toList, p.IsFinite := by
  intro p hp
  obtain ⟨line, hline, hend⟩ := List.mem_flatMap.1 hp
  have hfinite := h.segments line (Array.mem_toList_iff.1 hline)
  rcases List.mem_pair.1 hend with rfl | rfl
  · exact hfinite.start
  · exact hfinite.finish

/-- The box of lines with finite ends is the hull of the origin and these ends, whatever the
origin is; this is how it is used for drawings that were rendered. -/
theorem isHull_of_finite_ends (origin : Vec2 Float) {lines : List (Segment Float)}
    (hlines : ∀ p ∈ Segment.ends lines, p.IsFinite) :
    (Drawing.ofLines origin lines).bounds.IsHull IsNumber (origin :: Segment.ends lines) :=
  Drawing.isHull_ofLines compares_float origin fun p hp => (hlines p hp).isNumber

/-- What a walk has drawn has finite ends, and the box of its lines, added to a box at the
origin. -/
theorem Follows.bounds_eq {config : RenderConfig} {spec : Specification} {c : Context}
    {u : List Symbol} {last : Walk} {g g' : Generator}
    (h : Follows config spec c (.start config) u g last g') :
    (∀ p ∈ Segment.ends last.drawing.segments.toList, p.IsFinite) ∧
      last.drawing.bounds = (Drawing.ofLines ⟨0, 0⟩ last.drawing.segments.toList).bounds := by
  refine ⟨(h.isFinite (Walk.isFinite_start config)).drawing.ends, ?_⟩
  obtain ⟨lines, -, hdrawing, -⟩ := h.frame
  have hsegments : last.drawing.segments.toList = lines := by
    rw [hdrawing]
    simp [Drawing.extend, Walk.start, Drawing.empty]
  rw [hsegments, Drawing.ofLines, Drawing.bounds_addAll, hdrawing]
  rfl

/-- **The box is the exact hull.**  Whatever the origin, when lines with finite ends are added
one after the other, every side of the box is the coordinate of the origin or of an end, and
no such coordinate that is a number lies beyond it.  So the box contains the origin and all
ends; the lines in any other order have the same box, and with more lines it contains all that
it contained before.  The box of a drawing of a string is of this kind. -/
theorem bounds_isHull :
    (∀ (origin : Vec2 Float) (lines : List (Segment Float)),
      (∀ p ∈ Segment.ends lines, p.IsFinite) →
        let box := (Drawing.ofLines origin lines).bounds
        let points := origin :: Segment.ends lines
        box.IsHull IsNumber points ∧
          (∀ p ∈ points, p.Has IsNumber → box.contains p) ∧
          (∀ others, others.Perm lines → (Drawing.ofLines origin others).bounds.Same box) ∧
          ∀ more, (∀ p ∈ Segment.ends more, p.IsFinite) → ∀ p, box.contains p →
            (Drawing.ofLines origin (lines ++ more)).bounds.contains p) ∧
      ∀ (config : RenderConfig) (spec : Specification) (c : Context) (u : List Symbol)
        (d : Drawing Float), render config spec c u = .ok d →
          (∀ p ∈ Segment.ends d.segments.toList, p.IsFinite) ∧
            d.bounds = (Drawing.ofLines ⟨0, 0⟩ d.segments.toList).bounds ∧
              d.bounds.IsHull IsNumber (⟨0, 0⟩ :: Segment.ends d.segments.toList) := by
  constructor
  · intro origin lines hlines box points
    have hbox := isHull_of_finite_ends origin hlines
    refine ⟨hbox, fun p hp => hbox.contains hp, fun others hperm => ?_, fun more hmore p hp => ?_⟩
    · have hends : (Segment.ends others).Perm (Segment.ends lines) := hperm.flatMap_right _
      have hothers := isHull_of_finite_ends origin fun p hp => hlines p (hends.mem_iff.1 hp)
      have hpoints := hends.cons origin
      exact hothers.same hbox hpoints.subset hpoints.symm.subset
    · have hall : ∀ p ∈ Segment.ends (lines ++ more), p.IsFinite := by
        rw [Segment.ends, List.flatMap_append, List.forall_mem_append]
        exact ⟨hlines, hmore⟩
      have hsub : points ⊆ origin :: Segment.ends (lines ++ more) := by
        rw [Segment.ends, List.flatMap_append]
        exact List.cons_subset_cons origin (List.subset_append_left _ _)
      exact hbox.contains_mono compares_float (isHull_of_finite_ends origin hall) hsub hp
  · intro config spec c u d h
    obtain ⟨last, g, hfollows, rfl⟩ := render_eq_ok_iff.1 h
    obtain ⟨hends, hbounds⟩ := hfollows.bounds_eq
    exact ⟨hends, hbounds, hbounds ▸ isHull_of_finite_ends ⟨0, 0⟩ hends⟩

/-- Two lines that cross, one of which ends at a zero with a sign. -/
def kite : List (Segment Float) :=
  [⟨⟨0, 3⟩, ⟨-2, -0.0⟩, 1, ⟨0, 0, 0⟩⟩, ⟨⟨-2, 2⟩, ⟨0.5, 0⟩, 2, ⟨255, 0, 0⟩⟩]

/-- The theorems at two lines that cross: hull, containment, order and more lines, with a zero
that has a sign among the ends, and at a drawing that was rendered. -/
theorem kite_bounds : (Drawing.ofLines ⟨1, 0⟩ kite).bounds.IsHull IsNumber
      (⟨1, 0⟩ :: Segment.ends kite) ∧
    (Drawing.ofLines ⟨1, 0⟩ kite).bounds.contains ⟨-2, -0.0⟩ ∧
    (Drawing.ofLines ⟨1, 0⟩ kite.reverse).bounds.Same (Drawing.ofLines ⟨1, 0⟩ kite).bounds ∧
    (Drawing.ofLines ⟨1, 0⟩ (kite ++ kite)).bounds.contains ⟨-2, -0.0⟩ ∧
    ∃ d, render .standard strides (strides.context (.ofSeed 7))
        [.named "east", .push, .named "east", .pop, .named "east"] = .ok d ∧
      d.bounds.IsHull IsNumber (⟨0, 0⟩ :: Segment.ends d.segments.toList) := by
  have hends : ∀ p ∈ Segment.ends kite, p.IsFinite := by
    intro p hp
    simp only [kite, Segment.ends, List.flatMap_cons, List.flatMap_nil, List.append_nil,
      List.cons_append, List.nil_append, List.mem_cons, List.not_mem_nil, or_false] at hp
    rcases hp with rfl | rfl | rfl | rfl <;> exact ⟨rfl, rfl⟩
  have hok : (render .standard strides (strides.context (.ofSeed 7))
      [.named "east", .push, .named "east", .pop, .named "east"]).isOk = true := by
    decide +kernel
  obtain ⟨d, hd⟩ := exists_of_isOk hok
  obtain ⟨hhull, hcontains, hperm, hgrows⟩ := bounds_isHull.1 ⟨1, 0⟩ kite hends
  obtain ⟨-, -, hdrawing⟩ := bounds_isHull.2 _ _ _ _ d hd
  have hin : (Drawing.ofLines ⟨1, 0⟩ kite).bounds.contains ⟨-2, -0.0⟩ :=
    hcontains ⟨-2, -0.0⟩ (.tail _ (.tail _ (.head _))) ⟨rfl, rfl⟩
  exact ⟨hhull, hin, hperm kite.reverse kite.reverse_perm, hgrows kite hends _ hin, d, hd, hdrawing⟩

end LSystem
