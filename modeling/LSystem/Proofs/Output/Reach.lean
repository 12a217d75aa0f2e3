import LSystem.Output.Svg
import LSystem.Proofs.Number.Infinity
import LSystem.Proofs.Rendering.Hull

/-!
# Drawings that fit on a canvas

All numbers of a drawing are finite, but a canvas is larger than its drawing, and nothing checks
what is computed for it.  Lengths of a drawing are differences of coordinates, which are not
negative, so on the canvas they are finite or the infinity and never a NaN; they are finite up to
`widest`.  The same double bounds the widths of lines, in both directions.
-/

namespace LSystem

open Syntax Eval Randomness Number

/-! ### Lengths on the canvas -/

/-- The greatest double that the standard scale leaves finite. -/
def widest : Float := 3.595386269724631e306

/-- The double after `widest`. -/
def tooWide : Float := 3.595386269724632e306

/-- There is no double between the two, nor between the two below zero. -/
theorem tooWide_next :
    (widest.isFinite ∧ tooWide.isFinite ∧ signedBits tooWide = signedBits widest + 1) ∧
      (-widest).isFinite ∧ (-tooWide).isFinite ∧
        signedBits (-tooWide) = signedBits (-widest) - 1 := by
  decide +kernel

/-- Up to `widest` no step of the layout overflows. -/
theorem isFinite_widest_mul : ((widest * 50).isFinite ∧ (-widest * 50).isFinite) ∧
    ((widest * 50 / 40).isFinite ∧ (-widest * 50 / 40).isFinite) ∧
    (5 + widest * 50).isFinite ∧ (widest * 50 + 2 * 5).isFinite := by
  decide +kernel

/-- From `tooWide` on the scale overflows, and no later step gets back from an infinity. -/
theorem tooWide_overflows : (tooWide * 50 = infinity ∧ -tooWide * 50 = -infinity) ∧
    infinity * 50 = infinity ∧ 5 + infinity = infinity ∧ infinity + 2 * 5 = infinity ∧
    infinity / 40 = infinity ∧ -infinity / 40 = -infinity := by
  decide +kernel

section Lengths

variable {f : Float → Float} {exact : ℚ → ℚ} {x low high : Float}

/-- There is no double between `widest` and the one after it: what is not at most the first is at
least the second. -/
theorem tooWide_le (hx : IsNumber x) (h : ¬ x ≤ widest) : tooWide ≤ x := by
  obtain ⟨⟨hwidest, htooWide, hnext⟩, -⟩ := tooWide_next
  rw [le_iff_signedBits] at h ⊢
  refine ⟨.of_isFinite htooWide, hx, ?_⟩
  by_contra hless
  exact h ⟨hx, .of_isFinite hwidest, by omega⟩

/-- The same below zero, where the order of the words is turned over. -/
theorem le_neg_tooWide (hx : IsNumber x) (h : ¬ -widest ≤ x) : x ≤ -tooWide := by
  obtain ⟨-, hwidest, htooWide, hnext⟩ := tooWide_next
  rw [le_iff_signedBits] at h ⊢
  refine ⟨hx, .of_isFinite htooWide, ?_⟩
  by_contra hless
  exact h ⟨.of_isFinite hwidest, hx, by omega⟩

/-- The product with the standard scale is the exact product rounded, which bounds it by the
products at the two doubles at the edge. -/
theorem rounds_mul_fifty : Rounds (· * 50) (· * value 50) := by
  have hnonneg : (0 : Float) ≤ 50 := of_decide_eq_true rfl
  rw [le_iff_value rfl rfl, value_zero] at hnonneg
  exact .mul_right rfl hnonneg

/-- The quotient by the standard factor of line widths is the exact quotient rounded. -/
theorem rounds_div_forty : Rounds (· / 40) (· / value 40) := by
  have hpos : (0 : Float) < 40 := of_decide_eq_true rfl
  rw [lt_iff_value rfl rfl, value_zero] at hpos
  exact .div_right rfl hpos

/-- The scale takes lengths up to `widest` to finite lengths and all others to the infinity. -/
theorem scaled_cases (h : 0 ≤ x) : x ≤ widest ∧ 0 ≤ x * 50 ∧ x * 50 ≤ widest * 50 ∨
    ¬ x ≤ widest ∧ x * 50 = infinity := by
  obtain ⟨⟨hwidest, htooWide, -⟩, -⟩ := tooWide_next
  obtain ⟨⟨hoverflow, -⟩, hinfinity, -⟩ := tooWide_overflows
  by_cases hle : x ≤ widest
  · obtain ⟨-, hbelow, habove⟩ :=
      rounds_mul_fifty.within rfl hwidest rfl isFinite_widest_mul.1.1 h hle
    exact .inl ⟨hle, hbelow, habove⟩
  · refine .inr ⟨hle, ?_⟩
    rcases nonneg_cases h with hx | rfl
    · have hscaled := rounds_mul_fifty.le htooWide hx (tooWide_le (.of_isFinite hx) hle)
      simp only [hoverflow] at hscaled
      exact eq_infinity_of_le hscaled
    · exact hinfinity

/-- A length that is scaled and then put off a margin is a number, and finite when it fits. -/
theorem isFinite_scaled_iff (hf : Rounds f exact) (hlow : (f 0).isFinite)
    (hhigh : (f (widest * 50)).isFinite) (hinfinity : f infinity = infinity) (h : 0 ≤ x) :
    IsNumber (f (x * 50)) ∧ ((f (x * 50)).isFinite ↔ x ≤ widest) := by
  rcases scaled_cases h with ⟨hle, hbelow, habove⟩ | ⟨hle, hscaled⟩
  · obtain ⟨hfinite, -⟩ := hf.within rfl isFinite_widest_mul.1.1 hlow hhigh hbelow habove
    exact ⟨.of_isFinite hfinite, iff_of_true hfinite hle⟩
  · rw [hscaled, hinfinity]
    exact ⟨isNumber_infinity.1, iff_of_false not_isFinite_infinity.1 hle⟩

/-- A length that is not negative is placed on the canvas by a product and a sum: never a NaN, and
finite exactly up to `widest`. -/
theorem isFinite_place_iff (h : 0 ≤ x) :
    IsNumber (5 + x * 50) ∧ ((5 + x * 50).isFinite ↔ x ≤ widest) := by
  have hmargin : (5 : Float).isFinite := rfl
  obtain ⟨-, -, hhigh, -⟩ := isFinite_widest_mul
  obtain ⟨-, -, hinfinity, -⟩ := tooWide_overflows
  -- Not applied to the goal, where the search for the operation would compute doubles.
  have hiff := isFinite_scaled_iff (Rounds.add_left hmargin) rfl hhigh hinfinity h
  exact hiff

/-- A length that is not negative gives a size of the canvas by a product and two margins: never a
NaN, and finite exactly up to `widest`, the margins being too small to matter there. -/
theorem isFinite_size_iff (h : 0 ≤ x) :
    IsNumber (x * 50 + 2 * 5) ∧ ((x * 50 + 2 * 5).isFinite ↔ x ≤ widest) := by
  have hmargins : ((2 : Float) * 5).isFinite := rfl
  obtain ⟨-, -, -, hhigh⟩ := isFinite_widest_mul
  obtain ⟨-, -, -, hinfinity, -⟩ := tooWide_overflows
  have hiff := isFinite_scaled_iff (Rounds.add_right hmargins) rfl hhigh hinfinity h
  exact hiff

/-- Widths are scaled and divided, and may lie on both sides of zero. The product with the scale
is the one step that can overflow, as the quotient is smaller again. -/
theorem isFinite_width_iff (hx : x.isFinite) : IsNumber (x * 50 / 40) ∧
    ((x * 50 / 40).isFinite ↔ -widest ≤ x ∧ x ≤ widest) := by
  obtain ⟨⟨hwidest, htooWide, -⟩, hwidest', htooWide', -⟩ := tooWide_next
  obtain ⟨⟨hscaled, hscaled'⟩, ⟨hdivided, hdivided'⟩, -⟩ := isFinite_widest_mul
  obtain ⟨⟨hoverflow, hoverflow'⟩, -, -, -, hinfinity, hinfinity'⟩ := tooWide_overflows
  by_cases hlow : -widest ≤ x
  · by_cases hhigh : x ≤ widest
    · obtain ⟨-, hbelow, habove⟩ :=
        rounds_mul_fifty.within hwidest' hwidest hscaled' hscaled hlow hhigh
      obtain ⟨hfinite, -⟩ :=
        rounds_div_forty.within hscaled' hscaled hdivided' hdivided hbelow habove
      exact ⟨.of_isFinite hfinite, iff_of_true hfinite ⟨hlow, hhigh⟩⟩
    · have hle := rounds_mul_fifty.le htooWide hx (tooWide_le (.of_isFinite hx) hhigh)
      simp only [hoverflow] at hle
      rw [eq_infinity_of_le hle, hinfinity]
      exact ⟨isNumber_infinity.1, iff_of_false not_isFinite_infinity.1 fun h => hhigh h.2⟩
  · have hle := rounds_mul_fifty.le hx htooWide' (le_neg_tooWide (.of_isFinite hx) hlow)
    simp only [hoverflow'] at hle
    rw [eq_neg_infinity_of_le hle, hinfinity']
    exact ⟨isNumber_infinity.2, iff_of_false not_isFinite_infinity.2 fun h => hlow h.1⟩

/-- The distances from both ends of an interval are lengths, no greater than that between them. -/
theorem sub_bounds (hlow : low.isFinite) (hx : x.isFinite) (hhigh : high.isFinite)
    (hle : low ≤ x) (hle' : x ≤ high) :
    (0 ≤ x - low ∧ x - low ≤ high - low) ∧ 0 ≤ high - x ∧ high - x ≤ high - low := by
  rw [le_iff_value hlow hx] at hle
  rw [le_iff_value hx hhigh] at hle'
  have hbelow := isNearest_sub hx hlow
  have habove := isNearest_sub hhigh hx
  have hwhole := isNearest_sub hhigh hlow
  refine ⟨⟨?_, hbelow.le hwhole (by linarith)⟩, ?_, habove.le hwhole (by linarith)⟩
  · exact IsNearest.le_of_value_le rfl hbelow (by rw [value_zero]; linarith)
  · exact IsNearest.le_of_value_le rfl habove (by rw [value_zero]; linarith)

end Lengths

/-! ### Canvases -/

/-- The numbers of a line of a canvas, in the order in which they are written. -/
def CanvasLine.numbers {α : Type} (line : CanvasLine α) : List α :=
  [line.start.x, line.start.y, line.finish.x, line.finish.y, line.width]

/-- The numbers of a picture: its size and those of its lines. -/
def Canvas.numbers {α : Type} (canvas : Canvas α) : List α :=
  canvas.size.x :: canvas.size.y :: canvas.lines.flatMap CanvasLine.numbers

/-- The drawing is no larger than what fits on the standard canvas, nor are its lines wider. -/
structure Drawing.Fits (d : Drawing Float) : Prop where
  width : d.bounds.size.x ≤ widest
  height : d.bounds.size.y ≤ widest
  strokes : ∀ line ∈ d.segments, -widest ≤ line.width ∧ line.width ≤ widest

instance (d : Drawing Float) : Decidable d.Fits :=
  decidable_of_iff ((d.bounds.size.x ≤ widest ∧ d.bounds.size.y ≤ widest) ∧
      ∀ line ∈ d.segments, -widest ≤ line.width ∧ line.width ≤ widest)
    ⟨fun h => ⟨h.1.1, h.1.2, h.2⟩, fun h => ⟨⟨h.width, h.height⟩, h.strokes⟩⟩

/-- The drawing is finite, and its box holds the origin and the ends of its lines. -/
structure Drawing.IsBoxed (d : Drawing Float) : Prop where
  finite : d.IsFinite
  origin : d.bounds.contains ⟨0, 0⟩
  ends : ∀ line ∈ d.segments, d.bounds.contains line.start ∧ d.bounds.contains line.finish

/-- Every drawing of the program is finite and has a box that holds the origin and all ends of its
lines, so the bounds below hold of whatever is rendered. -/
theorem isBoxed_of_render_eq_ok {config : RenderConfig} {spec : Specification} {c : Context}
    {u : List Symbol} {d : Drawing Float} (h : render config spec c u = .ok d) : d.IsBoxed := by
  obtain ⟨last, g, hfollows, rfl⟩ := render_eq_ok_iff.1 h
  obtain ⟨hends, hbounds⟩ := hfollows.bounds_eq
  have hhull := isHull_of_finite_ends ⟨0, 0⟩ hends
  rw [← hbounds] at hhull
  refine ⟨(hfollows.isFinite (Walk.isFinite_start config)).drawing,
    hhull.contains (.head _) ⟨rfl, rfl⟩, fun line hline => ?_⟩
  have hpoint (p : Vec2 Float) (hp : p ∈ [line.start, line.finish]) :
      last.drawing.bounds.contains p := by
    have hmem : p ∈ Segment.ends last.drawing.segments.toList :=
      List.mem_flatMap.2 ⟨line, Array.mem_toList_iff.2 hline, hp⟩
    exact hhull.contains (.tail _ hmem) (hends p hmem).isNumber
  exact ⟨hpoint _ (.head _), hpoint _ (.tail _ (.head _))⟩

namespace Drawing.IsBoxed

variable {d : Drawing Float} {p : Vec2 Float} {segment : Segment Float}

/-- Points of the box are as far from its sides as a length that fits if the box does. -/
theorem place (hd : d.IsBoxed) (hp : p.IsFinite) (hin : d.bounds.contains p) :
    let placed := SvgConfig.standard.place d.bounds p
    (IsNumber placed.x ∧ (d.bounds.size.x ≤ widest → placed.x.isFinite)) ∧
      IsNumber placed.y ∧ (d.bounds.size.y ≤ widest → placed.y.isFinite) := by
  obtain ⟨⟨hleft, hbottom⟩, hright, htop⟩ := BoundingBox.contains_iff.1 hin
  obtain ⟨hmin, hmax⟩ := hd.finite.bounds
  obtain ⟨⟨hx, hx'⟩, -⟩ := sub_bounds hmin.x hp.x hmax.x hleft hright
  obtain ⟨-, hy, hy'⟩ := sub_bounds hmin.y hp.y hmax.y hbottom htop
  obtain ⟨hnumber, hfinite⟩ := isFinite_place_iff hx
  obtain ⟨hnumber', hfinite'⟩ := isFinite_place_iff hy
  exact ⟨⟨hnumber, fun hfits => hfinite.2 (compares_float.trans hx' hfits)⟩,
    hnumber', fun hfits => hfinite'.2 (compares_float.trans hy' hfits)⟩

/-- The size of the canvas of a drawing is never a NaN, and each side is finite exactly if that
side of the box is at most `widest`. -/
theorem size (hd : d.IsBoxed) :
    let size := SvgConfig.standard.canvasSize d.bounds
    (IsNumber size.x ∧ (size.x.isFinite ↔ d.bounds.size.x ≤ widest)) ∧
      IsNumber size.y ∧ (size.y.isFinite ↔ d.bounds.size.y ≤ widest) := by
  obtain ⟨⟨hleft, hbottom⟩, hright, htop⟩ := BoundingBox.contains_iff.1 hd.origin
  obtain ⟨hmin, hmax⟩ := hd.finite.bounds
  have hx : 0 ≤ d.bounds.size.x := (sub_bounds hmin.x hmax.x hmax.x
    (compares_float.trans hleft hright) (compares_float.refl (.of_isFinite hmax.x))).1.1
  have hy : 0 ≤ d.bounds.size.y := (sub_bounds hmin.y hmax.y hmax.y
    (compares_float.trans hbottom htop) (compares_float.refl (.of_isFinite hmax.y))).1.1
  exact ⟨isFinite_size_iff hx, isFinite_size_iff hy⟩

/-- The numbers of a line of the canvas: none is a NaN, the width is finite exactly if the stroke
is not too wide either way, and all are if the drawing fits. -/
theorem line (hd : d.IsBoxed) (hmem : segment ∈ d.segments) :
    let line := SvgConfig.standard.line nearestNat d.bounds segment
    (∀ x ∈ line.numbers, IsNumber x) ∧
      (line.width.isFinite ↔ -widest ≤ segment.width ∧ segment.width ≤ widest) ∧
      (d.Fits → ∀ x ∈ line.numbers, x.isFinite) := by
  obtain ⟨hstart, hfinish⟩ := hd.ends segment hmem
  obtain ⟨hfinite, hfinite', hwidth, -⟩ := hd.finite.segments segment hmem
  obtain ⟨⟨hx₁, hx₁'⟩, hy₁, hy₁'⟩ := hd.place hfinite hstart
  obtain ⟨⟨hx₂, hx₂'⟩, hy₂, hy₂'⟩ := hd.place hfinite' hfinish
  obtain ⟨hwidth, hwidth'⟩ := isFinite_width_iff hwidth
  refine ⟨?_, hwidth', fun hfits => ?_⟩
  · simp only [CanvasLine.numbers, List.forall_mem_cons]
    exact ⟨hx₁, hy₁, hx₂, hy₂, hwidth, List.forall_mem_nil _⟩
  · simp only [CanvasLine.numbers, List.forall_mem_cons]
    exact ⟨hx₁' hfits.width, hy₁' hfits.height, hx₂' hfits.width, hy₂' hfits.height,
      hwidth'.2 (hfits.strokes segment hmem), List.forall_mem_nil _⟩

/-- No number of the canvas is a NaN, and all are finite exactly if the drawing fits. -/
theorem numbers (hd : d.IsBoxed) :
    let canvas := SvgConfig.standard.canvas nearestNat d
    (∀ x ∈ canvas.numbers, IsNumber x) ∧ ((∀ x ∈ canvas.numbers, x.isFinite) ↔ d.Fits) := by
  obtain ⟨⟨hwidth, hwidth'⟩, hheight, hheight'⟩ := hd.size
  simp only [Canvas.numbers, SvgConfig.canvas, List.forall_mem_cons, List.forall_mem_flatMap,
    List.forall_mem_map, Array.mem_toList_iff]
  refine ⟨⟨hwidth, hheight, fun segment hmem => (hd.line hmem).1⟩, fun h => ?_, fun hfits => ?_⟩
  · obtain ⟨hx, hy, hlines⟩ := h
    refine ⟨hwidth'.1 hx, hheight'.1 hy, fun segment hmem => ?_⟩
    exact (hd.line hmem).2.1.1 (hlines segment hmem _ (by simp [CanvasLine.numbers]))
  · exact ⟨hwidth'.2 hfits.width, hheight'.2 hfits.height,
      fun segment hmem => (hd.line hmem).2.2 hfits⟩

end Drawing.IsBoxed

end LSystem
