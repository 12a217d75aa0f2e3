import LSystem.Output.Svg
import LSystem.Proofs.Number.Arithmetic
import LSystem.Proofs.Rendering.Hull

/-!
# The canvas of a drawing

The box of a drawing holds both ends of every line, so their places on the canvas are off the
margin on all sides.  The axis that points down reverses the order of heights and keeps the
other one.  All this is about exact numbers.  The colors of a document and the order of its
elements need no exactness (`channel_eq`, `Canvas.text_eq`).
-/

namespace LSystem

open Number

/-! ### Colors -/

section Colors

/-- The whole number nearest to a number, a half going up; zero for what lies below zero. -/
def nearestWhole (q : ℚ) : Nat := (round q).toNat

/-- A larger number has no smaller nearest whole number, since adding a half, taking the floor and
cutting off below zero all keep the order. -/
theorem nearestWhole_mono : Monotone nearestWhole := by
  intro q r hle
  unfold nearestWhole
  rw [round_eq, round_eq]
  exact Int.toNat_le_toNat (Int.floor_mono (by linarith))

/-- A part of a color is cut to its range before it is rounded. This is what the two tests for the
ends come to, which answer before anything is rounded. -/
theorem channel_eq_clamp (q : ℚ) : channel nearestWhole q = nearestWhole (max 0 (min q 255)) := by
  unfold channel
  by_cases hpos : 0 < q
  · by_cases hlt : q < 255
    · rw [if_pos hpos, if_pos hlt, min_eq_left hlt.le, max_eq_right hpos.le]
    · have htop : nearestWhole 255 = 255 := by
        rw [nearestWhole, round_ofNat]
        rfl
      rw [if_pos hpos, if_neg hlt, min_eq_right (not_lt.1 hlt), max_eq_right (by norm_num), htop]
  · have hbottom : nearestWhole 0 = 0 := by
      rw [nearestWhole, round_zero]
      rfl
    have hle : min q 255 ≤ 0 := (min_le_left q 255).trans (not_lt.1 hpos)
    rw [if_neg hpos, max_eq_left hle, hbottom]

/-- Brightness is kept in order: a color part that is no smaller is written as a number that is no
smaller, the clamped ends included. -/
theorem channel_mono : Monotone (channel nearestWhole) := by
  intro q r hle
  rw [channel_eq_clamp, channel_eq_clamp]
  exact nearestWhole_mono (max_le_max_left 0 (min_le_min_right 255 hle))

/-- No channel is written as more than 255: the clamp takes every larger color part to the channel
of 255. -/
theorem channel_le (q : ℚ) : channel nearestWhole q ≤ 255 := by
  have htop : channel nearestWhole 255 = 255 := by
    unfold channel
    rw [if_pos (by norm_num), if_neg (lt_irrefl 255)]
  by_cases hle : q ≤ 255
  · exact (channel_mono hle).trans_eq htop
  · unfold channel
    rw [if_pos (by linarith), if_neg (by linarith)]

/-- Rounding a fraction to a whole number is one division of whole numbers, which is how a double
is rounded by its quanta. -/
theorem round_div (n : ℤ) {den : ℕ} (hden : 0 < den) :
    round ((n : ℚ) / den) = Int.fdiv (2 * n + den) (2 * den) := by
  have hsum : (n : ℚ) / den + 1 / 2 = ((2 * n + den : ℤ) : ℚ) / ((2 * den : ℕ) : ℚ) := by
    push_cast
    field_simp
  rw [round_eq, hsum, Rat.floor_intCast_div_natCast, Int.fdiv_eq_ediv_of_nonneg _ (by omega)]
  norm_cast

/-- The whole number nearest to a double is the one nearest to the number that the double stands
for. -/
theorem nearestNat_eq (x : Float) : nearestNat x = nearestWhole (value x) :=
  congrArg Int.toNat (round_div (quanta x) quantaPerUnit_pos).symm

/-- The colors of a document are those of the exact numbers. Rounding to a whole number and
clamping are comparisons of a double with whole numbers, and doubles compare like their values. -/
theorem channel_eq {x : Float} (hx : x.isFinite) :
    channel nearestNat x = channel nearestWhole (value x) := by
  have htop : value 255 = 255 := by
    have hword : signedBits 255 = Float.Model.UnpackedFloat.Sign.positive.apply
        (1029 * 2 ^ 52 + 255 * 2 ^ 45) := by
      decide +kernel
    rw [value_of_signedBits hword, signed, valueOf_word (by decide) (.inr (by decide))]
    norm_num
  have hpos : 0 < x ↔ 0 < value x := by rw [lt_iff_value rfl hx, value_zero]
  have hlt : x < 255 ↔ value x < 255 := by rw [lt_iff_value hx rfl, htop]
  unfold channel
  simp only [hpos, hlt, nearestNat_eq]

end Colors

/-! ### Places -/

/-- The point lies on a canvas of the size, off the margin on every side. -/
structure Inside (margin : ℚ) (size p : Vec2 ℚ) : Prop where
  left : margin ≤ p.x
  right : p.x ≤ size.x - margin
  top : margin ≤ p.y
  bottom : p.y ≤ size.y - margin

/-- What is off a margin is off a narrower one as well; with the margin zero, it is inside the
view box. -/
theorem Inside.mono {margin narrower : ℚ} {size p : Vec2 ℚ} (h : Inside margin size p)
    (hle : narrower ≤ margin) : Inside narrower size p := by
  obtain ⟨hleft, hright, htop, hbottom⟩ := h
  constructor <;> linarith

section Places

variable {config : SvgConfig ℚ} {box : BoundingBox ℚ} {p q : Vec2 ℚ}

theorem compares_rat : Compares (α := ℚ) (· < ·) (· ≤ ·) (fun _ => True) where
  refl _ := le_refl _
  trans := le_trans
  of_lt := le_of_lt
  of_not_lt _ _ := le_of_not_gt
  numbers _ := ⟨trivial, trivial⟩

/-- What lies in the box lies off the margin. Both coordinates are measured from a side of the
box, and the margin is added to them. -/
theorem inside_place (hscale : 0 ≤ config.scale) (h : box.contains p) :
    Inside config.margin (config.canvasSize box) (config.place box p) := by
  obtain ⟨⟨hleft, hbottom⟩, hright, htop⟩ := BoundingBox.contains_iff.1 h
  have hx : 0 ≤ (p.x - box.min.x) * config.scale := mul_nonneg (by linarith) hscale
  have hx' : 0 ≤ (box.max.x - p.x) * config.scale := mul_nonneg (by linarith) hscale
  have hy : 0 ≤ (p.y - box.min.y) * config.scale := mul_nonneg (by linarith) hscale
  have hy' : 0 ≤ (box.max.y - p.y) * config.scale := mul_nonneg (by linarith) hscale
  constructor <;> simp only [SvgConfig.place, SvgConfig.canvasSize, BoundingBox.size, Vec2.scale,
    Vec2.add] <;> linarith

/-- What is further to the right stays so. The scale may be zero here, and then all points have
one place. -/
theorem place_x_le (hscale : 0 ≤ config.scale) (hle : p.x ≤ q.x) :
    (config.place box p).x ≤ (config.place box q).x := by
  have hproduct := mul_le_mul_of_nonneg_right (sub_le_sub_right hle box.min.x) hscale
  exact add_le_add_right hproduct config.margin

/-- What is higher up comes out further up, where heights are counted downwards. -/
theorem place_y_le (hscale : 0 ≤ config.scale) (hle : p.y ≤ q.y) :
    (config.place box q).y ≤ (config.place box p).y := by
  have hproduct := mul_le_mul_of_nonneg_right (sub_le_sub_left hle box.max.y) hscale
  exact add_le_add_right hproduct config.margin

/-- The canvas keeps left and right: a point further to the left is placed further to the left. -/
theorem place_x_lt (hscale : 0 < config.scale) (hlt : p.x < q.x) :
    (config.place box p).x < (config.place box q).x := by
  have hproduct := mul_lt_mul_of_pos_right (sub_lt_sub_right hlt box.min.x) hscale
  exact add_lt_add_right hproduct config.margin

/-- The canvas turns over top and bottom: a point that is lower in the drawing has the larger
height on the canvas, whose axis points down. -/
theorem place_y_lt (hscale : 0 < config.scale) (hlt : p.y < q.y) :
    (config.place box q).y < (config.place box p).y := by
  have hproduct := mul_lt_mul_of_pos_right (sub_lt_sub_left hlt box.max.y) hscale
  exact add_lt_add_right hproduct config.margin

end Places

/-! ### The document -/

/-- The text before the elements of the lines. -/
def Canvas.opening (canvas : Canvas Float) : String :=
  "<svg xmlns=\"http://www.w3.org/2000/svg\" width=\"" ++ svgNumber canvas.size.x ++
    "\" height=\"" ++ svgNumber canvas.size.y ++ "\" viewBox=\"0 0 " ++ svgNumber canvas.size.x ++
    " " ++ svgNumber canvas.size.y ++ "\">\n"

/-- Writing the lines one after another behind a text is writing their texts joined behind it. The
induction is over the lines, for any text written so far. -/
theorem foldl_text (lines : List (CanvasLine Float)) : ∀ text : String,
    lines.foldl (fun text line => text ++ line.text) text =
      text ++ String.join (lines.map CanvasLine.text) := by
  induction lines with
  | nil =>
      intro text
      rw [List.map_nil, String.join_nil, String.append_empty]
      rfl
  | cons line rest ih =>
      intro text
      rw [List.foldl_cons, ih, List.map_cons, String.join_cons, String.append_assoc]

/-- The text of a picture has one element for each line, in order. -/
theorem Canvas.text_eq (canvas : Canvas Float) : canvas.text =
    canvas.opening ++ String.join (canvas.lines.map CanvasLine.text) ++ "</svg>\n" := by
  unfold Canvas.text
  simp only
  rw [foldl_text]
  rfl

/-! ### The picture -/

/-- What a line of the canvas shows of a segment: both ends where they belong, off the margin and
so inside the canvas, and the color by parts up to 255. -/
structure Shows (config : SvgConfig ℚ) (box : BoundingBox ℚ) (size : Vec2 ℚ) (segment : Segment ℚ)
    (line : CanvasLine ℚ) : Prop where
  start : line.start = config.place box segment.start
  finish : line.finish = config.place box segment.finish
  margin : Inside config.margin size line.start ∧ Inside config.margin size line.finish
  viewBox : Inside 0 size line.start ∧ Inside 0 size line.finish
  color : line.color = ⟨channel nearestWhole segment.color.r, channel nearestWhole segment.color.g,
    channel nearestWhole segment.color.b⟩
  channels : line.color.r ≤ 255 ∧ line.color.g ≤ 255 ∧ line.color.b ≤ 255

section Picture

variable {config : SvgConfig ℚ} {box : BoundingBox ℚ} {segment : Segment ℚ}

/-- The line that the canvas has for a segment shows it, as soon as the box holds both ends of the
segment; neither scale nor margin may be negative. -/
theorem shows_line (hscale : 0 ≤ config.scale) (hmargin : 0 ≤ config.margin)
    (hstart : box.contains segment.start) (hfinish : box.contains segment.finish) :
    Shows config box (config.canvasSize box) segment (config.line nearestWhole box segment) := by
  have hstart' := inside_place hscale hstart
  have hfinish' := inside_place hscale hfinish
  refine ⟨rfl, rfl, ⟨hstart', hfinish'⟩, ⟨hstart'.mono hmargin, hfinish'.mono hmargin⟩, rfl, ?_⟩
  exact ⟨channel_le _, channel_le _, channel_le _⟩

/-- The lines of a drawing are in the order in which they were added. -/
theorem Drawing.segments_ofLines {α : Type} [LT α] [DecidableLT α] (origin : Vec2 α)
    (lines : List (Segment α)) : (ofLines origin lines).segments.toList = lines := by
  have hadd : ∀ (lines : List (Segment α)) (d : Drawing α),
      (d.addAll lines).segments.toList = d.segments.toList ++ lines := by
    intro lines
    induction lines with
    | nil => exact fun d => (List.append_nil _).symm
    | cons line rest ih =>
        intro d
        have hrest := ih (d.addSegment line)
        rw [addSegment, Array.toList_push, List.append_assoc] at hrest
        exact hrest
  exact hadd lines (empty origin)

/-- The box of a drawing holds both ends of its lines. Rational numbers all compare, so nothing is
left outside as a NaN would be. -/
theorem Drawing.contains_ofLines (origin : Vec2 ℚ) {lines : List (Segment ℚ)}
    (hsegment : segment ∈ lines) : (ofLines origin lines).bounds.contains segment.start ∧
      (ofLines origin lines).bounds.contains segment.finish := by
  have hpoints : ∀ p ∈ Segment.ends lines, p.Has fun _ => True := fun _ _ => ⟨trivial, trivial⟩
  have hhull := isHull_ofLines compares_rat origin hpoints
  have hends (p : Vec2 ℚ) (hp : p ∈ [segment.start, segment.finish]) :
      (ofLines origin lines).bounds.contains p :=
    hhull.contains (.tail _ (List.mem_flatMap.2 ⟨segment, hsegment, hp⟩)) ⟨trivial, trivial⟩
  exact ⟨hends _ (.head _), hends _ (.tail _ (.head _))⟩

/-- **The canvas holds the drawing.**  For exact numbers, whatever lines are added in whatever
order to a drawing with any origin, a canvas whose scale and margin are not negative has one line
for each of them, in order, with both ends off the margin.  Places keep the order of the x
coordinates and reverse that of the y coordinates, strictly so unless the scale is zero, and
greater parts of colors come out no smaller.  The document has one element for each line in the
order of the segments, and its colors are the exact ones. -/
theorem canvas_holds_drawing (config : SvgConfig ℚ) (hscale : 0 ≤ config.scale)
    (hmargin : 0 ≤ config.margin) (origin : Vec2 ℚ) (lines : List (Segment ℚ)) :
    let d := Drawing.ofLines origin lines
    let canvas := config.canvas nearestWhole d
    let place := config.place d.bounds
    List.Forall₂ (Shows config d.bounds canvas.size) lines canvas.lines ∧
      (∀ p q : Vec2 ℚ, (p.x ≤ q.x → (place p).x ≤ (place q).x) ∧
        (p.y ≤ q.y → (place q).y ≤ (place p).y)) ∧
      (0 < config.scale → ∀ p q : Vec2 ℚ, (p.x < q.x → (place p).x < (place q).x) ∧
        (p.y < q.y → (place q).y < (place p).y)) ∧
      Monotone (channel nearestWhole) ∧
      (∀ (layout : SvgConfig Float) (d : Drawing Float),
        d.svg layout = (layout.canvas nearestNat d).opening ++
          String.join (d.segments.toList.map fun segment =>
            (layout.line nearestNat d.bounds segment).text) ++ "</svg>\n") ∧
      ∀ x : Float, x.isFinite → channel nearestNat x = channel nearestWhole (value x) := by
  intro d canvas place
  refine ⟨?_, fun p q => ⟨place_x_le hscale, place_y_le hscale⟩,
    fun hpos p q => ⟨place_x_lt hpos, place_y_lt hpos⟩, channel_mono, fun layout d => ?_,
    fun x hx => channel_eq hx⟩
  · have hlines : canvas.lines = lines.map (config.line nearestWhole d.bounds) :=
      congrArg (List.map _) (Drawing.segments_ofLines origin lines)
    rw [hlines, List.forall₂_map_right_iff, List.forall₂_same]
    intro segment hsegment
    obtain ⟨hstart, hfinish⟩ := Drawing.contains_ofLines origin hsegment
    exact shows_line hscale hmargin hstart hfinish
  · have htext := (layout.canvas nearestNat d).text_eq
    rw [SvgConfig.canvas, List.map_map] at htext
    exact htext

end Picture

/-- Two lines to the left of the origin, one of them below it. -/
def hook : List (Segment ℚ) :=
  [⟨⟨0, 0⟩, ⟨-2, 1 / 2⟩, 1, ⟨0, 300, -7⟩⟩, ⟨⟨-2, 1 / 2⟩, ⟨-2, -3⟩, 2, ⟨254 + 1 / 2, 1 / 3, 9⟩⟩]

/-- The theorem at a drawing to the left of the origin and partly below it, at a canvas of its own
scale, with colors beyond both ends of the range. -/
theorem hook_canvas : let canvas := SvgConfig.canvas ⟨10, 4, 5⟩ nearestWhole (.ofLines ⟨0, 0⟩ hook)
    List.Forall₂ (Shows ⟨10, 4, 5⟩ ⟨⟨-2, -3⟩, ⟨0, 1 / 2⟩⟩ ⟨30, 45⟩) hook canvas.lines ∧
      canvas.size = ⟨30, 45⟩ := by
  have hbounds : (Drawing.ofLines ⟨0, 0⟩ hook).bounds = ⟨⟨-2, -3⟩, ⟨0, 1 / 2⟩⟩ := by decide +kernel
  have hsize : (SvgConfig.canvas ⟨10, 4, 5⟩ nearestWhole (.ofLines ⟨0, 0⟩ hook)).size =
      ⟨30, 45⟩ := by
    decide +kernel
  have hshows := (canvas_holds_drawing ⟨10, 4, 5⟩ (by decide +kernel) (by decide +kernel) ⟨0, 0⟩
    hook).1
  rw [hbounds, hsize] at hshows
  exact ⟨hshows, hsize⟩

end LSystem
