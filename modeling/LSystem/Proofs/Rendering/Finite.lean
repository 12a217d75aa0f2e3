import LSystem.Proofs.Rendering.Walk

/-!
# Finite drawings

Nothing infinite and no NaN gets into a drawing, whatever the context binds, the
native functions answer and the turtle starts with.  Three checks see to it: the
value of every expression is finite, the pose after every motion is, and the box
around a drawing has no bound that is not a coordinate of a point in it.

The heading of a turtle may well be no number, so what a walk keeps is said of
positions: those of the turtle and of the saved poses are finite, and so is all
that was drawn.
-/

namespace LSystem

open Syntax Eval Randomness

/-- Both parts are finite. -/
structure Vec2.IsFinite (v : Vec2 Float) : Prop where
  x : v.x.isFinite
  y : v.y.isFinite

/-- All three parts are finite. -/
structure Rgb.IsFinite (color : Rgb Float) : Prop where
  r : color.r.isFinite
  g : color.g.isFinite
  b : color.b.isFinite

/-- Both ends, the width and the color are finite. -/
structure Segment.IsFinite (line : Segment Float) : Prop where
  start : line.start.IsFinite
  finish : line.finish.IsFinite
  width : line.width.isFinite
  color : line.color.IsFinite

/-- Both corners are finite. -/
structure BoundingBox.IsFinite (box : BoundingBox Float) : Prop where
  min : box.min.IsFinite
  max : box.max.IsFinite

/-- All lines and the box around them are finite. -/
structure Drawing.IsFinite (d : Drawing Float) : Prop where
  segments : ∀ line ∈ d.segments, line.IsFinite
  bounds : d.bounds.IsFinite

/-! ### Boxes and drawings -/

namespace BoundingBox

variable {bound value : Float} {box : BoundingBox Float}

/-- The lower of two finite bounds is one of them and so finite. -/
theorem isFinite_lower (hbound : bound.isFinite) (hvalue : value.isFinite) :
    (lower bound value).isFinite := by
  unfold lower
  split
  · exact hbound
  · exact hvalue

/-- The upper of two finite bounds is one of them and so finite. -/
theorem isFinite_upper (hbound : bound.isFinite) (hvalue : value.isFinite) :
    (upper bound value).isFinite := by
  unfold upper
  split
  · exact hbound
  · exact hvalue

/-- A box that is grown to hold a finite point stays finite: each of its sides is the one it had
or a coordinate of the point. -/
theorem IsFinite.cover {point : Vec2 Float} (hbox : box.IsFinite) (hpoint : point.IsFinite) :
    (box.cover point).IsFinite := by
  constructor
  · exact ⟨isFinite_lower hbox.min.x hpoint.x, isFinite_lower hbox.min.y hpoint.y⟩
  · exact ⟨isFinite_upper hbox.max.x hpoint.x, isFinite_upper hbox.max.y hpoint.y⟩

end BoundingBox

/-- Adding a finite line to a finite drawing keeps it finite, the box being grown by two finite
points. -/
theorem Drawing.IsFinite.addSegment {d : Drawing Float} {line : Segment Float}
    (hd : d.IsFinite) (hline : line.IsFinite) : (d.addSegment line).IsFinite := by
  constructor
  · intro other hother
    rcases Array.mem_push.1 hother with hold | rfl
    · exact hd.segments other hold
    · exact hline
  · exact (hd.bounds.cover hline.start).cover hline.finish

/-! ### Walks -/

variable {config : RenderConfig} {spec : Specification} {c : Context} {walk next last : Walk}
  {g g' : Generator} {symbol : Symbol} {u : List Symbol}

/-- A stroke whose expressions have values has a finite width and a finite color, since every
value of an expression has been checked. -/
theorem isFinite_of_answers_evaluateStroke {s : Scope} {stroke : Stroke} {width : Float}
    {color : Rgb Float} (h : Answers (evaluateStroke s stroke) g (width, color) g') :
    width.isFinite ∧ color.IsFinite := by
  obtain ⟨w, g₁, hwidth, hrest⟩ := answers_bind_iff.1 h
  obtain ⟨rgb, g₂, hcolor, hpure⟩ := answers_bind_iff.1 hrest
  obtain ⟨hpair, -⟩ := answers_pure_iff.1 hpure
  cases hpair
  obtain ⟨r, g₃, hr, hrest⟩ := answers_bind_iff.1 hcolor
  obtain ⟨green, g₄, hgreen, hrest⟩ := answers_bind_iff.1 hrest
  obtain ⟨b, g₅, hb, hpure⟩ := answers_bind_iff.1 hrest
  obtain ⟨rfl, -⟩ := answers_pure_iff.1 hpure
  refine ⟨isFinite_of_answers_evaluate hwidth, ?_⟩
  exact ⟨isFinite_of_answers_evaluate hr, isFinite_of_answers_evaluate hgreen,
    isFinite_of_answers_evaluate hb⟩

/-- A line from a finite position to a finite one is finite. -/
theorem Moves.isFinite_line {epsilon : Float} {s : Scope} {pose moved : Pose}
    {motion : Motion Stroke} {line : Segment Float}
    (h : Moves epsilon s pose motion g moved (some line) g') (hstart : pose.position.IsFinite)
    (hfinish : moved.position.IsFinite) : line.IsFinite := by
  cases h with
  | advance hdistance hstroke =>
      obtain ⟨hwidth, hcolor⟩ := isFinite_of_answers_evaluateStroke hstroke
      exact ⟨hstart, hfinish, hwidth, hcolor⟩
  | shift hx hy hstroke =>
      obtain ⟨hwidth, hcolor⟩ := isFinite_of_answers_evaluateStroke hstroke
      exact ⟨hstart, hfinish, hwidth, hcolor⟩

/-- A pose that passes the check of the turtle is at a finite position; of its heading nothing is
kept. -/
theorem isFinite_position {pose : Pose} (h : pose.isFinite) : pose.position.IsFinite := by
  unfold Pose.isFinite at h
  rw [Bool.and_eq_true, Bool.and_eq_true] at h
  exact ⟨h.1.1, h.1.2⟩

/-- Wherever the turtle is or can go back to is finite, and so is what it has
drawn. -/
structure Walk.IsFinite (walk : Walk) : Prop where
  position : walk.pose.position.IsFinite
  saved : ∀ pose ∈ walk.saved, pose.position.IsFinite
  drawing : walk.drawing.IsFinite

/-- A walk starts at the origin with no pose saved and nothing drawn, all of which is finite. -/
theorem Walk.isFinite_start (config : RenderConfig) : (start config).IsFinite := by
  have hzero : (⟨0, 0⟩ : Vec2 Float).IsFinite := ⟨rfl, rfl⟩
  refine ⟨hzero, ?_, ?_, ⟨hzero, hzero⟩⟩
  · intro pose hpose
    exact absurd hpose List.not_mem_nil
  · intro line hline
    exact absurd hline (Array.not_mem_empty line)

/-- One symbol keeps a walk finite. A bracket only moves poses between the turtle and the stack; a
name that draws does so from a finite position to a checked one. -/
theorem Visits.isFinite (h : Visits config spec c walk symbol g next g')
    (hwalk : walk.IsFinite) : next.IsFinite := by
  cases h with
  | push hroom =>
      exact ⟨hwalk.position, List.forall_mem_cons.2 ⟨hwalk.position, hwalk.saved⟩, hwalk.drawing⟩
  | pop hsaved =>
      have hall := hwalk.saved
      rw [hsaved] at hall
      obtain ⟨htop, hrest⟩ := List.forall_mem_cons.1 hall
      exact ⟨htop, hrest, hwalk.drawing⟩
  | named hmoves hfinite =>
      rename_i name pose line
      have hposition := isFinite_position hfinite
      have hcount : walk.count.drawing.IsFinite := ⟨hwalk.drawing.segments, hwalk.drawing.bounds⟩
      cases line with
      | none => exact ⟨hposition, hwalk.saved, hcount⟩
      | some line =>
          have hline := hmoves.isFinite_line hwalk.position hposition
          exact ⟨hposition, hwalk.saved, hcount.addSegment hline⟩

/-- A whole string keeps a walk finite, as each of its symbols does. -/
theorem Follows.isFinite (h : Follows config spec c walk u g last g') (hwalk : walk.IsFinite) :
    last.IsFinite := h.keeps Visits.isFinite hwalk

/-- **Drawings are finite.**  Whatever the specification, the context with its
bindings, functions and generator, and the configuration, a drawing has finite
coordinates, widths and colors alone, and its box finite bounds. -/
theorem isFinite_of_render_eq_ok {d : Drawing Float} (h : render config spec c u = .ok d) :
    d.IsFinite := by
  obtain ⟨last, g, hfollows, rfl⟩ := render_eq_ok_iff.1 h
  exact (hfollows.isFinite (Walk.isFinite_start config)).drawing

/-- Steps to the east, as wide as the turtle has come far. -/
def strides : Specification where
  start := []
  length := .num 1
  width := .num 1
  color := .black
  iterate := .num 1
  rules := #[]
  index := .empty
  transforms := ⟨[("east", .shift (.num 1e300) (.num 0) ⟨.ident "x", .black⟩)]⟩
  definitions := []

/-- The theorem where a variable is bound to infinity, a function answers the NaN and the turtle
sets out with a heading that is no number: what is drawn is finite. -/
theorem strides_finite : ∃ d, render ⟨90, 0 / 0, 8⟩ strides
      (((strides.context (.ofSeed 7)).assign "far" (1 / 0)).defineFunction "lost" fun _ =>
        pure (0 / 0)) [.named "east", .push, .named "east", .pop, .named "east"] = .ok d ∧
    d.IsFinite := by
  have hok : (render ⟨90, 0 / 0, 8⟩ strides
      (((strides.context (.ofSeed 7)).assign "far" (1 / 0)).defineFunction "lost" fun _ =>
        pure (0 / 0)) [.named "east", .push, .named "east", .pop, .named "east"]).isOk = true := by
    decide +kernel
  obtain ⟨d, hd⟩ := exists_of_isOk hok
  exact ⟨d, hd, isFinite_of_render_eq_ok hd⟩

end LSystem
