import LSystem.Proofs.Rendering.Hull
import LSystem.Proofs.Rendering.Trail

/-!
# No residue

A coordinate that has been snapped is not smaller than epsilon, unless it is zero, and then it
is the zero without a sign.  Every position of the turtle is snapped: it starts at the origin,
a move snaps what it adds up to, a turn leaves the position and a bracket copies it.  The ends
of lines are such positions, and the sides of the box are coordinates of such ends.
-/

namespace LSystem

open Syntax Eval Randomness Number

/-- Nothing smaller than epsilon but zero itself, without a sign. -/
def Snapped (epsilon x : Float) : Prop := x.abs < epsilon → x = 0

variable {epsilon : Float}

/-- The origin of the turtle is snapped: its coordinates are the zero without a sign. -/
theorem snapped_zero : Snapped epsilon 0 := fun _ => rfl

/-- What has been snapped is snapped: a value below epsilon was replaced by zero, and any other is
not below epsilon. -/
theorem snapped_snap (value : Float) : Snapped epsilon (snap value epsilon) := by
  unfold snap
  split
  · exact snapped_zero
  · rename_i hlarge
    exact fun hsmall => absurd hsmall hlarge

/-- A vector is snapped in each of its coordinates, so both parts of the result are. -/
theorem snapped_snapVec (v : Vec2 Float) : (snapVec v epsilon).Has (Snapped epsilon) :=
  ⟨snapped_snap v.x, snapped_snap v.y⟩

/-- What is snapped is zero or not smaller than epsilon. -/
theorem Snapped.eq_zero_or_le {x : Float} (h : Snapped epsilon x) (hx : x.isFinite)
    (hepsilon : IsNumber epsilon) : x = 0 ∨ epsilon ≤ x.abs := by
  by_cases hsmall : x.abs < epsilon
  · exact .inl (h hsmall)
  · exact .inr (compares_float.of_not_lt (.of_isFinite (isFinite_abs hx)) hepsilon hsmall)

/-- What is snapped and equal to zero has no sign. -/
theorem Snapped.eq_zero_of_beq {x : Float} (h : Snapped epsilon x) (hepsilon : 0 < epsilon)
    (hx : x == 0) : x = 0 := h (abs_lt_of_beq_zero hx hepsilon)

/-! ### Walks -/

variable {config : RenderConfig} {spec : Specification} {c : Context} {walk next last : Walk}
  {g g' : Generator} {symbol : Symbol} {u : List Symbol}

/-- A motion leaves the turtle where it is or at a snapped position. -/
theorem Moves.snapped {s : Scope} {pose moved : Pose} {motion : Motion Stroke}
    {line : Option (Segment Float)} (h : Moves epsilon s pose motion g moved line g')
    (hpose : pose.position.Has (Snapped epsilon)) : moved.position.Has (Snapped epsilon) := by
  cases h with
  | turn hangle => exact hpose
  | advance hdistance hstroke => exact snapped_snapVec _
  | shift hx hy hstroke => exact snapped_snapVec _

/-- Wherever the turtle is or can go back to is snapped, and so are the ends of what it has
drawn. -/
structure Walk.Snapped (epsilon : Float) (walk : Walk) : Prop where
  position : walk.pose.position.Has (LSystem.Snapped epsilon)
  saved : ∀ pose ∈ walk.saved, pose.position.Has (LSystem.Snapped epsilon)
  ends : ∀ p ∈ Segment.ends walk.drawing.segments.toList, p.Has (LSystem.Snapped epsilon)

/-- A walk starts at the origin with nothing saved and nothing drawn, so nothing unsnapped is
there yet. -/
theorem Walk.snapped_start (config : RenderConfig) : (start config).Snapped epsilon := by
  refine ⟨⟨snapped_zero, snapped_zero⟩, ?_, ?_⟩
  · exact fun pose hpose => absurd hpose List.not_mem_nil
  · exact fun p hp => absurd hp List.not_mem_nil

/-- One symbol keeps a walk snapped: a move snaps what it adds up to, a turn leaves the position
alone and a bracket copies it. -/
theorem Visits.snapped (h : Visits config spec c walk symbol g next g')
    (hwalk : walk.Snapped config.epsilon) : next.Snapped config.epsilon := by
  cases h with
  | push hroom =>
      exact ⟨hwalk.position, List.forall_mem_cons.2 ⟨hwalk.position, hwalk.saved⟩, hwalk.ends⟩
  | pop hsaved =>
      have hall := hwalk.saved
      rw [hsaved] at hall
      obtain ⟨htop, hrest⟩ := List.forall_mem_cons.1 hall
      exact ⟨htop, hrest, hwalk.ends⟩
  | named hmoves hfinite =>
      rename_i name pose line
      have hpose := hmoves.snapped hwalk.position
      rcases hmoves.position_cases with ⟨rfl, -⟩ | ⟨line, rfl, hstart, hfinish⟩
      · exact ⟨hpose, hwalk.saved, hwalk.ends⟩
      · refine ⟨hpose, hwalk.saved, ?_⟩
        have hsegments : (walk.count.moveTo pose (some line)).drawing.segments.toList =
            walk.drawing.segments.toList ++ [line] := Array.toList_push ..
        rw [hsegments, Segment.ends, List.flatMap_append, List.forall_mem_append]
        refine ⟨hwalk.ends, ?_⟩
        rw [List.flatMap_singleton, List.forall_mem_cons, List.forall_mem_singleton, hstart,
          hfinish]
        exact ⟨hwalk.position, hpose⟩

/-- A whole string keeps a walk snapped, as each of its symbols does. -/
theorem Follows.snapped (h : Follows config spec c walk u g last g')
    (hwalk : walk.Snapped config.epsilon) : last.Snapped config.epsilon :=
  h.keeps Visits.snapped hwalk

/-! ### Drawings -/

/-- The coordinates of the corners of the box and of the ends of all lines. -/
def Drawing.coordinates (d : Drawing Float) : List Float :=
  (d.bounds.min :: d.bounds.max :: Segment.ends d.segments.toList).flatMap fun p => [p.x, p.y]

/-- What holds of the coordinates of all points holds of the corners of their hull. -/
theorem BoundingBox.IsHull.corners {box : BoundingBox Float} {points : List (Vec2 Float)}
    {P : Float → Prop} (h : box.IsHull IsNumber points) (hpoints : ∀ p ∈ points, p.Has P) :
    box.min.Has P ∧ box.max.Has P := by
  have hx : ∀ x ∈ points.map Vec2.x, P x := List.forall_mem_map.2 fun p hp => (hpoints p hp).x
  have hy : ∀ y ∈ points.map Vec2.y, P y := List.forall_mem_map.2 fun p hp => (hpoints p hp).y
  exact ⟨⟨hx _ h.left.mem, hy _ h.bottom.mem⟩, ⟨hx _ h.right.mem, hy _ h.top.mem⟩⟩

/-- **No residue is left in a drawing.**  When epsilon is above zero, every coordinate of a corner
of the box or of an end of a line is zero or at least epsilon in magnitude, and a coordinate
that equals zero is the zero without a sign. -/
theorem coordinates_snapped {d : Drawing Float} (hepsilon : 0 < config.epsilon)
    (h : render config spec c u = .ok d) :
    ∀ x ∈ d.coordinates, (x = 0 ∨ config.epsilon ≤ x.abs) ∧ (x == 0 → x = 0) := by
  obtain ⟨last, g, hfollows, rfl⟩ := render_eq_ok_iff.1 h
  obtain ⟨hfinite, hbounds⟩ := hfollows.bounds_eq
  have hhull := isHull_of_finite_ends ⟨0, 0⟩ hfinite
  rw [← hbounds] at hhull
  -- what is asked of a coordinate holds of the origin and of all ends, so of the corners too
  have hpoints : ∀ p ∈ (⟨0, 0⟩ : Vec2 Float) :: Segment.ends last.drawing.segments.toList,
      p.Has fun x => x.isFinite ∧ Snapped config.epsilon x := by
    have hsnapped := (hfollows.snapped (Walk.snapped_start config)).ends
    refine List.forall_mem_cons.2 ⟨⟨⟨rfl, snapped_zero⟩, ⟨rfl, snapped_zero⟩⟩, fun p hp => ?_⟩
    exact ⟨⟨(hfinite p hp).x, (hsnapped p hp).x⟩, ⟨(hfinite p hp).y, (hsnapped p hp).y⟩⟩
  obtain ⟨hmin, hmax⟩ := hhull.corners hpoints
  obtain ⟨-, hnumber, -⟩ := lt_iff_signedBits.1 hepsilon
  intro x hx
  obtain ⟨p, hp, hcoordinate⟩ := List.mem_flatMap.1 hx
  have hboth : p.Has fun x => x.isFinite ∧ Snapped config.epsilon x := by
    rcases List.mem_cons.1 hp with rfl | hp
    · exact hmin
    · rcases List.mem_cons.1 hp with rfl | hp
      · exact hmax
      · exact hpoints p (List.mem_cons_of_mem _ hp)
  obtain ⟨hxfinite, hsnapped⟩ : x.isFinite ∧ Snapped config.epsilon x := by
    rcases List.mem_pair.1 hcoordinate with rfl | rfl
    · exact hboth.x
    · exact hboth.y
  exact ⟨hsnapped.eq_zero_or_le hxfinite hnumber, hsnapped.eq_zero_of_beq hepsilon⟩

/-- A step and a step and both of them back, which rounding does not bring quite to zero. -/
def roundTrip : Specification where
  start := []
  length := .num 1
  width := .num 1
  color := .black
  iterate := .num 1
  rules := #[]
  index := .empty
  transforms := ⟨[("short", .shift (.num 0.1) (.num 0) ⟨.num 1, .black⟩),
    ("long", .shift (.num 0.2) (.num 0) ⟨.num 1, .black⟩),
    ("home", .shift (.num (-0.3)) (.num (-0.0)) ⟨.num 1, .black⟩)]⟩
  definitions := []

/-- The theorem at a turtle that comes back to where it started only up to rounding: no coordinate
of the drawing shows the residue. -/
theorem roundTrip_snapped : ∃ d, 0 < RenderConfig.standard.epsilon ∧
    render .standard roundTrip (roundTrip.context (.ofSeed 7))
      [.named "short", .push, .named "long", .named "home", .pop] = .ok d ∧
    ∀ x ∈ d.coordinates, (x = 0 ∨ RenderConfig.standard.epsilon ≤ x.abs) ∧ (x == 0 → x = 0) := by
  have hok : (render .standard roundTrip (roundTrip.context (.ofSeed 7))
      [.named "short", .push, .named "long", .named "home", .pop]).isOk = true := by
    decide +kernel
  obtain ⟨d, hd⟩ := exists_of_isOk hok
  have hpos : 0 < RenderConfig.standard.epsilon := by decide +kernel
  exact ⟨d, hpos, hd, coordinates_snapped hpos hd⟩

end LSystem
