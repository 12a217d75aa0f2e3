import LSystem.Geometry.Basic

/-!
# The turtle

The turtle has a position and a heading, in radians from the x axis against
the clock.  Every move rounds: a result nearer to zero than `epsilon` becomes
zero, so that a closed path ends where it began.
-/

namespace LSystem

/-- Where the turtle is and which way it looks. -/
structure Pose where
  position : Vec2 Float
  heading : Float

/-- The value, or zero when it is smaller than `epsilon`. -/
def snap (value epsilon : Float) : Float := if value.abs < epsilon then 0 else value

/-- A vector with both parts snapped. -/
def snapVec (v : Vec2 Float) (epsilon : Float) : Vec2 Float :=
  ⟨snap v.x epsilon, snap v.y epsilon⟩

/-- An angle given in degrees. -/
def radiansOfDegrees (degrees : Float) : Float := degrees * 0.017453292519943295

namespace Pose

/-- The unit vector along the heading. -/
def direction (p : Pose) : Vec2 Float := ⟨p.heading.cos, p.heading.sin⟩

/-- The pose turned by an angle. -/
def rotate (p : Pose) (angle epsilon : Float) : Pose :=
  { p with heading := snap (p.heading + angle) epsilon }

/-- The pose moved by an offset. -/
def translate (p : Pose) (offset : Vec2 Float) (epsilon : Float) : Pose :=
  { p with position := snapVec (p.position.add offset) epsilon }

/-- The pose moved along its heading. -/
def advance (p : Pose) (distance epsilon : Float) : Pose :=
  p.translate (snapVec (p.direction.scale distance) epsilon) epsilon

/-- Whether all of the pose is finite. -/
def isFinite (p : Pose) : Bool :=
  p.position.x.isFinite && p.position.y.isFinite && p.heading.isFinite

end Pose

end LSystem
