import LSystem.Specification.Basic
import LSystem.Eval.Basic
import LSystem.Geometry.Pose

/-!
# Rendering

The symbols of an L-string move the turtle one after the other.  A bracket
saves the pose or takes up the pose saved last; a name moves the turtle by its
motion, which draws a segment unless it is a turn.

The expressions of a motion are evaluated in a context in which `x`, `y`,
`heading` and `depth` tell the pose before the motion and the number of
branches that are open.  Nothing that one symbol binds is left for the next,
only the random draws are.
-/

namespace LSystem

open Syntax Eval Randomness

/-- Why there is no drawing. -/
inductive RenderError where
  | evaluation (cause : EvalError)
  /-- A `]` without a saved pose. -/
  | stackUnderflow (position : Nat)
  /-- A `[` when as many poses are saved as may be. -/
  | stackOverflow (position limit : Nat)
  /-- A motion that took the turtle out of the finite range. -/
  | nonFinitePose (position : Nat)

/-- The message of an error. -/
def RenderError.message : RenderError → String
  | .evaluation cause => cause.message
  | .stackUnderflow position => "Turtle stack underflow at symbol " ++ toString position
  | .stackOverflow position limit =>
    "Turtle stack exceeded maximum depth " ++ toString limit ++
      " at symbol " ++ toString position
  | .nonFinitePose position => "Turtle pose is no longer finite at symbol " ++ toString position

/-- How the turtle starts and what it may do. -/
structure RenderConfig where
  /-- The first heading in degrees. -/
  heading : Float
  /-- What is smaller than this counts as zero. -/
  epsilon : Float
  /-- The most poses that may be saved at a time. -/
  maxDepth : Nat

/-- A turtle that looks up. -/
def RenderConfig.standard : RenderConfig := ⟨90, 1e-10, 4096⟩

/-- What the turtle has done so far. -/
structure Walk where
  pose : Pose
  /-- The saved poses, the last one first. -/
  saved : List Pose
  drawing : Drawing Float

namespace Walk

/-- The walk before the first symbol. -/
def start (config : RenderConfig) : Walk where
  pose := ⟨⟨0, 0⟩, radiansOfDegrees config.heading⟩
  saved := []
  drawing := .empty ⟨0, 0⟩

/-- The number of branches that are open. -/
def depth (walk : Walk) : Nat := walk.saved.length

/-- The context in which the next motion is evaluated. -/
def context (walk : Walk) (c : Context) : Context :=
  (((c.assign "x" walk.pose.position.x).assign "y" walk.pose.position.y).assign
    "heading" walk.pose.heading).assign "depth" (Number.ofNat walk.depth)

/-- The walk with the open branches added to the complexity. -/
def count (walk : Walk) : Walk :=
  { walk with
    drawing := { walk.drawing with complexity := walk.drawing.complexity + walk.depth } }

/-- The walk with the turtle at a new pose. -/
def turnTo (walk : Walk) (pose : Pose) : Walk := { walk with pose }

/-- The walk with the turtle at a new pose and a line to it. -/
def drawTo (walk : Walk) (pose : Pose) (width : Float) (color : Rgb Float) : Walk :=
  { walk with
    pose
    drawing := walk.drawing.addSegment ⟨walk.pose.position, pose.position, width, color⟩ }

end Walk

/-- The value of a color. -/
def evaluateColor (s : Scope) (color : Color) : EvalM (Rgb Float) := do
  let r ← s.evaluate color.r
  let g ← s.evaluate color.g
  let b ← s.evaluate color.b
  return ⟨r, g, b⟩

/-- The width and the color of a line. -/
def evaluateStroke (s : Scope) (stroke : Stroke) : EvalM (Float × Rgb Float) := do
  let width ← s.evaluate stroke.width
  let color ← evaluateColor s stroke.color
  return (width, color)

/-- An angle in radians. -/
def Syntax.AngleUnit.toRadians : AngleUnit → Float → Float
  | .deg, angle => radiansOfDegrees angle
  | .rad, angle => angle

/-- The walk after a motion. -/
def Walk.perform (walk : Walk) (epsilon : Float) (s : Scope) : Motion Stroke → EvalM Walk
  | .rotate angle unit => do
    let angle ← s.evaluate angle
    return walk.turnTo (walk.pose.rotate (unit.toRadians angle) epsilon)
  | .forward distance stroke => do
    let distance ← s.evaluate distance
    let (width, color) ← evaluateStroke s stroke
    return walk.drawTo (walk.pose.advance distance epsilon) width color
  | .shift dx dy stroke => do
    let dx ← s.evaluate dx
    let dy ← s.evaluate dy
    let (width, color) ← evaluateStroke s stroke
    return walk.drawTo (walk.pose.translate ⟨dx, dy⟩ epsilon) width color

/-- The walk after the symbol at a position. -/
def Walk.visit (config : RenderConfig) (spec : Specification) (c : Context) (walk : Walk)
    (position : Nat) : Symbol → RandomM RenderError Walk
  | .push =>
    if config.maxDepth ≤ walk.depth then throw (.stackOverflow position config.maxDepth)
    else return { walk with saved := walk.pose :: walk.saved }
  | .pop =>
    match walk.saved with
    | [] => throw (.stackUnderflow position)
    | pose :: saved => return { walk with pose, saved }
  | .named name => do
    let walk ← (walk.count.perform config.epsilon (walk.context c).scope
      (spec.motion name)).adapt .evaluation
    if walk.pose.isFinite then return walk else throw (.nonFinitePose position)

/-- The walk after symbols, the first of which is at a position. -/
def Walk.follow (config : RenderConfig) (spec : Specification) (c : Context) :
    Nat → List Symbol → Walk → RandomM RenderError Walk
  | _, [], walk => return walk
  | position, symbol :: rest, walk => do
    let walk ← walk.visit config spec c position symbol
    follow config spec c (position + 1) rest walk

/-- The drawing of an L-string.  The draws it takes are not taken from the
context. -/
def render (config : RenderConfig) (spec : Specification) (c : Context) (symbols : List Symbol) :
    Except RenderError (Drawing Float) :=
  ((Walk.follow config spec c 0 symbols (.start config)).run.run c.generator).1.map Walk.drawing

end LSystem
