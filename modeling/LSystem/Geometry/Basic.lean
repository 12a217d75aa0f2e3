/-!
# Drawings

A drawing is the segments that were drawn, in order, and the box around them.
The box starts at a point and grows to hold both ends of every segment.

The scalars are a parameter, so that what holds for exact numbers can be said
of the same definitions that run on doubles.
-/

namespace LSystem

/-- A point or an offset of the plane. -/
structure Vec2 (α : Type) where
  x : α
  y : α
  deriving DecidableEq, Repr

/-- The sum of two vectors. -/
def Vec2.add {α : Type} [Add α] (v w : Vec2 α) : Vec2 α := ⟨v.x + w.x, v.y + w.y⟩

/-- A vector stretched by a factor. -/
def Vec2.scale {α : Type} [Mul α] (v : Vec2 α) (factor : α) : Vec2 α :=
  ⟨v.x * factor, v.y * factor⟩

/-- A color by its red, green and blue parts, between 0 and 255 by intention. -/
structure Rgb (α : Type) where
  r : α
  g : α
  b : α
  deriving DecidableEq, Repr

/-- A box with sides along the axes, by its least and its greatest corner. -/
structure BoundingBox (α : Type) where
  min : Vec2 α
  max : Vec2 α
  deriving DecidableEq, Repr

namespace BoundingBox

variable {α : Type}

/-- The box of one point. -/
def ofPoint (point : Vec2 α) : BoundingBox α := ⟨point, point⟩

/-- The old bound, or a value that is below it or cannot be compared to it. -/
def lower [LT α] [DecidableLT α] (bound value : α) : α := if bound < value then bound else value

/-- The old bound, or a value that is above it or cannot be compared to it. -/
def upper [LT α] [DecidableLT α] (bound value : α) : α := if value < bound then bound else value

/-- The box grown to hold a point. -/
def cover [LT α] [DecidableLT α] (box : BoundingBox α) (point : Vec2 α) : BoundingBox α :=
  ⟨⟨lower box.min.x point.x, lower box.min.y point.y⟩,
   ⟨upper box.max.x point.x, upper box.max.y point.y⟩⟩

/-- Whether a point lies in the box, its sides included. -/
def contains [LE α] [DecidableLE α] (box : BoundingBox α) (point : Vec2 α) : Bool :=
  box.min.x ≤ point.x && box.min.y ≤ point.y && point.x ≤ box.max.x && point.y ≤ box.max.y

/-- Width and height. -/
def size [Sub α] (box : BoundingBox α) : Vec2 α :=
  ⟨box.max.x - box.min.x, box.max.y - box.min.y⟩

end BoundingBox

/-- One line with its look. -/
structure Segment (α : Type) where
  start : Vec2 α
  finish : Vec2 α
  width : α
  color : Rgb α
  deriving DecidableEq, Repr

/-- What was drawn. -/
structure Drawing (α : Type) where
  segments : Array (Segment α)
  bounds : BoundingBox α
  /-- The sum, over all motions, of the number of branches that were open. -/
  complexity : Nat

namespace Drawing

variable {α : Type}

/-- Nothing drawn, with the box at a point. -/
def empty (origin : Vec2 α) : Drawing α := ⟨#[], .ofPoint origin, 0⟩

/-- The drawing with one more segment. -/
def addSegment [LT α] [DecidableLT α] (d : Drawing α) (segment : Segment α) : Drawing α where
  segments := d.segments.push segment
  bounds := (d.bounds.cover segment.start).cover segment.finish
  complexity := d.complexity

end Drawing

end LSystem
