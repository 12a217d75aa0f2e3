import LSystem.Geometry.Basic
import LSystem.Number.Format

/-!
# Drawings as SVG

The canvas is the box of the drawing, scaled, with a margin on every side.
Its y axis points down, so heights are measured from the upper side of the
box.  `Canvas` is the picture as numbers, for any scalars; `Canvas.text` is the
document.
-/

namespace LSystem

/-- How a drawing is laid out on a canvas. -/
structure SvgConfig (α : Type) where
  /-- Pixels per unit of the drawing. -/
  scale : α
  /-- A line is as wide as its segment, scaled and divided by this. -/
  lineWidthFactor : α
  /-- The border around the drawing, in pixels. -/
  margin : α
  deriving DecidableEq, Repr

/-- The layout unless a run says otherwise. -/
def SvgConfig.standard : SvgConfig Float := ⟨50, 40, 5⟩

/-- A line on a canvas. -/
structure CanvasLine (α : Type) where
  start : Vec2 α
  finish : Vec2 α
  /-- Each part is at most 255. -/
  color : Rgb Nat
  width : α
  deriving DecidableEq, Repr

/-- A picture: its size and its lines. -/
structure Canvas (α : Type) where
  size : Vec2 α
  lines : List (CanvasLine α)
  deriving DecidableEq, Repr

section Layout

variable {α : Type} [Add α] [Sub α] [Mul α] [Div α] [LT α] [DecidableLT α]
  [OfNat α 0] [OfNat α 2] [OfNat α 255]

/-- A part of a color as a whole number up to 255, by a rounding that need
only be right between 0 and 255. -/
def channel (round : α → Nat) (value : α) : Nat :=
  if 0 < value then
    if value < 255 then round value else 255
  else 0

/-- The place of a point on the canvas. -/
def SvgConfig.place (config : SvgConfig α) (box : BoundingBox α) (p : Vec2 α) : Vec2 α :=
  ⟨config.margin + (p.x - box.min.x) * config.scale,
   config.margin + (box.max.y - p.y) * config.scale⟩

/-- The size of the canvas around a box. -/
def SvgConfig.canvasSize (config : SvgConfig α) (box : BoundingBox α) : Vec2 α :=
  (box.size.scale config.scale).add ⟨2 * config.margin, 2 * config.margin⟩

/-- The line of a segment. -/
def SvgConfig.line (config : SvgConfig α) (round : α → Nat) (box : BoundingBox α)
    (segment : Segment α) : CanvasLine α where
  start := config.place box segment.start
  finish := config.place box segment.finish
  color := ⟨channel round segment.color.r, channel round segment.color.g,
    channel round segment.color.b⟩
  width := segment.width * config.scale / config.lineWidthFactor

/-- The picture of a drawing. -/
def SvgConfig.canvas (config : SvgConfig α) (round : α → Nat) (d : Drawing α) : Canvas α where
  size := config.canvasSize d.bounds
  lines := d.segments.toList.map (config.line round d.bounds)

end Layout

/-- The text of a number in a document. -/
def svgNumber (x : Float) : String := Number.plain.write x

/-- The text of a color in a document. -/
def svgColor (color : Rgb Nat) : String :=
  "rgb(" ++ toString color.r ++ "," ++ toString color.g ++ "," ++ toString color.b ++ ")"

/-- The element of a line. -/
def CanvasLine.text (line : CanvasLine Float) : String :=
  "<line x1=\"" ++ svgNumber line.start.x ++ "\" y1=\"" ++ svgNumber line.start.y ++
    "\" x2=\"" ++ svgNumber line.finish.x ++ "\" y2=\"" ++ svgNumber line.finish.y ++
    "\" stroke=\"" ++ svgColor line.color ++ "\" stroke-width=\"" ++ svgNumber line.width ++
    "\" stroke-linecap=\"round\"/>\n"

/-- The document of a picture. -/
def Canvas.text (canvas : Canvas Float) : String :=
  let width := svgNumber canvas.size.x
  let height := svgNumber canvas.size.y
  canvas.lines.foldl (fun text line => text ++ line.text)
    ("<svg xmlns=\"http://www.w3.org/2000/svg\" width=\"" ++ width ++ "\" height=\"" ++ height ++
      "\" viewBox=\"0 0 " ++ width ++ " " ++ height ++ "\">\n") ++ "</svg>\n"

/-- The document of a drawing. -/
def Drawing.svg (config : SvgConfig Float) (d : Drawing Float) : String :=
  (config.canvas Number.nearestNat d).text

end LSystem
