import LSystem.Geometry.Basic
import LSystem.Number.Format

/-!
# Drawings as JSON

A drawing is an object of its segments, its bounds and its complexity.  It is
written with one value on a line, two blanks to a level.  Numbers keep a digit
after the point, and take an exponent when they are very large or very small;
what JSON has no number for is `null`.
-/

namespace LSystem

/-- A JSON text before it is laid out in lines. -/
inductive JsonText where
  /-- A value on one line. -/
  | leaf (text : String)
  /-- A value under a name. -/
  | field (name : String) (value : JsonText)
  /-- Values or fields between two brackets. -/
  | block (opening closing : String) (items : List JsonText)

namespace JsonText

/-- Numbers in JSON. -/
def numberFormat : Number.NumberFormat where
  tie := .even
  positional := some (-5, 15)
  pointZero := true
  exponentMark := "e+"
  nan := "null"
  infinity := "null"
  negativeInfinity := "null"

/-- A number. -/
def number (x : Float) : JsonText := .leaf (numberFormat.write x)

/-- A count. -/
def count (n : Nat) : JsonText := .leaf (toString n)

/-- An array. -/
def array (items : List JsonText) : JsonText := .block "[" "]" items

/-- An object of named values. -/
def object (fields : List (String × JsonText)) : JsonText :=
  .block "\x7b" "\x7d" (fields.map fun (name, value) => .field name value)

/-- A new line at a level. -/
def newline (level : Nat) : String := String.ofList ('\n' :: List.replicate (2 * level) ' ')

mutual

/-- A text with a value appended that stands at a level. -/
def appendTo (level : Nat) (text : String) : JsonText → String
  | .leaf content => text ++ content
  | .field name value => value.appendTo level (text ++ "\"" ++ name ++ "\": ")
  | .block opening closing [] => text ++ opening ++ closing
  | .block opening closing (item :: items) =>
    appendItems (level + 1)
      (item.appendTo (level + 1) (text ++ opening ++ newline (level + 1))) items ++
      newline level ++ closing

/-- A text with the items appended that follow another item. -/
def appendItems (level : Nat) (text : String) : List JsonText → String
  | [] => text
  | item :: items =>
    appendItems level (item.appendTo level (text ++ "," ++ newline level)) items

end

/-- The text of a value, in lines. -/
def pretty (value : JsonText) : String := value.appendTo 0 ""

end JsonText

/-- A vector as an array of two numbers. -/
def Vec2.toJson (v : Vec2 Float) : JsonText := .array [.number v.x, .number v.y]

/-- A color as an object of its parts. -/
def Rgb.toJson (c : Rgb Float) : JsonText :=
  .object [("r", .number c.r), ("g", .number c.g), ("b", .number c.b)]

/-- A segment as an object. -/
def Segment.toJson (s : Segment Float) : JsonText :=
  .object [("start", s.start.toJson), ("end", s.finish.toJson), ("width", .number s.width),
    ("color", s.color.toJson)]

/-- A box as an object of its corners. -/
def BoundingBox.toJson (box : BoundingBox Float) : JsonText :=
  .object [("min", box.min.toJson), ("max", box.max.toJson)]

/-- A drawing as an object. -/
def Drawing.toJson (d : Drawing Float) : JsonText :=
  .object [("segments", .array (d.segments.toList.map Segment.toJson)),
    ("bounds", d.bounds.toJson), ("complexity_rating", .count d.complexity)]

/-- The JSON text of a drawing. -/
def Drawing.json (d : Drawing Float) : String := d.toJson.pretty

end LSystem
