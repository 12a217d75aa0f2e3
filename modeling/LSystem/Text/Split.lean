/-!
# Parts of texts

Texts are split at every separator, at the last one, or at a place that is
counted in bytes.
-/

namespace LSystem.Text

/-- The rows of a text between the separators. -/
def splitAt (separator : Char) : List Char → List (List Char)
  | [] => [[]]
  | c :: rest =>
    if c = separator then [] :: splitAt separator rest
    else match splitAt separator rest with
      | [] => [[c]]
      | row :: rows => (c :: row) :: rows

/-- A text up to its last separator, with the separator, and the rest. -/
def splitLast (separator : Char) (text : List Char) : List Char × List Char :=
  let reversed := text.reverse
  ((reversed.dropWhile (· != separator)).reverse, (reversed.takeWhile (· != separator)).reverse)

/-- A text up to a byte, and from there on; none if the byte is inside of a
character or beyond the end. -/
def splitByte? : Nat → List Char → Option (List Char × List Char)
  | 0, text => some ([], text)
  | _, [] => none
  | place, c :: rest =>
    if c.utf8Size ≤ place then
      (splitByte? (place - c.utf8Size) rest).map fun parts => (c :: parts.1, parts.2)
    else none

/-- The part of a text from one byte to another. -/
def cut? (text : List Char) (start stop : Nat) : Option (List Char) := do
  let (front, _) ← splitByte? stop text
  let (_, part) ← splitByte? start front
  return part

/-- The part of a text from a byte on. -/
def cutFrom? (text : List Char) (start : Nat) : Option (List Char) :=
  (splitByte? start text).map Prod.snd

/-- The byte where the first of some marks is, or where the text ends, counted
on from `place`, and what the text is from there on. -/
def toMark (marks : List Char) (place : Nat) : List Char → Nat × List Char
  | [] => (place, [])
  | c :: rest =>
    if marks.contains c then (place, c :: rest) else toMark marks (place + c.utf8Size) rest

end LSystem.Text
