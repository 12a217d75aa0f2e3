import LSystem.Text.Alphanumeric
import LSystem.Text.Blank

/-!
# Pieces of patterns

A pattern is a regular expression.  Which texts are patterns depends on flags
that the pattern itself turns on and off: whether blanks count, whether the
case of letters does, and whether it speaks of characters or of bytes.

There are no tables of classes or of cases past ASCII.  A pattern that speaks
of characters can therefore neither name a class nor leave the case open, and
a pattern that speaks of bytes must not reach past ASCII by its form, because
the texts that it is for hold characters only.
-/

namespace LSystem.Pattern

open Text

/-- The flags in force at a place of a pattern. -/
structure Mode where
  /-- Whether the case of letters is left open. -/
  anyCase : Bool
  /-- Whether the pattern speaks of characters, and not of bytes. -/
  unicode : Bool
  /-- Whether blanks and comments mean nothing. -/
  spaced : Bool
  deriving DecidableEq, Repr

/-- The flags at the start of a pattern. -/
def Mode.standard : Mode := ⟨false, true, false⟩

/-- A text without the blanks and comments in front of it.  A comment runs from
`#` to the end of its line. -/
def skipComments (inComment : Bool) : List Char → List Char
  | [] => []
  | c :: rest =>
    if inComment then skipComments (c != '\n') rest
    else if isBlank c then skipComments false rest
    else if c == '#' then skipComments true rest
    else c :: rest

/-- A text without what means nothing in front of it. -/
def Mode.skip (m : Mode) (text : List Char) : List Char :=
  if m.spaced then skipComments false text else text

/-- A character that stands for itself, or that an escape stands for. -/
structure Literal where
  char : Char
  /-- Whether it is written as a byte, by two hexadecimal digits. -/
  isByte : Bool
  deriving DecidableEq, Repr

/-- Whether a literal can stand in a sequence. -/
def Mode.allows (m : Mode) (l : Literal) : Bool :=
  if m.unicode then !m.anyCase else !l.isByte || l.char.toNat ≤ 0x7f

/-- Whether a literal can stand in a set. -/
def Mode.allowsInSet (m : Mode) (l : Literal) : Bool :=
  if m.unicode then !m.anyCase else l.char.toNat ≤ 0x7f

/-- What an escape stands for. -/
inductive Escape where
  | literal (l : Literal)
  /-- A class of characters. -/
  | shorthand
  /-- A condition on the place alone. -/
  | anchor
  deriving DecidableEq, Repr

/-- Whether an escape of a character stands for the character.  Letters and
digits are kept for other meanings, and so are the marks of word ends. -/
def isEscapable (c : Char) : Bool :=
  c.toNat < 0x80 && !c.isAlphanum && c != '<' && c != '>'

/-- The character that a letter in an escape stands for. -/
def controlCharacter? : Char → Option Char
  | 'a' => some '\x07'
  | 'f' => some '\x0c'
  | 'n' => some '\n'
  | 'r' => some '\r'
  | 't' => some '\t'
  | 'v' => some '\x0b'
  | _ => none

/-- The number of hexadecimal digits after a letter in an escape. -/
def digitCount? : Char → Option Nat
  | 'x' => some 2
  | 'u' => some 4
  | 'U' => some 8
  | _ => none

/-- The value of a hexadecimal digit. -/
def hexDigit? (c : Char) : Option Nat :=
  if c.isDigit then some (c.toNat - '0'.toNat)
  else if 'a' ≤ c ∧ c ≤ 'f' then some (c.toNat - 'a'.toNat + 10)
  else if 'A' ≤ c ∧ c ≤ 'F' then some (c.toNat - 'A'.toNat + 10)
  else none

/-- The number that some more hexadecimal digits make of a number, and the rest
of the text. -/
def readHex? (m : Mode) : (digits number : Nat) → List Char → Option (Nat × List Char)
  | 0, number, text => some (number, text)
  | _ + 1, _, [] => none
  | digits + 1, number, c :: rest => do
    let digit ← hexDigit? c
    readHex? m digits (16 * number + digit) (m.skip rest)

/-- An escape, which the text after the backslash starts with, if it has a
meaning.  Classes and the ends of words have one for bytes alone. -/
def readEscape? (m : Mode) : List Char → Option (Escape × List Char)
  | [] => none
  | c :: rest =>
    match digitCount? c, controlCharacter? c with
    | some digits, _ => do
      let (code, rest) ← readHex? m digits 0 (m.skip rest)
      if code.isValidChar then return (.literal ⟨Char.ofNat code, c == 'x'⟩, rest) else none
    | none, some control => some (.literal ⟨control, false⟩, rest)
    | none, none =>
      if isEscapable c then some (.literal ⟨c, false⟩, rest)
      else if ['A', 'z'].contains c then some (.anchor, rest)
      else if m.unicode then none
      else if ['b', 'B', '<', '>'].contains c then some (.anchor, rest)
      else if ['d', 's', 'w'].contains c then some (.shorthand, rest)
      else none

/-- The height of a tree above some others: one that stands alone needs no tree
above it. -/
def jointHeight : List Nat → Nat
  | [] => 0
  | [height] => height
  | heights => 1 + heights.foldl max 0

end LSystem.Pattern
