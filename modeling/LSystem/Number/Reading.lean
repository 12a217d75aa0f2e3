import LSystem.Number.Binary64

/-!
# Text as numbers

A numeral is read as the double nearest to its value.  `readNumeral` reads the
numerals of the language, digits with at most one point; `readNumber?` reads
the wider form that command lines use, with a sign, an exponent and the names
of the values that are not finite.  `readCount?` reads whole numbers as they
are.
-/

namespace LSystem.Number

open scoped CorePower

/-- The digit that a character stands for. -/
def digitValue (c : Char) : Nat := c.toNat - '0'.toNat

/-- The value of a row of digits. -/
def digitsValue (digits : List Char) : Nat :=
  digits.foldl (fun value c => 10 * value + digitValue c) 0

/-- A count that fits a machine word: digits, with a plus sign or without. -/
def readCount? (text : String) : Option Nat :=
  let digits := match text.toList with
    | '+' :: rest => rest
    | rest => rest
  if digits.isEmpty || !digits.all Char.isDigit then none
  else if digitsValue digits ≤ maxCount then some (digitsValue digits)
  else none

/-- The part of a numeral before the first point and the part after it. -/
def splitPoint (text : List Char) : List Char × List Char :=
  (text.takeWhile (· != '.'), (text.dropWhile (· != '.')).drop 1)

/-- The double nearest to a numeral of digits and at most one point. -/
def readNumeral (text : List Char) : Float :=
  let (whole, fraction) := splitPoint text
  nearest (digitsValue (whole ++ fraction)) (10 ^ fraction.length)

/-- The word of the double nearest to `digits * 10^exponent`.  Exponents far
outside the range of doubles are settled by the number of digits alone. -/
def scaledBits (digits : Nat) (exponent : Int) : Nat :=
  let leading := exponent + (Nat.toDigits 10 digits).length
  if digits = 0 ∨ leading < -400 then 0
  else if 400 < leading then infinityBits
  else nearestBits (digits * 10 ^ exponent.toNat) (10 ^ (-exponent).toNat)

/-- A row of one or more digits with an optional sign. -/
def readExponent? (text : List Char) : Option Int :=
  let (negative, digits) := match text with
    | '-' :: rest => (true, rest)
    | '+' :: rest => (false, rest)
    | rest => (false, rest)
  if digits.isEmpty || !digits.all Char.isDigit then none
  else some (if negative then -(digitsValue digits : Int) else digitsValue digits)

/-- The magnitude written by digits, at most one point with a digit on one
side of it, and an optional exponent. -/
def readMagnitude? (text : List Char) : Option Nat :=
  let isMark := fun c => c == 'e' || c == 'E'
  let mantissa := text.takeWhile (fun c => !isMark c)
  let (whole, fraction) := splitPoint mantissa
  let exponent? := match text.dropWhile (fun c => !isMark c) with
    | [] => some 0
    | _ :: rest => readExponent? rest
  if (whole ++ fraction).isEmpty || !(whole ++ fraction).all Char.isDigit then none
  else exponent?.map fun e =>
    scaledBits (digitsValue (whole ++ fraction)) (e - fraction.length)

/-- The number that a text writes: a sign, then a magnitude or, in letters of
either case, one of `inf`, `infinity` and `nan`. -/
def readNumber? (text : String) : Option Float :=
  let (negative, rest) := match text.toList with
    | '-' :: rest => (true, rest)
    | '+' :: rest => (false, rest)
    | rest => (false, rest)
  let word := rest.map Char.toLower
  if word = "inf".toList ∨ word = "infinity".toList then
    some (ofMagnitude negative infinityBits)
  else if word = "nan".toList then some (0.0 / 0.0)
  else (readMagnitude? rest).map (ofMagnitude negative)

end LSystem.Number
