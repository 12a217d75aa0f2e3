import LSystem.Number.Shortest

/-!
# Numbers as text

A number is written with its shortest digits.  What is left to the text it
stands in, such as where positional notation ends and how an infinity is
spelt, is a `NumberFormat`; `plain` is the format of the language itself and
of everything the library says to a reader.
-/

namespace LSystem.Number

/-- How a kind of text writes its numbers. -/
structure NumberFormat where
  /-- The choice between two equally near shortest decimals. -/
  tie : Tie
  /-- The exponents of the leading digit that are written with a decimal
  point; all of them when absent. -/
  positional : Option (Int × Int)
  /-- Whether a positional whole number ends in `.0`. -/
  pointZero : Bool
  /-- What stands between the digits and an exponent that is not negative. -/
  exponentMark : String
  nan : String
  infinity : String
  negativeInfinity : String

/-- The decimal digits of a natural number. -/
def digitsOf (n : Nat) : List Char := Nat.toDigits 10 n

/-- `digits * 10^k` with a decimal point where one is needed. -/
def pointNotation (pointZero : Bool) (digits : List Char) (k : Int) : List Char :=
  if 0 ≤ k then
    digits ++ List.replicate k.toNat '0' ++ (if pointZero then ['.', '0'] else [])
  else
    let places := (-k).toNat
    if places < digits.length then
      digits.take (digits.length - places) ++ '.' :: digits.drop (digits.length - places)
    else
      '0' :: '.' :: (List.replicate (places - digits.length) '0' ++ digits)

/-- `digits * 10^k` with one digit before the point and an exponent. -/
def exponentNotation (mark : String) (digits : List Char) (k : Int) : List Char :=
  let e := k + digits.length - 1
  let fraction := if digits.length ≤ 1 then [] else '.' :: digits.drop 1
  let sign := if e < 0 then ['e', '-'] else mark.toList
  digits.take 1 ++ fraction ++ sign ++ digitsOf e.natAbs

/-- The text of a decimal without a sign. -/
def NumberFormat.decimal (f : NumberFormat) (x : Decimal) : List Char :=
  let digits := digitsOf x.digits
  let leading := x.exponent + digits.length - 1
  let inRange := match f.positional with
    | none => true
    | some (least, greatest) => least ≤ leading && leading ≤ greatest
  if inRange then pointNotation f.pointZero digits x.exponent
  else exponentNotation f.exponentMark digits x.exponent

/-- The text of a finite magnitude, given as a word without its sign bit. -/
def NumberFormat.magnitude (f : NumberFormat) (bits : Nat) : List Char :=
  if bits = 0 then pointNotation f.pointZero ['0'] 0
  else f.decimal (shortest f.tie (significandOf bits) (shiftOf bits))

/-- The text of a number. -/
def NumberFormat.write (f : NumberFormat) (x : Float) : String :=
  let bits := magnitudeBits x
  if infinityBits < bits then f.nan
  else if bits = infinityBits then
    if isNegative x then f.negativeInfinity else f.infinity
  else
    let sign := if isNegative x then ['-'] else []
    String.ofList (sign ++ f.magnitude bits)

/-- Numbers as the language writes them: the shortest digits, never an
exponent, and no fraction that is zero. -/
def plain : NumberFormat where
  tie := .up
  positional := none
  pointZero := false
  exponentMark := "e"
  nan := "NaN"
  infinity := "inf"
  negativeInfinity := "-inf"

end LSystem.Number
