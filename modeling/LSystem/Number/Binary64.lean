/-!
# Doubles as whole numbers of quanta

A finite double is a whole number of **quanta** of `2^-1074`, so everything
that has to be exact about doubles is arithmetic on natural numbers here.  The
word of a double, its sign bit removed, is `p * 2^52 + m` where the double is
`m * 2^p` quanta; this reading is the same for subnormal and normal doubles,
because a significand with its leading bit set carries into the exponent
field.

`nearest` goes the other way, from any ratio to the double nearest to it, a
tie going to the even significand.  The whole numbers `floor`, `toCount` and
`nearestNat` are read off the quanta.
-/

namespace LSystem.CorePower

/-- Powers of natural numbers are those of the core library, whatever else is
imported. -/
scoped instance (priority := high) power : Pow Nat Nat := instPowNat

end LSystem.CorePower

namespace LSystem.Number

open scoped CorePower

/-- The number of quanta in one. -/
def quantaPerUnit : Nat := 2 ^ (1074 : Nat)

/-- The word of a double without its sign bit. -/
def magnitudeBits (x : Float) : Nat := x.toBits.toNat % 2 ^ (63 : Nat)

/-- Whether the sign bit is set; so for `-0` too. -/
def isNegative (x : Float) : Bool := 2 ^ (63 : Nat) ≤ x.toBits.toNat

/-- The least word of a magnitude that is not finite. -/
def infinityBits : Nat := 2047 * 2 ^ (52 : Nat)

/-- The shift `p` of the double `m * 2^p` with the given word. -/
def shiftOf (bits : Nat) : Nat := bits / 2 ^ (52 : Nat) - 1

/-- The significand `m` of the double `m * 2^p` with the given word. -/
def significandOf (bits : Nat) : Nat := bits - shiftOf bits * 2 ^ (52 : Nat)

/-- The magnitude of a finite double in quanta. -/
def quantaOf (bits : Nat) : Nat := significandOf bits * 2 ^ shiftOf bits

/-- A finite double in quanta, with its sign.  Both zeros give zero. -/
def quanta (x : Float) : Int :=
  let magnitude : Int := quantaOf (magnitudeBits x)
  if isNegative x then -magnitude else magnitude

/-- The quotient rounded to the nearest whole number, a half to the even one. -/
def roundHalfEven (num den : Nat) : Nat :=
  let whole := num / den
  let twice := 2 * (num % den)
  if twice < den then whole
  else if den < twice then whole + 1
  else whole + whole % 2

/-- The word of the double nearest to `num / den`: the shift leaves 53 binary
digits of the quanta, and rounding up to the next power of two carries into
the shift. -/
def nearestBits (num den : Nat) : Nat :=
  let exact := num * quantaPerUnit
  let shift := Nat.log2 (exact / den) - 52
  min infinityBits (shift * 2 ^ (52 : Nat) + roundHalfEven exact (den * 2 ^ shift))

/-- The double with the given word and sign. -/
def ofMagnitude (negative : Bool) (bits : Nat) : Float :=
  Float.ofBits (UInt64.ofNat (if negative then 2 ^ (63 : Nat) + bits else bits))

/-- The double nearest to `num / den`, infinite beyond the finite range. -/
def nearest (num den : Nat) : Float := ofMagnitude false (nearestBits num den)

/-- The double nearest to a natural number. -/
def ofNat (n : Nat) : Float := nearest n 1

/-- The greatest whole number that does not exceed a finite double. -/
def floor (x : Float) : Int := Int.fdiv (quanta x) quantaPerUnit

/-- The double nearest to a whole number. -/
def ofInt (n : Int) : Float := ofMagnitude (n < 0) (nearestBits n.natAbs 1)

/-- The greatest count that a machine word holds. -/
def maxCount : Nat := 2 ^ (64 : Nat) - 1

/-- A finite double cut to a count of a machine word: what lies below zero
becomes zero and what lies above the greatest count becomes that. -/
def toCount (x : Float) : Nat := min maxCount (floor x).toNat

/-- The natural number nearest to a finite double, a half going up; zero for
what lies below zero. -/
def nearestNat (x : Float) : Nat :=
  (Int.fdiv (2 * quanta x + quantaPerUnit) (2 * quantaPerUnit)).toNat

end LSystem.Number
