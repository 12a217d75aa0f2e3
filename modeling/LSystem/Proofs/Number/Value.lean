import LSystem.Proofs.Number.Comparison
import LSystem.Proofs.Number.Nearest

/-!
# The numbers that doubles stand for

A finite double stands for a rational number, and finite doubles compare like these numbers.
The other way, `nearestWord` is the signed word of the double nearest to a number, infinite
beyond the finite range.  It is monotone, and it gives back the word of every finite double;
that is all that bounds on rounded results need.
-/

namespace LSystem.Number

open Float.Model.UnpackedFloat

/-! ### Ratios that are not below zero -/

section Ratios

variable {q r : ℚ} {bits num den : Nat}

/-- The word of the double nearest to a number that is not below zero. -/
def ratioBits (q : ℚ) : Nat := nearestBits q.num.toNat q.den

/-- However large the number is, the word of its nearest double is at most that of infinity. -/
theorem ratioBits_le_infinityBits (q : ℚ) : ratioBits q ≤ infinityBits := Nat.min_le_left _ _

/-- The nearest double has at least a given word exactly when the number reaches that word, which
is the one fact about rounding that the bounds below use. -/
theorem le_ratioBits_iff (hq : 0 ≤ q) (hpos : 0 < bits) (hle : bits ≤ infinityBits) :
    bits ≤ ratioBits q ↔ Reaches bits q := by
  have hnum : ((q.num.toNat : ℤ) : ℚ) = q.num := by
    rw [Int.toNat_of_nonneg (Rat.num_nonneg.2 hq)]
  have hratio : (q.num.toNat : ℚ) / q.den = q := by
    rw [← Int.cast_natCast q.num.toNat, hnum]
    exact Rat.num_div_den q
  rw [ratioBits, le_nearestBits_iff q.den_pos hpos hle, hratio]

/-- Rounding is monotone: what a smaller number reaches, a larger one reaches too, so its nearest
word is no smaller. -/
theorem ratioBits_mono (hq : 0 ≤ q) (hle : q ≤ r) : ratioBits q ≤ ratioBits r := by
  by_cases hzero : ratioBits q = 0
  · omega
  · have hbound := ratioBits_le_infinityBits q
    have hreaches := (le_ratioBits_iff hq (by omega) hbound).1 (le_refl _)
    exact (le_ratioBits_iff (hq.trans hle) (by omega) hbound).2 (hreaches.mono hle)

/-- Rounding leaves a double as it is. Its value is reached by its own word and by no greater
one. -/
theorem ratioBits_valueOf (hle : bits ≤ infinityBits) : ratioBits (valueOf bits) = bits := by
  have hnonneg := valueOf_nonneg bits
  apply Nat.le_antisymm
  · by_cases hzero : ratioBits (valueOf bits) = 0
    · omega
    · have hpos : 0 < ratioBits (valueOf bits) := by omega
      exact (Reaches.valueOf_iff hpos).1
        ((le_ratioBits_iff hnonneg hpos (ratioBits_le_infinityBits _)).1 (le_refl _))
  · rcases Nat.eq_zero_or_pos bits with rfl | hpos
    · exact Nat.zero_le _
    · exact (le_ratioBits_iff hnonneg hpos hle).2 ((Reaches.valueOf_iff hpos).2 (le_refl _))

theorem ratioBits_zero : ratioBits 0 = 0 := by
  have hzero := ratioBits_valueOf (Nat.zero_le infinityBits)
  rwa [valueOf_zero] at hzero

end Ratios

/-! ### Numbers with a sign -/

/-- The signed word of the double nearest to a number. -/
def nearestWord (q : ℚ) : ℤ := if q < 0 then -ratioBits (-q) else ratioBits q

section Signed

variable {q r : ℚ}

/-- On numbers that are not below zero the signed word is the word itself, with no sign to
apply. -/
theorem nearestWord_of_nonneg (hq : 0 ≤ q) : nearestWord q = ratioBits q := if_neg hq.not_gt

/-- Rounding to nearest is symmetric about zero: the opposite of a number is rounded to the
opposite word. -/
theorem nearestWord_neg (q : ℚ) : nearestWord (-q) = -nearestWord q := by
  unfold nearestWord
  rcases lt_trichotomy q 0 with hq | rfl | hq
  · rw [if_pos hq, if_neg (by linarith), neg_neg]
  · rw [neg_zero, if_neg (lt_irrefl 0), ratioBits_zero]
    rfl
  · rw [if_neg hq.not_gt, if_pos (by linarith), neg_neg]

/-- Rounding is monotone over all numbers. Below zero it is the mirror image of what it is above,
and across zero the words have different signs. -/
theorem nearestWord_mono : Monotone nearestWord := by
  intro q r hle
  unfold nearestWord
  by_cases hq : q < 0
  · by_cases hr : r < 0
    · rw [if_pos hq, if_pos hr]
      have hmono := ratioBits_mono (show 0 ≤ -r by linarith) (neg_le_neg hle)
      omega
    · rw [if_pos hq, if_neg hr]
      omega
  · have hmono := ratioBits_mono (not_lt.1 hq) hle
    rw [if_neg hq, if_neg (by linarith)]
    omega

/-- A number with a sign. -/
def signed : Sign → ℚ → ℚ
  | .positive, q => q
  | .negative, q => -q

/-- A number with a sign put on it is rounded by its magnitude, and the sign is put on the word
instead. -/
theorem nearestWord_signed (s : Sign) (hq : 0 ≤ q) :
    nearestWord (signed s q) = s.apply (ratioBits q) := by
  cases s with
  | positive => exact nearestWord_of_nonneg hq
  | negative => rw [signed, nearestWord_neg, nearestWord_of_nonneg hq, Sign.apply]

end Signed

/-! ### Doubles -/

/-- The number that a finite double stands for. -/
def value (x : Float) : ℚ := quanta x / quantaPerUnit

section Doubles

variable {x y z : Float} {q r : ℚ}

/-- A double is a number or an infinity exactly when its magnitude is at most the word of
infinity; the words above that are those of `NaN`. -/
theorem isNumber_iff_le : IsNumber x ↔ magnitudeBits x ≤ infinityBits := by
  have hfields := magnitudeBits_fields x
  have hinfinity : infinityBits = 2047 * 2 ^ 52 := rfl
  have hmantissa : mantissaField (word x) < 2 ^ 52 := Nat.mod_lt _ (by decide)
  have hexponent : exponentField (word x) < 2 ^ 11 := Nat.mod_lt _ (by decide)
  have hstands := stands_unpacked x
  rw [isNumber_iff]
  generalize unpacked x = u at hstands ⊢
  cases hstands with
  | notANumber he hm =>
      simp only [isNaN, Bool.true_eq_false, false_iff]
      omega
  | infinity he hm | zero he hm | subnormal he hm | normal hpos hlt hm =>
      simp only [isNaN, true_iff]
      omega

/-- The finite doubles are the numbers between the infinities. -/
theorem isFinite_iff_signedBits :
    x.isFinite ↔ IsNumber x ∧ -(infinityBits : ℤ) < signedBits x ∧ signedBits x < infinityBits := by
  rw [isFinite_iff, isNumber_iff_le, signedBits]
  split <;> omega

/-- The number a double stands for is that of its magnitude with the sign bit applied, which ties
`value` to the tables about words. -/
theorem value_eq (x : Float) : value x =
    if isNegative x then -valueOf (magnitudeBits x) else valueOf (magnitudeBits x) := by
  unfold value quanta valueOf
  simp only
  split
  · rw [Int.cast_neg, Int.cast_natCast, neg_div]
  · rw [Int.cast_natCast]

/-- The word of a finite double is nearest to what it stands for. -/
theorem nearestWord_value (hx : x.isFinite) : nearestWord (value x) = signedBits x := by
  have hle := Nat.le_of_lt ((isFinite_iff x).1 hx)
  have hword : nearestWord (valueOf (magnitudeBits x)) = magnitudeBits x := by
    rw [nearestWord_of_nonneg (valueOf_nonneg _), ratioBits_valueOf hle]
  rw [value_eq, signedBits]
  split
  · rw [nearestWord_neg, hword]
  · exact hword

/-- Signed words are ordered as the numbers they stand for, so a comparison of doubles is one of
whole numbers. -/
theorem signedBits_lt_iff : signedBits x < signedBits y ↔ value x < value y := by
  have hlt {low high : Nat} : valueOf low < valueOf high ↔ low < high :=
    valueOf_strictMono.lt_iff_lt
  have hzero {bits : Nat} : 0 < valueOf bits ↔ 0 < bits := by rw [← valueOf_zero, hlt]
  have hx := valueOf_nonneg (magnitudeBits x)
  have hy := valueOf_nonneg (magnitudeBits y)
  rw [value_eq, value_eq, signedBits, signedBits]
  split <;> split
  · rw [neg_lt_neg_iff, neg_lt_neg_iff, hlt, Nat.cast_lt]
  · by_cases hboth : 0 < magnitudeBits x ∨ 0 < magnitudeBits y
    · have hpos : 0 < valueOf (magnitudeBits x) ∨ 0 < valueOf (magnitudeBits y) :=
        hboth.imp hzero.2 hzero.2
      refine iff_of_true (by omega) ?_
      rcases hpos with hpos | hpos <;> linarith
    · have hx : magnitudeBits x = 0 := by omega
      have hy : magnitudeBits y = 0 := by omega
      rw [hx, hy, valueOf_zero]
      simp
  · refine iff_of_false (by omega) ?_
    linarith
  · rw [hlt, Nat.cast_lt]

/-- The same for at most: the order of signed words is the order of values, with the two zeros one
word. -/
theorem signedBits_le_iff : signedBits x ≤ signedBits y ↔ value x ≤ value y := by
  rw [← not_lt, signedBits_lt_iff, not_lt]

/-- **Finite doubles compare like what they stand for.** The signed words that they are compared
by are in the order of the values. -/
theorem lt_iff_value (hx : x.isFinite) (hy : y.isFinite) : x < y ↔ value x < value y := by
  rw [lt_iff_signedBits, signedBits_lt_iff]
  exact ⟨fun h => h.2.2, fun h => ⟨.of_isFinite hx, .of_isFinite hy, h⟩⟩

/-- Finite doubles compare like the numbers they stand for, and so every bound on doubles below is
proved in the rationals. -/
theorem le_iff_value (hx : x.isFinite) (hy : y.isFinite) : x ≤ y ↔ value x ≤ value y := by
  rw [le_iff_signedBits, signedBits_le_iff]
  exact ⟨fun h => h.2.2, fun h => ⟨.of_isFinite hx, .of_isFinite hy, h⟩⟩

/-- Comparing doubles is transitive here although `NaN` is a double: a comparison that holds
already says that both sides are numbers. -/
theorem lt_of_le_lt (hxy : x ≤ y) (hyz : y < z) : x < z := by
  obtain ⟨hx, -, hle⟩ := le_iff_signedBits.1 hxy
  obtain ⟨-, hz, hlt⟩ := lt_iff_signedBits.1 hyz
  exact lt_iff_signedBits.2 ⟨hx, hz, hle.trans_lt hlt⟩

/-- The distance of finite doubles is a whole number of quanta. -/
theorem exists_length_eq (hle : value x ≤ value y) :
    ∃ n : Nat, value y - value x = n / quantaPerUnit := by
  have hunit := cast_quantaPerUnit_pos
  have hnonneg : 0 ≤ quanta y - quanta x := by
    unfold value at hle
    rw [div_le_div_iff_of_pos_right hunit, Int.cast_le] at hle
    omega
  refine ⟨(quanta y - quanta x).toNat, ?_⟩
  rw [← Int.cast_natCast (quanta y - quanta x).toNat, Int.toNat_of_nonneg hnonneg,
    Int.cast_sub, sub_div]
  rfl

/-! ### Nearest doubles -/

/-- The double is the one nearest to a number, infinite beyond the finite range. -/
structure IsNearest (z : Float) (q : ℚ) : Prop where
  number : IsNumber z
  word : signedBits z = nearestWord q

namespace IsNearest

/-- A finite double is the nearest to its own value: rounding gives every word back. -/
theorem of_isFinite (hx : x.isFinite) : IsNearest x (value x) :=
  ⟨.of_isFinite hx, (nearestWord_value hx).symm⟩

/-- Rounding is monotone: the double nearest to a smaller number is at most the one nearest to a
larger number. -/
theorem le (hx : IsNearest x q) (hy : IsNearest y r) (hle : q ≤ r) : x ≤ y := by
  rw [le_iff_signedBits, hx.word, hy.word]
  exact ⟨hx.number, hy.number, nearestWord_mono hle⟩

/-- A number that is at most a finite double is rounded to something that is at most this double,
since rounding is monotone and fixes doubles. -/
theorem le_of_le_value (hx : IsNearest x q) (hy : y.isFinite) (hle : q ≤ value y) : x ≤ y :=
  hx.le (.of_isFinite hy) hle

/-- And a number that is at least a finite double is rounded to something that is at least this
double. -/
theorem le_of_value_le (hx : x.isFinite) (hy : IsNearest y q) (hle : value x ≤ q) : x ≤ y :=
  (IsNearest.of_isFinite hx).le hy hle

end IsNearest

/-- What lies between finite doubles is finite. Neither an infinity nor the NaN can be compared in
this way with both ends. -/
theorem isFinite_of_le_of_le (hx : x.isFinite) (hy : y.isFinite) (hlow : x ≤ z) (hhigh : z ≤ y) :
    z.isFinite := by
  obtain ⟨-, hlow', -⟩ := isFinite_iff_signedBits.1 hx
  obtain ⟨-, -, hhigh'⟩ := isFinite_iff_signedBits.1 hy
  obtain ⟨-, hz, hle⟩ := le_iff_signedBits.1 hlow
  obtain ⟨-, -, hle'⟩ := le_iff_signedBits.1 hhigh
  exact isFinite_iff_signedBits.2 ⟨hz, by omega, by omega⟩

end Doubles

end LSystem.Number
