import LSystem.Number.Format
import LSystem.Number.Reading
import LSystem.Proofs.Number.Rounding
import LSystem.Proofs.Number.Word
import Mathlib.Data.List.TakeWhile

/-!
# Written numbers read back

A finite double without a sign is written as digits, or as digits with a point
and digits after it.  Either form is read as the double that was written: the
digits are those of a decimal that rounds to it.
-/

namespace LSystem.Number

/-! ### Numerals -/

/-- Digits, or digits with a point and digits after it. -/
inductive IsNumeral : List Char → Prop
  | whole {digits : List Char} (hne : digits ≠ []) (hdigits : ∀ c ∈ digits, c.isDigit) :
      IsNumeral digits
  | fraction {digits places : List Char} (hne : digits ≠ []) (hdigits : ∀ c ∈ digits, c.isDigit)
      (hne' : places ≠ []) (hplaces : ∀ c ∈ places, c.isDigit) :
      IsNumeral (digits ++ '.' :: places)

section Reading

variable {digits places : List Char}

theorem ne_point_of_isDigit {c : Char} (h : c.isDigit) : (c != '.') = true := by
  rw [bne_iff_ne]
  intro h
  subst h
  exact absurd h (by decide)

/-- Digits without a point are all in front of it. -/
theorem splitPoint_whole (hdigits : ∀ c ∈ digits, c.isDigit) :
    splitPoint digits = (digits, []) := by
  have hpoint : ∀ c ∈ digits, (c != '.') = true := fun c hc => ne_point_of_isDigit (hdigits c hc)
  have htake : digits.takeWhile (· != '.') = digits := List.takeWhile_eq_self_iff.2 hpoint
  have hdrop : digits.dropWhile (· != '.') = [] := List.dropWhile_eq_nil_iff.2 hpoint
  rw [splitPoint, htake, hdrop]
  rfl

/-- Digits with a point are split there, and the point is left out. -/
theorem splitPoint_fraction (hdigits : ∀ c ∈ digits, c.isDigit) :
    splitPoint (digits ++ '.' :: places) = (digits, places) := by
  have hpoint : ∀ c ∈ digits, (c != '.') = true := fun c hc => ne_point_of_isDigit (hdigits c hc)
  rw [splitPoint, List.takeWhile_append_of_pos hpoint, List.dropWhile_append_of_pos hpoint]
  simp

/-- Digits are read as the double nearest to the number that they spell. -/
theorem readNumeral_whole (hdigits : ∀ c ∈ digits, c.isDigit) :
    readNumeral digits = nearest (digitsValue digits) 1 := by
  simp [readNumeral, splitPoint_whole hdigits]

/-- Digits with a point are read as the double nearest to the number that all of them spell, over
a power of ten for each digit behind the point. -/
theorem readNumeral_fraction (hdigits : ∀ c ∈ digits, c.isDigit) :
    readNumeral (digits ++ '.' :: places) =
      nearest (digitsValue (digits ++ places)) (10 ^ places.length) := by
  simp [readNumeral, splitPoint_fraction hdigits]

end Reading

/-! ### Decimals with a point -/

section Decimals

variable {n : Nat} {k : Int}

theorem isDigit_of_mem_digitsOf {c : Char} (h : c ∈ digitsOf n) : c.isDigit :=
  Nat.isDigit_of_mem_toDigits (by decide) (by decide) h

theorem digitsOf_ne_nil (n : Nat) : digitsOf n ≠ [] := Nat.toDigits_ne_nil

/-- The digits of a number spell that number. -/
theorem digitsValue_digitsOf (n : Nat) : digitsValue (digitsOf n) = n :=
  Nat.ofDigitChars_ten_toDigits

/-- More digits are read on from the value of those before them. -/
theorem digitsValue_append (xs ys : List Char) :
    digitsValue (xs ++ ys) = Nat.ofDigitChars 10 ys (digitsValue xs) := Nat.ofDigitChars_append 0

/-- Every zero behind some digits multiplies their value by ten. -/
theorem digitsValue_append_zeros (digits : List Char) (count : Nat) :
    digitsValue (digits ++ List.replicate count '0') = digitsValue digits * 10 ^ count := by
  rw [digitsValue_append, Nat.ofDigitChars_replicate_zero, Nat.mul_comm]

/-- Zeros in front of some digits change nothing about their value, as they stand for zero
themselves. -/
theorem digitsValue_zeros_append (digits : List Char) (count : Nat) :
    digitsValue (List.replicate count '0' ++ digits) = digitsValue digits := by
  have hzero : digitsValue (List.replicate count '0') = 0 := by
    have happend := digitsValue_append_zeros [] count
    simpa [digitsValue] using happend
  rw [digitsValue_append, hzero]
  rfl

/-- The three layouts of a decimal: zeros behind its digits, a point among
them, or zeros in front of them. -/
theorem pointNotation_cases (digits : List Char) (k : Int) :
    (0 ≤ k ∧ pointNotation false digits k = digits ++ List.replicate k.toNat '0') ∨
      (k < 0 ∧ (-k).toNat < digits.length ∧ pointNotation false digits k =
        digits.take (digits.length - (-k).toNat) ++
          '.' :: digits.drop (digits.length - (-k).toNat)) ∨
      (k < 0 ∧ digits.length ≤ (-k).toNat ∧ pointNotation false digits k =
        ['0'] ++ '.' :: (List.replicate ((-k).toNat - digits.length) '0' ++ digits)) := by
  by_cases hk : 0 ≤ k
  · refine .inl ⟨hk, ?_⟩
    simp [pointNotation, hk]
  · by_cases hplaces : (-k).toNat < digits.length
    · refine .inr (.inl ⟨by omega, hplaces, ?_⟩)
      simp [pointNotation, hk, hplaces]
    · refine .inr (.inr ⟨by omega, by omega, ?_⟩)
      simp [pointNotation, hk, hplaces]

/-- A number with zeros in front of it is spelled with digits alone. -/
theorem isDigit_of_mem_zeros_append {c : Char} {count : Nat}
    (h : c ∈ List.replicate count '0' ++ digitsOf n) : c.isDigit := by
  rcases List.mem_append.1 h with h | h
  · rw [List.eq_of_mem_replicate h]
    rfl
  · exact isDigit_of_mem_digitsOf h

/-- A decimal without an exponent is a numeral, wherever its point comes to stand. Where the point
stands beyond the digits, zeros fill the places in between. -/
theorem isNumeral_pointNotation (n : Nat) (k : Int) :
    IsNumeral (pointNotation false (digitsOf n) k) := by
  have hne := digitsOf_ne_nil n
  rcases pointNotation_cases (digitsOf n) k with ⟨-, h⟩ | ⟨hk, hplaces, h⟩ | ⟨hk, hplaces, h⟩
  · rw [h]
    refine .whole (by simp [hne]) fun c hc => ?_
    rcases List.mem_append.1 hc with hc | hc
    · exact isDigit_of_mem_digitsOf hc
    · rw [List.eq_of_mem_replicate hc]
      rfl
  · rw [h]
    refine .fraction ?_ ?_ ?_ ?_
    · rw [ne_eq, List.take_eq_nil_iff, not_or]
      exact ⟨by omega, hne⟩
    · exact fun c hc => isDigit_of_mem_digitsOf (List.mem_of_mem_take hc)
    · rw [ne_eq, List.drop_eq_nil_iff]
      omega
    · exact fun c hc => isDigit_of_mem_digitsOf (List.mem_of_mem_drop hc)
  · rw [h]
    refine .fraction (by simp) ?_ (by simp [hne]) ?_
    · intro c hc
      rw [List.mem_singleton.1 hc]
      rfl
    · exact fun c hc => isDigit_of_mem_zeros_append hc

/-- A decimal with a point is read as the double nearest to it. Its zeros before or behind the
digits change only the power of ten. -/
theorem readNumeral_pointNotation (n : Nat) (k : Int) :
    readNumeral (pointNotation false (digitsOf n) k) =
      nearest (n * 10 ^ k.toNat) (gridFactor k) := by
  have hdigits : ∀ c ∈ digitsOf n, c.isDigit := fun c hc => isDigit_of_mem_digitsOf hc
  rcases pointNotation_cases (digitsOf n) k with ⟨hk, h⟩ | ⟨hk, hplaces, h⟩ | ⟨hk, hplaces, h⟩
  · have hall : ∀ c ∈ digitsOf n ++ List.replicate k.toNat '0', c.isDigit := by
      intro c hc
      rcases List.mem_append.1 hc with hc | hc
      · exact hdigits c hc
      · rw [List.eq_of_mem_replicate hc]
        rfl
    have hfactor : gridFactor k = 1 := by
      rw [gridFactor, show (-k).toNat = 0 from by omega, Nat.pow_zero]
    rw [h, readNumeral_whole hall, digitsValue_append_zeros, digitsValue_digitsOf, hfactor]
  · have hzero : k.toNat = 0 := by omega
    rw [h, readNumeral_fraction fun c hc => hdigits c (List.mem_of_mem_take hc),
      List.take_append_drop, digitsValue_digitsOf, hzero, Nat.pow_zero, Nat.mul_one, gridFactor,
      List.length_drop]
    congr 2
    omega
  · have hzero : k.toNat = 0 := by omega
    have hlead : ∀ c ∈ ['0'], c.isDigit := by simp
    have hvalue : digitsValue (['0'] ++ (List.replicate ((-k).toNat - (digitsOf n).length) '0' ++
        digitsOf n)) = n := by
      rw [← List.append_assoc, show (['0'] : List Char) = List.replicate 1 '0' from rfl,
        List.replicate_append_replicate, digitsValue_zeros_append, digitsValue_digitsOf]
    rw [h, readNumeral_fraction hlead, hvalue, hzero, Nat.pow_zero, Nat.mul_one, gridFactor,
      List.length_append, List.length_replicate]
    congr 2
    omega

end Decimals

/-! ### Doubles -/

section Doubles

variable {x : Float}

/-- Plain decimals have a point and no exponent. -/
theorem decimal_plain (x : Decimal) :
    plain.decimal x = pointNotation false (digitsOf x.digits) x.exponent := by
  simp only [NumberFormat.decimal, plain, if_true]

/-- The plain text of a finite double without a sign is that of its magnitude. -/
theorem toList_write (hfinite : x.isFinite) (hsign : isNegative x = false) :
    (plain.write x).toList = plain.magnitude (magnitudeBits x) := by
  have hbits := (isFinite_iff x).1 hfinite
  unfold NumberFormat.write
  simp only
  rw [if_neg (by omega), if_neg (by omega), if_neg (by simp [hsign]), List.nil_append,
    String.toList_ofList]

theorem magnitude_zero : plain.magnitude 0 = pointNotation false (digitsOf 0) 0 := by
  rw [NumberFormat.magnitude, if_pos rfl, digitsOf, Nat.toDigits_zero]
  rfl

/-- A magnitude above zero is written with the fewest digits that read back. -/
theorem magnitude_of_pos {bits : Nat} (hpos : 0 < bits) :
    plain.magnitude bits = pointNotation false
      (digitsOf (shortest .up (significandOf bits) (shiftOf bits)).digits)
      (shortest .up (significandOf bits) (shiftOf bits)).exponent := by
  rw [NumberFormat.magnitude, if_neg (by omega), decimal_plain]
  simp only [plain]

/-- Every magnitude is written as a numeral. The digits of the shortest decimal stand before the
point, behind it or on both sides, with zeros where they do not reach it. -/
theorem isNumeral_magnitude (bits : Nat) : IsNumeral (plain.magnitude bits) := by
  rcases Nat.eq_zero_or_pos bits with rfl | hpos
  · rw [magnitude_zero]
    exact isNumeral_pointNotation 0 0
  · rw [magnitude_of_pos hpos]
    exact isNumeral_pointNotation _ _

/-- **Numbers are written as numerals.** There is no exponent in them and no sign, if the number
has none, so that the lexer takes each for one token. -/
theorem isNumeral_write (hfinite : x.isFinite) (hsign : isNegative x = false) :
    IsNumeral (plain.write x).toList := by
  rw [toList_write hfinite hsign]
  exact isNumeral_magnitude _

/-- **Written numbers read back.** The digits that are written are those of a decimal in the
rounding interval of the double, and each of these has the double for its nearest. -/
theorem readNumeral_write (hfinite : x.isFinite) (hsign : isNegative x = false) :
    readNumeral (plain.write x).toList = x := by
  have hbits := (isFinite_iff x).1 hfinite
  have hback : readNumeral (plain.magnitude (magnitudeBits x)) =
      ofMagnitude false (magnitudeBits x) := by
    rcases Nat.eq_zero_or_pos (magnitudeBits x) with hzero | hpos
    · have hnearest : nearestBits (0 * 10 ^ (0 : Int).toNat) (gridFactor 0) = 0 := by
        decide +kernel
      rw [hzero, magnitude_zero, readNumeral_pointNotation, nearest, hnearest]
    · rw [magnitude_of_pos hpos, readNumeral_pointNotation, nearest,
        nearestBits_shortest .up hpos (Nat.le_of_lt hbits)]
  rw [toList_write hfinite hsign, hback, ofMagnitude_magnitudeBits hsign]

end Doubles

end LSystem.Number
