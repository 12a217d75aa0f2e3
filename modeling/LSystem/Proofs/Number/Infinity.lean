import LSystem.Proofs.Number.Arithmetic

/-!
# Infinities

A double that is a number is finite or one of the two infinities.  An operation that rounds a
monotone one keeps the order of finite doubles, also where it overflows, so what it does to the
ends of an interval bounds what it does inside (`Rounds.within`), and past a double that it takes
to an infinity it gives nothing else (`eq_infinity_of_le`).
-/

namespace LSystem.Number

open Float.Model Float.Model.UnpackedFloat

/-- The double above all others. -/
def infinity : Float := 1 / 0

/-- To the model the double above all others is the infinity without a sign. -/
theorem unpacked_infinity : unpacked infinity = .infinity .positive := rfl

theorem unpacked_neg_infinity : unpacked (-infinity) = .infinity .negative := rfl

/-- The infinities have the words next to those of the finite doubles, and are in order. -/
theorem signedBits_infinity : signedBits infinity = infinityBits ∧
    signedBits (-infinity) = -infinityBits ∧ ¬ infinity ≤ -infinity ∧ ¬ 0 ≤ -infinity := by
  decide +kernel

section Infinities

variable {x y : Float}

/-- A number among the doubles is finite or one of the two infinities. -/
theorem number_cases (hx : IsNumber x) : x.isFinite ∨ x = infinity ∨ x = -infinity := by
  have hfinite : x.isFinite = (unpacked x).isFinite := rfl
  rw [isNumber_iff] at hx
  rw [hfinite]
  cases hu : unpacked x with
  | notANumber =>
      rw [hu] at hx
      cases hx
  | infinity sign =>
      cases sign with
      | positive => exact .inr (.inl (eq_of_unpacked_eq (hu.trans unpacked_infinity.symm)))
      | negative => exact .inr (.inr (eq_of_unpacked_eq (hu.trans unpacked_neg_infinity.symm)))
  | zero sign | finite sign mantissa exponent hm => exact .inl rfl

theorem isNumber_infinity : IsNumber infinity ∧ IsNumber (-infinity) := ⟨rfl, rfl⟩

theorem not_isFinite_infinity : ¬ infinity.isFinite ∧ ¬ (-infinity).isFinite :=
  ⟨Bool.false_ne_true, Bool.false_ne_true⟩

/-- Nothing else is above the infinity. The words beyond it are those of the NaN, which compares
with nothing. -/
theorem eq_infinity_of_le (h : infinity ≤ x) : x = infinity := by
  obtain ⟨hword, -, horder, -⟩ := signedBits_infinity
  obtain ⟨-, hx, hle⟩ := le_iff_signedBits.1 h
  rcases number_cases hx with hfinite | rfl | rfl
  · obtain ⟨-, -, hlt⟩ := isFinite_iff_signedBits.1 hfinite
    omega
  · rfl
  · exact absurd h horder

/-- Nothing is below the negative infinity. It is the mirror image of the other infinity. -/
theorem eq_neg_infinity_of_le (h : x ≤ -infinity) : x = -infinity := by
  obtain ⟨-, hword, horder, -⟩ := signedBits_infinity
  obtain ⟨hx, -, hle⟩ := le_iff_signedBits.1 h
  rcases number_cases hx with hfinite | rfl | rfl
  · obtain ⟨-, hlt, -⟩ := isFinite_iff_signedBits.1 hfinite
    omega
  · exact absurd h horder
  · rfl

/-- What is not below zero is finite or the infinity. The NaN is excluded by the comparison, and
the negative infinity by the sign. -/
theorem nonneg_cases (h : 0 ≤ x) : x.isFinite ∨ x = infinity := by
  obtain ⟨-, -, -, horder⟩ := signedBits_infinity
  rcases number_cases (le_iff_signedBits.1 h).2.1 with hfinite | rfl | rfl
  · exact .inl hfinite
  · exact .inr rfl
  · exact absurd h horder

end Infinities

/-! ### Rounded monotone operations -/

/-- The operation gives the nearest double to what a monotone one gives for the exact number. -/
structure Rounds (f : Float → Float) (exact : ℚ → ℚ) : Prop where
  nearest : ∀ x : Float, x.isFinite → IsNearest (f x) (exact (value x))
  mono : Monotone exact

namespace Rounds

variable {f : Float → Float} {exact : ℚ → ℚ} {x y low high : Float}

/-- The order of finite doubles is kept by an operation that rounds a monotone one, because the
nearest double is monotone itself. -/
theorem le (h : Rounds f exact) (hx : x.isFinite) (hy : y.isFinite) (hle : x ≤ y) : f x ≤ f y :=
  (h.nearest x hx).le (h.nearest y hy) (h.mono ((le_iff_value hx hy).1 hle))

/-- An interval goes to an interval, without an infinity if its ends do. -/
theorem within (h : Rounds f exact) (hlow : low.isFinite) (hhigh : high.isFinite)
    (hlow' : (f low).isFinite) (hhigh' : (f high).isFinite) (hle : low ≤ x) (hle' : x ≤ high) :
    (f x).isFinite ∧ f low ≤ f x ∧ f x ≤ f high := by
  have hx : x.isFinite := isFinite_of_le_of_le hlow hhigh hle hle'
  have hbelow := h.le hlow hx hle
  have habove := h.le hx hhigh hle'
  exact ⟨isFinite_of_le_of_le hlow' hhigh' hbelow habove, hbelow, habove⟩

/-- To add a finite double on the left is to add what it stands for and round once. -/
theorem add_left (hy : y.isFinite) : Rounds (y + ·) (value y + ·) where
  nearest _ hx := isNearest_add hy hx
  mono _ _ hle := add_le_add_right hle (value y)

/-- To add a finite double on the right is to add what it stands for and round once. -/
theorem add_right (hy : y.isFinite) : Rounds (· + y) (· + value y) where
  nearest _ hx := isNearest_add hx hy
  mono _ _ hle := add_le_add_left hle (value y)

/-- To multiply by a finite double is to multiply by what it stands for and round once; this is
monotone where it is not negative. -/
theorem mul_right (hy : y.isFinite) (hnonneg : 0 ≤ value y) : Rounds (· * y) (· * value y) where
  nearest _ hx := isNearest_mul hx hy
  mono _ _ hle := mul_le_mul_of_nonneg_right hle hnonneg

/-- To divide by a finite double is to divide by what it stands for and round once, and this is
monotone where it is positive. -/
theorem div_right (hy : y.isFinite) (hpos : 0 < value y) : Rounds (· / y) (· / value y) where
  nearest _ hx := isNearest_div hx hy hpos.ne'
  mono _ _ hle := div_le_div_of_nonneg_right hle hpos.le

end Rounds

end LSystem.Number
