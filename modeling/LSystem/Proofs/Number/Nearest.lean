import LSystem.Proofs.Number.Rounding
import Mathlib

/-!
# Words by the ratios that round to them

The magnitudes of doubles are in the order of their words.  A ratio is rounded to a word, or
to one above it, when it lies above the midpoint between the double of the word and the one
below it, or on this midpoint and the word is even (`le_nearestBits_iff`).  Since this is said
of every word, it tells the nearest word of every ratio; that rounding is monotone and leaves
the doubles themselves as they are follows.
-/

namespace LSystem.Number

/-! ### Magnitudes -/

/-- One word further, the last digit of the significand counts one more. At a power of two the
shift grows by one, and there the step has been the old one still. -/
theorem quantaOf_succ (bits : Nat) : quantaOf (bits + 1) = quantaOf bits + 2 ^ shiftOf bits := by
  by_cases hcarry : shiftOf (bits + 1) = shiftOf bits
  · have hnext : significandOf (bits + 1) = significandOf bits + 1 := by
      unfold significandOf shiftOf at *
      omega
    rw [quantaOf, quantaOf, hcarry, hnext, Nat.add_mul, Nat.one_mul]
  · have hshift : shiftOf (bits + 1) = shiftOf bits + 1 := by
      unfold shiftOf at *
      omega
    have hlast : significandOf bits + 1 = 2 * significandOf (bits + 1) := by
      unfold significandOf shiftOf at *
      omega
    calc quantaOf (bits + 1) = 2 * significandOf (bits + 1) * 2 ^ shiftOf bits := by
          rw [quantaOf, hshift]
          ring
      _ = quantaOf bits + 2 ^ shiftOf bits := by
          rw [← hlast, quantaOf]
          ring

/-- The magnitudes of doubles, in quanta, are in the order of their words. -/
theorem quantaOf_strictMono : StrictMono quantaOf := by
  apply strictMono_nat_of_lt_succ
  intro bits
  have hpos : 0 < 2 ^ shiftOf bits := Nat.pow_pos (by decide)
  rw [quantaOf_succ]
  omega

theorem quantaOf_zero : quantaOf 0 = 0 := rfl

/-- The smallest doubles count the quanta themselves. Up to there the doubles lie one quantum
apart. -/
theorem quantaOf_eq_self {bits : Nat} (h : bits ≤ 2 ^ 53) : quantaOf bits = bits := by
  induction bits with
  | zero => rfl
  | succ bits ih =>
      have hshift : shiftOf bits = 0 := by
        unfold shiftOf
        omega
      rw [quantaOf_succ, ih (by omega), hshift, Nat.pow_zero]

/-- No word is greater than the quanta that it stands for. -/
theorem le_quantaOf (bits : Nat) : bits ≤ quantaOf bits := quantaOf_strictMono.le_apply

/-- The magnitude of the double with a word. -/
def valueOf (bits : Nat) : ℚ := quantaOf bits / quantaPerUnit

theorem quantaPerUnit_pos : 0 < quantaPerUnit := by
  unfold quantaPerUnit
  positivity

theorem cast_quantaPerUnit_pos : (0 : ℚ) < quantaPerUnit := Nat.cast_pos.2 quantaPerUnit_pos

/-- The magnitudes of doubles are in the order of their words. -/
theorem valueOf_strictMono : StrictMono valueOf := by
  intro low high hlt
  have hquanta : (quantaOf low : ℚ) < quantaOf high := Nat.cast_lt.2 (quantaOf_strictMono hlt)
  exact div_lt_div_of_pos_right hquanta cast_quantaPerUnit_pos

theorem valueOf_zero : valueOf 0 = 0 := by rw [valueOf, quantaOf_zero, Nat.cast_zero, zero_div]

theorem valueOf_nonneg (bits : Nat) : 0 ≤ valueOf bits :=
  div_nonneg (Nat.cast_nonneg _) cast_quantaPerUnit_pos.le

/-! ### Midpoints -/

/-- Halfway between the double of a word and the one below it. -/
def midpointBelow (bits : Nat) : ℚ := (valueOf (bits - 1) + valueOf bits) / 2

/-- The ratio is rounded to the word or to one above it. -/
def Reaches (bits : Nat) (q : ℚ) : Prop :=
  midpointBelow bits < q ∨ midpointBelow bits = q ∧ bits % 2 = 0

/-- Midpoints are in the order of the words that they are below. -/
theorem midpointBelow_strictMono {low high : Nat} (hlt : low < high) :
    midpointBelow low < midpointBelow high := by
  have hvalue := valueOf_strictMono hlt
  have hbefore := valueOf_strictMono.monotone (show low - 1 ≤ high - 1 by omega)
  unfold midpointBelow
  linarith

/-- A midpoint is below the double that it is named after, except at zero. -/
theorem midpointBelow_lt_valueOf {bits : Nat} (hpos : 0 < bits) :
    midpointBelow bits < valueOf bits := by
  have hvalue := valueOf_strictMono (show bits - 1 < bits by omega)
  unfold midpointBelow
  linarith

/-- A double is below the midpoint between it and the next one. -/
theorem valueOf_lt_midpointBelow_succ (bits : Nat) : valueOf bits < midpointBelow (bits + 1) := by
  have hvalue := valueOf_strictMono (Nat.lt_succ_self bits)
  rw [midpointBelow, Nat.add_sub_cancel]
  linarith

namespace Reaches

variable {low high bits : Nat} {q r : ℚ}

/-- What is rounded to a word or above it is rounded to a lesser word or above that. -/
theorem of_lt (h : Reaches high q) (hlt : low < high) : Reaches low q := by
  have hmid := midpointBelow_strictMono hlt
  rcases h with h | ⟨h, -⟩
  · exact .inl (hmid.trans h)
  · exact .inl (hmid.trans_eq h)

/-- A greater ratio is rounded to no lesser word. -/
theorem mono (h : Reaches bits q) (hle : q ≤ r) : Reaches bits r := by
  rcases h with h | ⟨h, heven⟩
  · exact .inl (h.trans_le hle)
  · rcases hle.lt_or_eq with hlt | rfl
    · exact .inl (h.trans_lt hlt)
    · exact .inr ⟨h, heven⟩

/-- A ratio that reaches a word is not below the midpoint. -/
theorem midpointBelow_le (h : Reaches bits q) : midpointBelow bits ≤ q := by
  rcases h with h | ⟨h, -⟩
  · exact h.le
  · exact h.le

/-- A double reaches the words up to its own. -/
theorem valueOf_iff (hpos : 0 < low) : Reaches low (valueOf bits) ↔ low ≤ bits := by
  constructor
  · intro h
    by_contra hlt
    have hmid := valueOf_lt_midpointBelow_succ bits
    have hnext : midpointBelow (bits + 1) ≤ midpointBelow low := by
      rcases (show bits + 1 ≤ low by omega).lt_or_eq with hlt | rfl
      · exact (midpointBelow_strictMono hlt).le
      · exact le_refl _
    linarith [h.midpointBelow_le]
  · intro hle
    have hvalue := valueOf_strictMono.monotone hle
    exact .inl ((midpointBelow_lt_valueOf hpos).trans_le hvalue)

end Reaches

/-! ### Nearest words -/

section Nearest

variable {num den bits : Nat}

/-- Reaching a word, without fractions. The two halves of the condition are multiplied out by the
denominators, so that whole numbers are left. -/
theorem reaches_div_iff (hden : 0 < den) : Reaches bits (num / den) ↔
    (quantaOf (bits - 1) + quantaOf bits) * den < 2 * (num * quantaPerUnit) ∨
      (quantaOf (bits - 1) + quantaOf bits) * den = 2 * (num * quantaPerUnit) ∧
        bits % 2 = 0 := by
  have hunit := cast_quantaPerUnit_pos
  unfold Reaches midpointBelow valueOf
  generalize quantaPerUnit = unit at *
  have hden' : (0 : ℚ) < den := Nat.cast_pos.2 hden
  have hmid : ((quantaOf (bits - 1) : ℚ) / unit + quantaOf bits / unit) / 2 =
      (quantaOf (bits - 1) + quantaOf bits) / (2 * unit) := by
    field_simp
  have hproduct : (num : ℚ) * (2 * unit) = 2 * (num * unit) := by ring
  rw [hmid, div_lt_div_iff₀ (by linarith) hden', div_eq_div_iff (by linarith) hden'.ne', hproduct]
  norm_cast

/-- The ends of a rounding interval are the midpoints to the neighbours. Below a power of two the
lower neighbour is nearer, which the interval allows for. -/
theorem roundingInterval_ends (hpos : 0 < bits) :
    (roundingInterval (significandOf bits) (shiftOf bits)).low =
        2 * (quantaOf (bits - 1) + quantaOf bits) ∧
      (roundingInterval (significandOf bits) (shiftOf bits)).high =
        2 * (quantaOf bits + quantaOf (bits + 1)) := by
  obtain ⟨before, rfl⟩ : ∃ before, bits = before + 1 := ⟨bits - 1, by omega⟩
  have hvalue : 4 * significandOf (before + 1) * 2 ^ shiftOf (before + 1) =
      4 * quantaOf (before + 1) := by
    rw [quantaOf]
    ring
  have hstep := quantaOf_succ before
  constructor
  · rw [Nat.add_sub_cancel]
    by_cases hpower : significandOf (before + 1) = 2 ^ 52 ∧ 0 < shiftOf (before + 1)
    · have hshift : shiftOf (before + 1) = shiftOf before + 1 := by
        unfold significandOf shiftOf at *
        omega
      rw [low_of_power hpower, hvalue, hshift, Nat.pow_succ]
      omega
    · have hshift : shiftOf (before + 1) = shiftOf before := by
        unfold significandOf shiftOf at *
        omega
      rw [low_of_not_power hpower, hvalue, hshift]
      omega
  · have hnext := quantaOf_succ (before + 1)
    rw [high_eq, hvalue, hnext]
    omega

/-- No ratio reaches every word. So the search for the nearest word ends below a bound that is
known beforehand. -/
theorem le_of_reaches (hden : 0 < den) (h : Reaches bits (num / den)) :
    bits ≤ 2 * (num * quantaPerUnit) := by
  rw [reaches_div_iff hden] at h
  generalize num * quantaPerUnit = exact at *
  have hquanta : bits ≤ quantaOf (bits - 1) + quantaOf bits := by
    have hle := le_quantaOf bits
    omega
  have hle : bits * 1 ≤ (quantaOf (bits - 1) + quantaOf bits) * den := Nat.mul_le_mul hquanta hden
  omega

/-- The nearest word of a ratio is the last one that it reaches, or infinity. The search goes by
the exponent of the ratio, and the words that a ratio reaches tell this exponent. -/
theorem nearestBits_of_reaches (hden : 0 < den) (hpos : 0 < bits)
    (h : Reaches bits (num / den)) (hnot : ¬ Reaches (bits + 1) (num / den)) :
    nearestBits num den = min infinityBits bits := by
  have hparity : bits % 2 = significandOf bits % 2 := by
    have heq := bits_eq bits
    omega
  obtain ⟨hlow, hhigh⟩ := roundingInterval_ends hpos
  rw [reaches_div_iff hden] at h hnot
  rw [Nat.add_sub_cancel] at hnot
  have hbetween : Between (significandOf bits) (shiftOf bits) (num * quantaPerUnit) den := by
    constructor
    · rw [hlow, Nat.mul_assoc]
      omega
    · rw [hhigh, Nat.mul_assoc]
      omega
    · intro hodd
      rw [hlow, hhigh, Nat.mul_assoc, Nat.mul_assoc]
      omega
  rw [nearestBits_of_between hden (normal_of_bits hpos) hbetween, ← bits_eq bits]

/-- A ratio that does not reach the least word is rounded to zero. -/
theorem nearestBits_of_not_reaches (hden : 0 < den) (hnot : ¬ Reaches 1 (num / den)) :
    nearestBits num den = 0 := by
  rw [reaches_div_iff hden] at hnot
  have hone : quantaOf (1 - 1) + quantaOf 1 = 1 := rfl
  rw [hone, Nat.one_mul] at hnot
  generalize hexact : num * quantaPerUnit = exact at hnot
  have hround : roundHalfEven exact (den * 2 ^ 0) = 0 := by
    apply roundHalfEven_eq <;> omega
  have hshift := log2_div_sub_zero hden (show exact < 2 ^ 53 * den by omega)
  rw [← hexact] at hround hshift
  rw [nearestBits_eq hshift hround]
  exact Nat.min_eq_right (Nat.zero_le _)

/-- **A ratio is rounded to a word or above it when it reaches the word.** With it rounding is
known by one inequality for each word, and monotonicity follows at once. -/
theorem le_nearestBits_iff (hden : 0 < den) (hpos : 0 < bits) (hle : bits ≤ infinityBits) :
    bits ≤ nearestBits num den ↔ Reaches bits (num / den) := by
  classical
  -- the last word that is reached; words above infinity count here too
  let last := Nat.findGreatest (Reaches · (num / den)) (2 * (num * quantaPerUnit))
  have hlast : nearestBits num den = min infinityBits last := by
    have hnot : ¬ Reaches (last + 1) (num / den) := fun h =>
      Nat.findGreatest_is_greatest (Nat.lt_succ_self last) (le_of_reaches hden h) h
    rcases Nat.eq_zero_or_pos last with hzero | hsome
    · rw [hzero, Nat.zero_add] at hnot
      rw [nearestBits_of_not_reaches hden hnot, hzero]
      exact (Nat.min_eq_right (Nat.zero_le _)).symm
    · exact nearestBits_of_reaches hden hsome (Nat.findGreatest_of_ne_zero rfl hsome.ne') hnot
  rw [hlast, Nat.le_min]
  constructor
  · rintro ⟨-, hbelow⟩
    have hreached : Reaches last (num / den) :=
      Nat.findGreatest_of_ne_zero rfl (hpos.trans_le hbelow).ne'
    rcases hbelow.lt_or_eq with hlt | heq
    · exact hreached.of_lt hlt
    · rwa [heq]
  · intro h
    exact ⟨hle, Nat.le_findGreatest (le_of_reaches hden h) h⟩

end Nearest

end LSystem.Number
