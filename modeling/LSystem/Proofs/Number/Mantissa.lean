import LSystem.Proofs.Number.Value

/-!
# Rounded mantissas

The model of doubles rounds a mantissa by the digits that a shift takes off it, of which it
keeps the first and whether any other is set.  `Locates` says what these two tell of the exact
number.  A shift keeps that, and at the shift of the nearest double it decides which way to
round, so the word that is packed in the end is the nearest one
(`toNat_pack_roundWithAccuracy`).
-/

namespace LSystem.Number

open Float.Model Float.Model.UnpackedFloat

/-! ### Rounding to whole numbers -/

/-- The number is nearest to a whole one, which is even where another is as near. -/
structure RoundsTo (r : Nat) (x : ℚ) : Prop where
  low : r - 1 / 2 ≤ x
  high : x ≤ r + 1 / 2
  odd : r % 2 = 1 → r - 1 / 2 < x ∧ x < r + 1 / 2

/-- A ratio is rounded to the whole number that it is nearest to, and to the even one of two that
are as near. -/
theorem RoundsTo.roundHalfEven_eq {num den r : Nat} (hden : 0 < den) (h : RoundsTo r (num / den)) :
    roundHalfEven num den = r := by
  have hden' : (0 : ℚ) < den := Nat.cast_pos.2 hden
  obtain ⟨hlow, hhigh, hodd⟩ := h
  rw [le_div_iff₀ hden'] at hlow
  rw [div_le_iff₀ hden'] at hhigh
  rw [lt_div_iff₀ hden', div_lt_iff₀ hden'] at hodd
  have hlow' : (2 * r * den : ℚ) ≤ 2 * num + den := by linarith
  have hhigh' : (2 * num : ℚ) ≤ 2 * r * den + den := by linarith
  apply Number.roundHalfEven_eq hden
  · exact_mod_cast hlow'
  · exact_mod_cast hhigh'
  · rcases Nat.mod_two_eq_zero_or_one r with heven | hone
    · exact .inl heven
    · obtain ⟨hless, hmore⟩ := hodd hone
      have hless' : (2 * r * den : ℚ) < 2 * num + den := by linarith
      have hmore' : (2 * num : ℚ) < 2 * r * den + den := by linarith
      exact .inr ⟨by exact_mod_cast hless', by exact_mod_cast hmore'⟩

/-- A number of 53 digits is rounded to one of 53 digits, or carried to the next power. -/
theorem RoundsTo.le_carry {r : Nat} {x : ℚ} (h : RoundsTo r x) (hx : x < 2 ^ 53) : r ≤ 2 ^ 53 := by
  have hless : (r : ℚ) < 2 ^ 53 + 1 := by linarith [h.low]
  have hless' : r < 2 ^ 53 + 1 := by exact_mod_cast hless
  omega

/-- A number with a leading digit is rounded to one with a leading digit. -/
theorem RoundsTo.le_of_leading {r : Nat} {x : ℚ} (h : RoundsTo r x) (hx : 2 ^ 52 ≤ x) :
    2 ^ 52 ≤ r := by
  have hmore : (2 ^ 52 : ℚ) < r + 1 := by linarith [h.high]
  have hmore' : 2 ^ 52 < r + 1 := by exact_mod_cast hmore
  omega

/-- The nearest word of a number, by its shift and what it is rounded to there. -/
theorem ratioBits_eq {q : ℚ} {shift r : Nat} (hq : 0 ≤ q)
    (hlow : shift = 0 ∨ 2 ^ 52 * 2 ^ shift ≤ q * quantaPerUnit)
    (hhigh : q * quantaPerUnit < 2 ^ 53 * 2 ^ shift)
    (hround : RoundsTo r (q * quantaPerUnit / 2 ^ shift)) :
    ratioBits q = min infinityBits (shift * 2 ^ 52 + r) := by
  have hden : (0 : ℚ) < q.den := Nat.cast_pos.2 q.den_pos
  have hratio : q * quantaPerUnit = (q.num.toNat * quantaPerUnit : Nat) / (q.den : ℚ) := by
    have hnum : (q.num.toNat : ℚ) = q * q.den := by
      rw [← Int.cast_natCast, Int.toNat_of_nonneg (Rat.num_nonneg.2 hq)]
      exact (Rat.mul_den_eq_num q).symm
    rw [Nat.cast_mul, hnum]
    generalize (quantaPerUnit : ℚ) = unit
    field_simp
  rw [hratio] at hlow hhigh hround
  unfold ratioBits
  generalize hexact : q.num.toNat * quantaPerUnit = exact at *
  apply nearestBits_eq
  · rw [hexact]
    rw [div_lt_iff₀ hden] at hhigh
    rw [le_div_iff₀ hden] at hlow
    have hbelow : exact < 2 ^ 53 * 2 ^ shift * q.den := by exact_mod_cast hhigh
    rcases hlow with rfl | hlow
    · apply log2_div_sub_zero q.den_pos
      rwa [Nat.pow_zero, Nat.mul_one] at hbelow
    · have habove : 2 ^ 52 * 2 ^ shift * q.den ≤ exact := by exact_mod_cast hlow
      exact log2_div_sub q.den_pos habove hbelow
  · rw [hexact]
    apply RoundsTo.roundHalfEven_eq (Nat.mul_pos q.den_pos (Nat.pow_pos (by decide)))
    rwa [Nat.cast_mul, Nat.cast_pow, Nat.cast_ofNat, ← div_div]

/-! ### Mantissas with lost digits -/

/-- What a mantissa, the digit after it and whether any further digit is set tell of a number. -/
inductive Locates : ExtendedMantissa → ℚ → Prop
  | exact (m : Nat) : Locates ⟨m, false, false⟩ m
  | less {m : Nat} {x : ℚ} (hlow : m < x) (hhigh : x < m + 1 / 2) : Locates ⟨m, false, true⟩ x
  | half (m : Nat) : Locates ⟨m, true, false⟩ (m + 1 / 2)
  | more {m : Nat} {x : ℚ} (hlow : m + 1 / 2 < x) (hhigh : x < m + 1) : Locates ⟨m, true, true⟩ x

namespace Locates

variable {em : ExtendedMantissa} {x : ℚ}

/-- The mantissa is the whole part of the number that it locates: at most the number, and less
than one below it. -/
theorem bounds (h : Locates em x) : (em.mantissa : ℚ) ≤ x ∧ x < em.mantissa + 1 := by
  cases h <;> constructor <;> simp only <;> linarith

/-- One digit less leaves the mantissa with as much knowledge of half the number: the digit that
is lost becomes the first, and the one before it is remembered if it was set. -/
theorem shiftRightOne (h : Locates em x) : Locates em.shiftRightOne (x / 2) := by
  have hsplit (m : Nat) : (m : ℚ) = 2 * (m / 2 : Nat) + (m % 2 : Nat) := by
    exact_mod_cast (Nat.div_add_mod m 2).symm
  have heven {m : Nat} {sticky : Bool} {y : ℚ} (hm : m % 2 = 0)
      (h : Locates ⟨m / 2, false, sticky⟩ y) : Locates ⟨m / 2, m % 2 != 0, sticky⟩ y := by
    rwa [hm]
  have hodd {m : Nat} {sticky : Bool} {y : ℚ} (hm : m % 2 = 1)
      (h : Locates ⟨m / 2, true, sticky⟩ y) : Locates ⟨m / 2, m % 2 != 0, sticky⟩ y := by
    rwa [hm]
  cases h with
  | exact m =>
      have hm := hsplit m
      rcases Nat.mod_two_eq_zero_or_one m with hcase | hcase <;> rw [hcase] at hm
      · have hx : (m : ℚ) / 2 = (m / 2 : Nat) := by rw [hm]; push_cast; ring
        exact heven hcase (hx ▸ .exact _)
      · have hx : (m : ℚ) / 2 = (m / 2 : Nat) + 1 / 2 := by rw [hm]; push_cast; ring
        exact hodd hcase (hx ▸ .half _)
  | half m =>
      have hm := hsplit m
      rcases Nat.mod_two_eq_zero_or_one m with hcase | hcase <;> rw [hcase] at hm <;>
        push_cast at hm
      · exact heven hcase (.less (by linarith) (by linarith))
      · exact hodd hcase (.more (by linarith) (by linarith))
  | less hlow hhigh | more hlow hhigh =>
      rename_i m
      have hm := hsplit m
      rcases Nat.mod_two_eq_zero_or_one m with hcase | hcase <;> rw [hcase] at hm <;>
        push_cast at hm
      · exact heven hcase (.less (by linarith) (by linarith))
      · exact hodd hcase (.more (by linarith) (by linarith))

/-- Any number of digits can be taken off one by one. The digit that falls off and those that fell
off before it are kept as two bits, by induction on the number of places. -/
theorem shiftRight (h : Locates em x) (places : Nat) :
    Locates (em >>> places) (x / 2 ^ places) := by
  change Locates (places.repeat ExtendedMantissa.shiftRightOne em) _
  induction places with
  | zero =>
      rw [pow_zero, div_one]
      exact h
  | succ places ih =>
      rw [pow_succ, ← div_div]
      exact ih.shiftRightOne

/-- A remainder tells where the quotient lies. Whether it is none, less than a half, a half or
more is all that rounding asks of it. -/
theorem ofFraction (num : Nat) {den : Nat} (hden : 0 < den) :
    Locates (.ofMantissaAndAccuracy (num / den) (accuracyOfFraction (num % den) den))
      (num / den : ℚ) := by
  have hden' : (0 : ℚ) < den := Nat.cast_pos.2 hden
  have hsplit : (num : ℚ) / den = (num / den : Nat) + (num % den : Nat) / den := by
    have hnum : (num : ℚ) = den * (num / den : Nat) + (num % den : Nat) := by
      exact_mod_cast (Nat.div_add_mod num den).symm
    rw [hnum]
    field_simp
  have hlt : ((num % den : Nat) : ℚ) < den := Nat.cast_lt.2 (Nat.mod_lt num hden)
  rw [hsplit, accuracyOfFraction]
  generalize num / den = whole
  generalize num % den = rest at hlt
  by_cases hzero : rest = 0
  · rw [if_pos hzero, hzero, Nat.cast_zero, zero_div, add_zero]
    exact .exact whole
  · have hpos : (0 : ℚ) < rest / den := by
      have hrest : (0 : ℚ) < rest := Nat.cast_pos.2 (Nat.pos_of_ne_zero hzero)
      positivity
    rw [if_neg hzero]
    rcases Nat.lt_trichotomy (2 * rest) den with hless | heq | hmore
    · have hless' : (2 * rest : ℚ) < den := by exact_mod_cast hless
      have hbelow : (rest : ℚ) / den < 1 / 2 := by
        rw [div_lt_div_iff₀ hden' two_pos]
        linarith
      rw [Nat.compare_eq_lt.2 hless]
      exact .less (by linarith) (by linarith)
    · have heq' : (2 * rest : ℚ) = den := by exact_mod_cast heq
      have hhalf : (rest : ℚ) / den = 1 / 2 := by
        rw [div_eq_div_iff hden'.ne' two_ne_zero]
        linarith
      rw [Nat.compare_eq_eq.2 heq, hhalf]
      exact .half whole
    · have hmore' : (den : ℚ) < 2 * rest := by exact_mod_cast hmore
      have habove : 1 / 2 < (rest : ℚ) / den := by
        rw [div_lt_div_iff₀ two_pos hden']
        linarith
      have hone : (rest : ℚ) / den < 1 := (div_lt_one hden').2 hlt
      rw [Nat.compare_eq_gt.2 hmore]
      exact .more (by linarith) (by linarith)

/-- The digits decide which way to round. Above a half they round up, below it down, and at a half
to the even mantissa. -/
theorem roundsTo (h : Locates em x) : RoundsTo em.roundedMantissa x := by
  cases h with
  | exact m =>
      change RoundsTo m m
      exact ⟨by linarith, by linarith, fun _ => ⟨by linarith, by linarith⟩⟩
  | @less m x hlow hhigh =>
      change RoundsTo m x
      exact ⟨by linarith, by linarith, fun _ => ⟨by linarith, by linarith⟩⟩
  | half m =>
      change RoundsTo (m + m % 2) (m + 1 / 2)
      rcases Nat.mod_two_eq_zero_or_one m with heven | hodd
      · rw [heven, Nat.add_zero]
        exact ⟨by linarith, le_refl _, fun hodd => by omega⟩
      · rw [hodd]
        exact ⟨by push_cast; linarith, by push_cast; linarith, fun hodd => by omega⟩
  | @more m x hlow hhigh =>
      change RoundsTo (m + 1) x
      constructor
      · push_cast
        linarith
      · push_cast
        linarith
      · intro _
        push_cast
        exact ⟨by linarith, by linarith⟩

end Locates

/-! ### Packed words -/

section Pack

variable {m : Nat} {e : ℤ}

/-- The word of a mantissa with its exponent, in the form that doubles have. Beyond the finite
range it is the word of infinity, and a mantissa of 52 digits at the least exponent is that of a
small double. -/
theorem toNat_pack_finite (s : Sign) (hm : 0 < m) (hlt : m < 2 ^ 53) (he : -1074 ≤ e)
    (hnormal : e = -1074 ∨ 2 ^ 52 ≤ m) :
    (UnpackedFloat.pack Format.binary64 (.finite s m e hm)).toNat =
      s.toBitVec.toNat * 2 ^ 63 + min infinityBits ((e + 1074).toNat * 2 ^ 52 + m) := by
  have hbias : Format.binary64.exponentBias = 1023 := rfl
  have hbits : Format.binary64.mantissaBits = 53 := rfl
  have hinfinity : infinityBits = 2047 * 2 ^ 52 := rfl
  obtain ⟨shift, rfl⟩ : ∃ shift : Nat, e = shift - 1074 := ⟨(e + 1074).toNat, by omega⟩
  have hshift : ((shift : ℤ) - 1074 + 1074).toNat = shift := by omega
  have hbiased : ((shift : ℤ) - 1074 + (1023 : Nat) + (52 : Nat)).toNat = shift + 1 := by omega
  simp only [UnpackedFloat.pack, hbias, hbits, hbiased, hshift]
  by_cases hlarge : 2 ^ 11 ≤ shift + 1 + 1
  · have hones : (-1#11).toNat = 2047 := rfl
    have hinfinite := toNat_packComponents s (-1#11) 0#52
    rw [hones, BitVec.toNat_zero, Nat.add_zero, ← hinfinity] at hinfinite
    rw [if_pos hlarge, Nat.min_eq_left (by omega)]
    exact hinfinite
  · rw [if_neg hlarge, Nat.min_eq_right (by omega)]
    by_cases hleading : 2 ^ 52 ≤ m
    · have hlog : m.log2 = 52 := (Nat.log2_eq_iff hm.ne').2 ⟨hleading, hlt⟩
      rw [if_pos (by omega), toNat_packComponents, BitVec.toNat_ofNat, BitVec.toNat_ofNat]
      omega
    · have hlog : m.log2 < 52 := (Nat.log2_lt hm.ne').2 (by omega)
      rw [if_neg (by omega), toNat_packComponents, BitVec.toNat_ofNat, BitVec.toNat_ofNat]
      omega

/-- A mantissa of 53 digits is not shifted. It stands at an exponent that rounding does not
change, so no digit falls off. -/
theorem shiftToTargetExponent_of_lt (hlt : m < 2 ^ 53) (he : -1074 ≤ e) :
    shiftToTargetExponent Format.binary64 m e .exact = (⟨m, false, false⟩, e) := by
  have hlog : m.log2 ≤ 52 := by
    by_cases hzero : m = 0
    · rw [hzero]
      decide
    · have hlog := (Nat.log2_lt hzero).2 hlt
      omega
  have hmin : Format.binary64.minExponent = -1074 := rfl
  have hbits : Format.binary64.mantissaBits = 53 := rfl
  have htarget : Format.binary64.targetExponent (totalExponent m e) ≤ e := by
    unfold Format.targetExponent totalExponent
    omega
  unfold shiftToTargetExponent shiftToExponent
  simp only
  rw [show (Format.binary64.targetExponent (totalExponent m e) - e).toNat = 0 by omega]
  exact Prod.ext rfl (add_zero e)

/-- A carry into the next digit is shifted back. The mantissa is even then, so no digit is lost,
and the exponent is one higher. -/
theorem shiftToTargetExponent_carry (he : -1074 ≤ e) :
    shiftToTargetExponent Format.binary64 (2 ^ 53) e .exact = (⟨2 ^ 52, false, false⟩, e + 1) := by
  have hmin : Format.binary64.minExponent = -1074 := rfl
  have hbits : Format.binary64.mantissaBits = 53 := rfl
  have htarget : Format.binary64.targetExponent (totalExponent (2 ^ 53) e) = e + 1 := by
    unfold Format.targetExponent totalExponent
    rw [Nat.log2_two_pow]
    omega
  unfold shiftToTargetExponent shiftToExponent
  simp only
  rw [htarget, show (e + 1 - e).toNat = 1 by omega]
  rfl

/-- **A rounded mantissa is packed after its shift**, with a carry put into the exponent. A carry
makes the mantissa a power of two, which counts in the sum as one step of the exponent. -/
theorem toNat_pack_of_shift (s : Sign) {accuracy : Accuracy} {em : ExtendedMantissa}
    {shift : Nat}
    (hfirst : shiftToTargetExponent Format.binary64 m e accuracy = (em, (shift : ℤ) - 1074))
    (hcarry : em.roundedMantissa ≤ 2 ^ 53) (hleading : shift = 0 ∨ 2 ^ 52 ≤ em.roundedMantissa) :
    (UnpackedFloat.pack Format.binary64
        (roundWithAccuracy Format.binary64 s m e accuracy)).toNat =
      s.toBitVec.toNat * 2 ^ 63 + min infinityBits (shift * 2 ^ 52 + em.roundedMantissa) := by
  generalize hr : em.roundedMantissa = r at hcarry hleading ⊢
  unfold roundWithAccuracy
  simp only [hfirst, hr]
  rcases hcarry.lt_or_eq with hlt | rfl
  · simp only [shiftToTargetExponent_of_lt hlt (show -1074 ≤ (shift : ℤ) - 1074 by omega)]
    split
    · rename_i hzero
      obtain rfl : shift = 0 := by omega
      have hpacked := toNat_packComponents s 0#11 0#52
      rw [BitVec.toNat_zero, BitVec.toNat_zero, Nat.zero_mul, Nat.add_zero] at hpacked
      rw [hzero, Nat.zero_mul, Nat.add_zero, Nat.min_eq_right (Nat.zero_le _), Nat.add_zero]
      exact hpacked
    · rename_i hne
      rw [toNat_pack_finite s _ hlt (by omega) (by omega),
        show ((shift : ℤ) - 1074 + 1074).toNat = shift by omega]
  · simp only [shiftToTargetExponent_carry (show -1074 ≤ (shift : ℤ) - 1074 by omega)]
    rw [dif_neg (by decide), toNat_pack_finite s _ (by decide) (by omega) (by omega),
      show ((shift : ℤ) - 1074 + 1 + 1074).toNat = shift + 1 by omega,
      show (shift + 1) * 2 ^ 52 + 2 ^ 52 = shift * 2 ^ 52 + 2 ^ 53 by omega]

end Pack

/-! ### The nearest word -/

section Round

variable {m : Nat} {e : ℤ} {accuracy : Accuracy} {x : ℚ}

/-- The accuracy tells of the digits behind a mantissa and leaves the mantissa as it is. -/
theorem mantissa_ofMantissaAndAccuracy (m : Nat) (accuracy : Accuracy) :
    (ExtendedMantissa.ofMantissaAndAccuracy m accuracy).mantissa = m := by
  rcases accuracy with _ | (_ | _ | _) <;> rfl

/-- The exponent to which a mantissa is shifted. It leaves 53 digits of the mantissa, unless it
would be below the least exponent of all doubles. -/
theorem targetExponent_eq (m : Nat) (e : ℤ) :
    Format.binary64.targetExponent (totalExponent m e) = max (m.log2 + e - 52) (-1074) := by
  have hmin : Format.binary64.minExponent = -1074 := rfl
  have hbits : Format.binary64.mantissaBits = 53 := rfl
  unfold Format.targetExponent totalExponent
  omega

/-- There are as many quanta in a unit as the least exponent says. -/
theorem cast_quantaPerUnit : (quantaPerUnit : ℚ) = (2 : ℚ) ^ (1074 : ℤ) := by
  unfold quantaPerUnit
  rw [Nat.cast_pow]
  rfl

/-- A number counted in quanta, where its exponent is shifted to that of its double. -/
theorem mul_quantaPerUnit_eq {shift places : Nat} (x : ℚ) (hplaces : e + places = shift - 1074) :
    x * 2 ^ e * quantaPerUnit = x / 2 ^ places * 2 ^ shift := by
  have hsum : (2 : ℚ) ^ e * 2 ^ (1074 : ℤ) * 2 ^ (places : ℤ) = 2 ^ (shift : ℤ) := by
    rw [← zpow_add₀ two_ne_zero, ← zpow_add₀ two_ne_zero]
    congr 1
    omega
  rw [zpow_natCast, zpow_natCast, ← cast_quantaPerUnit] at hsum
  rw [← hsum]
  generalize (quantaPerUnit : ℚ) = unit
  field_simp

/-- A number shifted to the exponent of its double has 53 digits, or fewer at the least
exponent. -/
theorem shifted_bounds {shift places : Nat} (hlow : m ≤ x) (hhigh : x < m + 1)
    (hshift : (shift : ℤ) - 1074 = max (m.log2 + e - 52) (-1074))
    (hplaces : e + places = shift - 1074) :
    (shift = 0 ∨ 2 ^ 52 ≤ x / 2 ^ places) ∧ x / 2 ^ places < 2 ^ 53 := by
  have hpos : (0 : ℚ) < 2 ^ places := by positivity
  constructor
  · by_cases hzero : shift = 0
    · exact .inl hzero
    · have hlog : m.log2 = 52 + places := by omega
      have hne : m ≠ 0 := by
        rintro rfl
        rw [Nat.log2_zero] at hlog
        omega
      have hpow : 2 ^ 52 * 2 ^ places ≤ m := by
        rw [← Nat.pow_add, ← hlog]
        exact Nat.log2_self_le hne
      have hpow' : (2 ^ 52 * 2 ^ places : ℚ) ≤ m := by exact_mod_cast hpow
      rw [le_div_iff₀ hpos]
      exact .inr (hpow'.trans hlow)
  · have hpow : m + 1 ≤ 2 ^ 53 * 2 ^ places := by
      have hlog : m < 2 ^ (m.log2 + 1) := Nat.lt_log2_self
      have hle : 2 ^ (m.log2 + 1) ≤ 2 ^ (53 + places) :=
        Nat.pow_le_pow_right (by decide) (by omega)
      rw [← Nat.pow_add]
      omega
    have hpow' : (m + 1 : ℚ) ≤ 2 ^ 53 * 2 ^ places := by exact_mod_cast hpow
    rw [div_lt_iff₀ hpos]
    exact hhigh.trans_le hpow'

/-- **What is rounded is packed into the nearest word.** So every operation that hands an exact
mantissa, or one with a true remainder, to this rounding is the nearest double to its exact
value. -/
theorem toNat_pack_roundWithAccuracy (s : Sign)
    (h : Locates (.ofMantissaAndAccuracy m accuracy) x)
    (he : e ≤ max (m.log2 + e - 52) (-1074)) :
    (UnpackedFloat.pack Format.binary64
        (roundWithAccuracy Format.binary64 s m e accuracy)).toNat =
      s.toBitVec.toNat * 2 ^ 63 + ratioBits (x * 2 ^ e) := by
  obtain ⟨shift, hshift⟩ : ∃ shift : Nat, (shift : ℤ) - 1074 = max (m.log2 + e - 52) (-1074) :=
    ⟨(max (m.log2 + e - 52) (-1074) + 1074).toNat, by omega⟩
  obtain ⟨places, hplaces⟩ : ∃ places : Nat, e + places = shift - 1074 :=
    ⟨(shift - 1074 - e).toNat, by omega⟩
  have hfirst : shiftToTargetExponent Format.binary64 m e accuracy =
      (ExtendedMantissa.ofMantissaAndAccuracy m accuracy >>> places, (shift : ℤ) - 1074) := by
    unfold shiftToTargetExponent shiftToExponent
    simp only
    rw [targetExponent_eq, ← hshift, show ((shift : ℤ) - 1074 - e).toNat = places by omega, hplaces]
  obtain ⟨hlow, hhigh⟩ := h.bounds
  rw [mantissa_ofMantissaAndAccuracy] at hlow hhigh
  obtain ⟨hlarge, hsmall⟩ := shifted_bounds hlow hhigh hshift hplaces
  have hround := (h.shiftRight places).roundsTo
  generalize ExtendedMantissa.ofMantissaAndAccuracy m accuracy = em at hfirst hround
  have hpos : (0 : ℚ) < 2 ^ shift := by positivity
  have hnonneg : 0 ≤ x * 2 ^ e := by
    have hx : 0 ≤ x := (Nat.cast_nonneg m).trans hlow
    positivity
  -- the exact number, counted in units of the last digit
  have hscale := mul_quantaPerUnit_eq x hplaces
  have hword : ratioBits (x * 2 ^ e) =
      min infinityBits (shift * 2 ^ 52 + (em >>> places).roundedMantissa) := by
    apply ratioBits_eq hnonneg
    · rw [hscale]
      exact hlarge.imp_right fun hlarge => mul_le_mul_of_nonneg_right hlarge hpos.le
    · rw [hscale]
      exact mul_lt_mul_of_pos_right hsmall hpos
    · rwa [hscale, mul_div_cancel_right₀ _ hpos.ne']
  rw [hword]
  exact toNat_pack_of_shift s hfirst (hround.le_carry hsmall)
    (hlarge.imp_right hround.le_of_leading)

end Round

end LSystem.Number
