import LSystem.Proofs.Number.Mantissa

/-!
# Exact arithmetic, rounded once

The sum, the difference, the product and the quotient of finite doubles are the doubles nearest
to those of the numbers that they stand for, also where they are too small for a leading digit
or too great for a double.
-/

namespace LSystem.Number

open Float.Model Float.Model.UnpackedFloat

/-! ### What finite doubles stand for -/

section Values

variable {x : Float} {s : Sign} {m : Nat} {e : ℤ} {hm : 0 < m}

/-- A double stands for the magnitude of its word, with its sign. The signed word is zero for both
zeros, and so is the number. -/
theorem value_of_signedBits {bits : Nat} (h : signedBits x = s.apply bits) :
    value x = signed s (valueOf bits) := by
  rw [signedBits] at h
  rw [value_eq]
  split at h <;> rename_i hsign
  · rw [if_pos hsign]
    cases s with
    | positive =>
        have hzero : magnitudeBits x = 0 ∧ bits = 0 := by
          simp only [Sign.apply] at h
          omega
        rw [hzero.1, hzero.2, signed, valueOf_zero, neg_zero]
    | negative =>
        have hbits : magnitudeBits x = bits := by
          simp only [Sign.apply] at h
          omega
        rw [hbits, signed]
  · rw [if_neg hsign]
    cases s with
    | positive =>
        have hbits : magnitudeBits x = bits := by
          simp only [Sign.apply] at h
          omega
        rw [hbits, signed]
    | negative =>
        have hzero : magnitudeBits x = 0 ∧ bits = 0 := by
          simp only [Sign.apply] at h
          omega
        rw [hzero.1, hzero.2, signed, valueOf_zero, neg_zero]

/-- The magnitude of a word that is put together from a shift and a mantissa. -/
theorem valueOf_word {shift : Nat} (hlt : m < 2 ^ 53) (hnormal : shift = 0 ∨ 2 ^ 52 ≤ m) :
    valueOf (shift * 2 ^ 52 + m) = m * 2 ^ ((shift : ℤ) - 1074) := by
  have hshift : shiftOf (shift * 2 ^ 52 + m) = shift := by
    unfold shiftOf
    omega
  have hquanta : quantaOf (shift * 2 ^ 52 + m) = m * 2 ^ shift := by
    rw [quantaOf, significandOf, hshift, Nat.add_sub_cancel_left]
  rw [valueOf, hquanta, cast_quantaPerUnit, zpow_sub₀ two_ne_zero, zpow_natCast, Nat.cast_mul,
    Nat.cast_pow, Nat.cast_ofNat, mul_div_assoc]

/-- Both zeros stand for zero. The sign of a zero is lost when it becomes a number. -/
theorem value_of_unpacked_zero (h : unpacked x = .zero s) : value x = 0 := by
  have hx : IsNumber x := by
    rw [isNumber_iff, h]
    rfl
  have hplace := (place_unpacked hx).1
  rw [h] at hplace
  have hvalue : value x = signed .positive (valueOf 0) := value_of_signedBits hplace.symm
  rw [hvalue, signed, valueOf_zero]

/-- A double that the model takes for a mantissa with an exponent stands for their product, with
its sign. -/
theorem value_of_unpacked_finite (h : unpacked x = .finite s m e hm) :
    value x = signed s (m * 2 ^ e) := by
  have hx : IsNumber x := by
    rw [isNumber_iff, h]
    rfl
  obtain ⟨hplace, hfits⟩ := place_unpacked hx
  rw [h] at hplace hfits
  obtain ⟨hlt, -, hnormal⟩ := hfits
  obtain ⟨shift, rfl⟩ : ∃ shift : Nat, e = shift - 1074 := ⟨(e + 1074).toNat, by omega⟩
  have hword : ((shift : ℤ) - 1074 + 1074) * 2 ^ 52 + m = (shift * 2 ^ 52 + m : Nat) := by
    push_cast
    ring
  rw [place, hword] at hplace
  rw [value_of_signedBits hplace.symm, valueOf_word hlt (by omega)]

/-- What a finite double is to the model. -/
inductive Unpacks (x : Float) : Prop
  | zero (s : Sign) (hunpacked : unpacked x = .zero s) (hvalue : value x = 0)
  | finite (s : Sign) (m : Nat) (e : ℤ) (hm : 0 < m) (hunpacked : unpacked x = .finite s m e hm)
      (hvalue : value x = signed s (m * 2 ^ e)) (hfits : Fits (.finite s m e hm))

/-- A finite double is a zero or a mantissa with an exponent to the model, and nothing else. -/
theorem unpacks (hx : x.isFinite) : Unpacks x := by
  have hfinite : (unpacked x).isFinite = true := hx
  have hfits := (place_unpacked (.of_isFinite hx)).2
  cases hu : unpacked x with
  | notANumber | infinity s =>
      rw [hu] at hfinite
      cases hfinite
  | zero s => exact .zero s hu (value_of_unpacked_zero hu)
  | finite s m e hm =>
      rw [hu] at hfits
      exact .finite s m e hm hu (value_of_unpacked_finite hu) hfits

end Values

/-! ### Results -/

section Results

variable {z : Float} {s : Sign} {q : ℚ} {m : Nat} {e : ℤ}

/-- A double is nearest to a number when its word is. The word is that of the magnitude with the
sign bit on top, as every operation of the model puts it together. -/
theorem isNearest_of_toNat_word (hq : 0 ≤ q)
    (h : (word z).toNat = s.toBitVec.toNat * 2 ^ 63 + ratioBits q) : IsNearest z (signed s q) := by
  have hle := ratioBits_le_infinityBits q
  have hinfinity : infinityBits = 2047 * 2 ^ 52 := rfl
  have hsign : s.toBitVec.toNat = 0 ∧ s = .positive ∨ s.toBitVec.toNat = 1 ∧ s = .negative := by
    cases s with
    | positive => exact .inl ⟨rfl, rfl⟩
    | negative => exact .inr ⟨rfl, rfl⟩
  rw [toNat_word] at h
  have hmagnitude : magnitudeBits z = ratioBits q := by
    rw [magnitudeBits]
    omega
  constructor
  · rw [isNumber_iff_le, hmagnitude]
    exact hle
  · rw [nearestWord_signed s hq, signedBits, hmagnitude, isNegative]
    simp only [decide_eq_true_eq]
    rcases hsign with ⟨hzero, rfl⟩ | ⟨hone, rfl⟩
    · rw [if_neg (by omega), Sign.apply]
    · rw [if_pos (by omega), Sign.apply]

/-- A double whose word is packed from a mantissa that fits is nearest to the number, because it
stands for it exactly. -/
theorem isNearest_of_word_eq_pack_finite {hm : 0 < m} (hfits : Fits (.finite s m e hm))
    (h : word z = UnpackedFloat.pack Format.binary64 (.finite s m e hm)) :
    IsNearest z (signed s (m * 2 ^ e)) := by
  obtain ⟨hlt, hle, hnormal⟩ := hfits
  apply isNearest_of_toNat_word (by positivity)
  rw [h, toNat_pack_finite s hm hlt (by omega) (by omega)]
  obtain ⟨shift, rfl⟩ : ∃ shift : Nat, e = shift - 1074 := ⟨(e + 1074).toNat, by omega⟩
  have hinfinity : infinityBits = 2047 * 2 ^ 52 := rfl
  have hbits : shift * 2 ^ 52 + m ≤ infinityBits := by omega
  rw [show ((shift : ℤ) - 1074 + 1074).toNat = shift by omega, Nat.min_eq_right hbits,
    ← valueOf_word hlt (by omega), ratioBits_valueOf hbits]

/-- A double whose word is packed from a zero is nearest to zero, of either sign. -/
theorem isNearest_of_word_eq_pack_zero
    (h : word z = UnpackedFloat.pack Format.binary64 (.zero s)) : IsNearest z 0 := by
  have hpacked := toNat_packComponents s 0#11 0#52
  rw [BitVec.toNat_zero, BitVec.toNat_zero, Nat.zero_mul, Nat.add_zero] at hpacked
  have hword : (word z).toNat = s.toBitVec.toNat * 2 ^ 63 + ratioBits 0 := by
    rw [h, ratioBits_zero, Nat.add_zero]
    exact hpacked
  have hnearest := isNearest_of_toNat_word (le_refl 0) hword
  cases s with
  | positive => exact hnearest
  | negative =>
      rw [signed, neg_zero] at hnearest
      exact hnearest

/-- A shift to the left counts as many digits more. The mantissa of a double is moved to the left
so that two numbers can be added at one exponent. -/
theorem log2_shiftLeft {places : Nat} (hm : 0 < m) : (m <<< places).log2 = m.log2 + places := by
  have hpos : 0 < m * 2 ^ places := Nat.mul_pos hm (Nat.pow_pos (by decide))
  rw [Nat.shiftLeft_eq, Nat.log2_eq_iff hpos.ne', Nat.pow_succ, Nat.pow_add]
  constructor
  · exact Nat.mul_le_mul_right _ (Nat.log2_self_le hm.ne')
  · rw [Nat.mul_assoc, Nat.mul_comm (2 ^ places), ← Nat.mul_assoc, ← Nat.pow_succ]
    exact Nat.mul_lt_mul_of_pos_right Nat.lt_log2_self (Nat.pow_pos (by decide))

/-- A mantissa is moved to the exponent at which it is rounded. The exponent is the greater of the
least one and the one that leaves 53 digits. -/
theorem toNat_pack_round (s : Sign) (hm : 0 < m) :
    (UnpackedFloat.pack Format.binary64 (UnpackedFloat.round Format.binary64 s m e)).toNat =
      s.toBitVec.toNat * 2 ^ 63 + ratioBits (m * 2 ^ e) := by
  obtain ⟨places, hplaces⟩ : ∃ places : Nat,
      (e - Format.binary64.targetExponent (totalExponent m e)).toNat = places := ⟨_, rfl⟩
  have hlog : (m <<< places).log2 = m.log2 + places := log2_shiftLeft hm
  have hvalue : ((m <<< places : Nat) : ℚ) * 2 ^ (e - places) = m * 2 ^ e := by
    rw [Nat.shiftLeft_eq, zpow_sub₀ two_ne_zero, zpow_natCast]
    push_cast
    field_simp
  unfold UnpackedFloat.round decreaseExponent
  simp only
  rw [hplaces, ← hvalue]
  rw [targetExponent_eq] at hplaces
  apply toNat_pack_roundWithAccuracy s (.exact _)
  omega

/-- A whole number with an exponent is normalized to a mantissa that is rounded once, so the word
that is packed from it is that of the nearest double. -/
theorem isNearest_of_word_eq_pack_normalize {n : ℤ}
    (h : word z = UnpackedFloat.pack Format.binary64
      (UnpackedFloat.normalize Format.binary64 n e s)) : IsNearest z (n * 2 ^ e) := by
  unfold UnpackedFloat.normalize at h
  rcases Int.lt_trichotomy n 0 with hn | rfl | hn
  · rw [Int.compare_eq_lt.2 hn] at h
    have hcast : ((-n).toNat : ℚ) = -n := by
      rw [← Int.cast_natCast, Int.toNat_of_nonneg (by omega), Int.cast_neg]
    have hnearest := isNearest_of_toNat_word (by positivity)
      ((congrArg BitVec.toNat h).trans (toNat_pack_round .negative (by omega)))
    rw [signed, hcast, neg_mul, neg_neg] at hnearest
    exact hnearest
  · rw [Int.compare_eq_eq.2 rfl] at h
    rw [Int.cast_zero, zero_mul]
    exact isNearest_of_word_eq_pack_zero h
  · rw [Int.compare_eq_gt.2 hn] at h
    have hcast : (n.toNat : ℚ) = n := by
      rw [← Int.cast_natCast, Int.toNat_of_nonneg (by omega)]
    have hnearest := isNearest_of_toNat_word (by positivity)
      ((congrArg BitVec.toNat h).trans (toNat_pack_round .positive (by omega)))
    rw [signed, hcast] at hnearest
    exact hnearest

end Results

/-! ### Operations -/

section Operations

variable {x y : Float}

/-- The word of a sum is packed from the sum of the model. -/
theorem word_add (x y : Float) : word (x + y) = UnpackedFloat.pack Format.binary64
    (UnpackedFloat.add Format.binary64 (unpacked x) (unpacked y)) := rfl

/-- The word of a difference is packed from the difference of the model. -/
theorem word_sub (x y : Float) : word (x - y) = UnpackedFloat.pack Format.binary64
    (UnpackedFloat.sub Format.binary64 (unpacked x) (unpacked y)) := rfl

/-- The word of a product is packed from the product of the model. -/
theorem word_mul (x y : Float) : word (x * y) = UnpackedFloat.pack Format.binary64
    (UnpackedFloat.mul Format.binary64 (unpacked x) (unpacked y)) := rfl

/-- The word of a quotient is packed from the quotient of the model. -/
theorem word_div (x y : Float) : word (x / y) = UnpackedFloat.pack Format.binary64
    (UnpackedFloat.div Format.binary64 (unpacked x) (unpacked y)) := rfl

/-- A signed mantissa stands for the same number at a smaller exponent: what the exponent loses
the mantissa has in zeros at its end. -/
theorem apply_decreaseExponent (s : Sign) (m : Nat) {e target : ℤ} (hle : target ≤ e) :
    (s.apply (decreaseExponent m e target).1 : ℚ) * 2 ^ target = signed s (m * 2 ^ e) := by
  obtain ⟨places, rfl⟩ : ∃ places : Nat, e = target + places := ⟨(e - target).toNat, by omega⟩
  have hmantissa : (decreaseExponent m (target + places) target).1 = m * 2 ^ places := by
    rw [decreaseExponent]
    simp only
    rw [show (target + places - target).toNat = places by omega, Nat.shiftLeft_eq]
  have hvalue : ((m * 2 ^ places : Nat) : ℚ) * 2 ^ target = m * 2 ^ (target + places) := by
    rw [zpow_add₀ two_ne_zero, zpow_natCast]
    push_cast
    ring
  rw [hmantissa, ← hvalue]
  cases s with
  | positive => rfl
  | negative =>
      rw [Sign.apply, signed, Int.cast_neg, Int.cast_natCast, neg_mul]

/-- The other sign makes the opposite number. -/
theorem signed_neg (s : Sign) (q : ℚ) : signed (-s) q = -signed s q := by
  cases s with
  | positive => rfl
  | negative => exact (neg_neg q).symm

/-- **Sums are rounded once.** The model adds the two mantissas exactly at the smaller exponent,
with their signs, and rounds only what comes of it. -/
theorem isNearest_add (hx : x.isFinite) (hy : y.isFinite) :
    IsNearest (x + y) (value x + value y) := by
  have hword := word_add x y
  rcases unpacks hx with ⟨s, hux, hvx⟩ | ⟨s, m, e, hm, hux, hvx, hfits⟩ <;>
    rcases unpacks hy with ⟨s', huy, hvy⟩ | ⟨s', m', e', hm', huy, hvy, hfits'⟩ <;>
    rw [hux, huy] at hword <;> rw [hvx, hvy]
  · rw [add_zero]
    rw [UnpackedFloat.add] at hword
    split at hword <;> exact isNearest_of_word_eq_pack_zero hword
  · rw [zero_add]
    exact isNearest_of_word_eq_pack_finite hfits' hword
  · rw [add_zero]
    exact isNearest_of_word_eq_pack_finite hfits hword
  · rw [← apply_decreaseExponent s m (min_le_left e e'),
      ← apply_decreaseExponent s' m' (min_le_right e e'), ← add_mul, ← Int.cast_add]
    exact isNearest_of_word_eq_pack_normalize hword

/-- **Differences are rounded once.** A difference is the sum with the opposite number, whose word
differs in its sign bit. -/
theorem isNearest_sub (hx : x.isFinite) (hy : y.isFinite) :
    IsNearest (x - y) (value x - value y) := by
  have hword := word_sub x y
  rcases unpacks hx with ⟨s, hux, hvx⟩ | ⟨s, m, e, hm, hux, hvx, hfits⟩ <;>
    rcases unpacks hy with ⟨s', huy, hvy⟩ | ⟨s', m', e', hm', huy, hvy, hfits'⟩ <;>
    rw [hux, huy] at hword <;> rw [hvx, hvy]
  · rw [sub_zero]
    rw [UnpackedFloat.sub] at hword
    split at hword <;> exact isNearest_of_word_eq_pack_zero hword
  · rw [zero_sub, ← signed_neg]
    have hfits'' : Fits (.finite (-s') m' e' hm') := hfits'
    exact isNearest_of_word_eq_pack_finite hfits'' hword
  · rw [sub_zero]
    exact isNearest_of_word_eq_pack_finite hfits hword
  · rw [← apply_decreaseExponent s m (min_le_left e e'),
      ← apply_decreaseExponent s' m' (min_le_right e e'), ← sub_mul, ← Int.cast_sub]
    exact isNearest_of_word_eq_pack_normalize hword

/-- Signs multiply like the numbers that have them. So the sign of a product can be settled apart
from its magnitude. -/
theorem signed_mul (s s' : Sign) (q r : ℚ) :
    signed s q * signed s' r = signed (s * s') (q * r) := by
  cases s with
  | positive =>
      cases s' with
      | positive => rfl
      | negative => exact mul_neg q r
  | negative =>
      cases s' with
      | positive => exact neg_mul q r
      | negative => exact neg_mul_neg q r

/-- The product of two mantissas has enough digits to be rounded, unless one of them has the
least exponent. -/
theorem mul_exponent_le {m m' : Nat} {e e' : ℤ} {hm : 0 < m} {hm' : 0 < m'} {s s' : Sign}
    (hfits : Fits (.finite s m e hm)) (hfits' : Fits (.finite s' m' e' hm')) :
    e + e' ≤ max ((m * m').log2 + (e + e') - 52) (-1074) := by
  have hlarge {k l : Nat} (hk : 2 ^ 52 ≤ k) (hl : 0 < l) : 52 ≤ (k * l).log2 := by
    have hpos : 0 < k * l := Nat.mul_pos (by omega) hl
    exact (Nat.le_log2 hpos.ne').2 (hk.trans (Nat.le_mul_of_pos_right k hl))
  obtain ⟨-, -, hnormal⟩ := hfits
  obtain ⟨-, -, hnormal'⟩ := hfits'
  rcases hnormal with rfl | ⟨-, hnormal⟩
  · rcases hnormal' with rfl | ⟨-, hnormal'⟩
    · omega
    · have hlog := hlarge hnormal' hm
      rw [Nat.mul_comm] at hlog
      omega
  · have hlog := hlarge hnormal hm'
    omega

/-- **Products are rounded once.** The product of the mantissas is exact, and their exponents add
up. -/
theorem isNearest_mul (hx : x.isFinite) (hy : y.isFinite) :
    IsNearest (x * y) (value x * value y) := by
  have hword := word_mul x y
  rcases unpacks hx with ⟨s, hux, hvx⟩ | ⟨s, m, e, hm, hux, hvx, hfits⟩ <;>
    rcases unpacks hy with ⟨s', huy, hvy⟩ | ⟨s', m', e', hm', huy, hvy, hfits'⟩ <;>
    rw [hux, huy] at hword <;> rw [hvx, hvy]
  · rw [mul_zero]
    exact isNearest_of_word_eq_pack_zero hword
  · rw [zero_mul]
    exact isNearest_of_word_eq_pack_zero hword
  · rw [mul_zero]
    exact isNearest_of_word_eq_pack_zero hword
  · have hvalue : ((m * m' : Nat) : ℚ) * 2 ^ (e + e') = m * 2 ^ e * (m' * 2 ^ e') := by
      rw [zpow_add₀ two_ne_zero]
      push_cast
      ring
    rw [signed_mul, ← hvalue]
    exact isNearest_of_toNat_word (by positivity) ((congrArg BitVec.toNat hword).trans
      (toNat_pack_roundWithAccuracy _ (.exact _) (mul_exponent_le hfits hfits')))

/-- Signs divide like the numbers that have them. So can that of a quotient. -/
theorem signed_div (s s' : Sign) (q r : ℚ) :
    signed s q / signed s' r = signed (s / s') (q / r) := by
  cases s with
  | positive =>
      cases s' with
      | positive => rfl
      | negative => exact div_neg q
  | negative =>
      cases s' with
      | positive => exact neg_div r q
      | negative => exact neg_div_neg_eq q r

/-- The quotient of two mantissas, taken at the exponent that the division chooses, has enough
digits to be rounded. -/
theorem div_exponent_le {m m' : Nat} {e e' target : ℤ} {places : Nat} (hm : 0 < m) (hm' : 0 < m')
    (htarget : target = min (e - e')
      (Format.binary64.targetExponent (totalExponent m e - totalExponent m' e')))
    (hplaces : target + places = e - e') :
    target ≤ max ((m <<< places / m').log2 + target - 52) (-1074) := by
  have hmin : Format.binary64.minExponent = -1074 := rfl
  have hbits : Format.binary64.mantissaBits = 53 := rfl
  unfold Format.targetExponent totalExponent at htarget
  by_cases hleast : target ≤ -1074
  · omega
  · have hlarge : m'.log2 + 1 + 52 ≤ m.log2 + places := by omega
    have hquotient : 2 ^ 52 ≤ m <<< places / m' := by
      rw [Nat.le_div_iff_mul_le hm', Nat.shiftLeft_eq]
      calc 2 ^ 52 * m' ≤ 2 ^ 52 * 2 ^ (m'.log2 + 1) :=
            Nat.mul_le_mul_left _ Nat.lt_log2_self.le
        _ = 2 ^ (m'.log2 + 1 + 52) := by rw [← Nat.pow_add, Nat.add_comm]
        _ ≤ 2 ^ (m.log2 + places) := Nat.pow_le_pow_right (by decide) hlarge
        _ = 2 ^ m.log2 * 2 ^ places := Nat.pow_add ..
        _ ≤ m * 2 ^ places := Nat.mul_le_mul_right _ (Nat.log2_self_le hm.ne')
    have hlog : 52 ≤ (m <<< places / m').log2 :=
      (Nat.le_log2 (by omega)).2 hquotient
    omega

/-- **Quotients are rounded once.** The quotient of the mantissas has a remainder, which tells
only on which side of a halfway point the exact value lies, and that is enough for rounding. -/
theorem isNearest_div (hx : x.isFinite) (hy : y.isFinite) (hzero : value y ≠ 0) :
    IsNearest (x / y) (value x / value y) := by
  have hword := word_div x y
  rcases unpacks hy with ⟨s', huy, hvy⟩ | ⟨s', m', e', hm', huy, hvy, hfits'⟩
  · exact absurd hvy hzero
  rcases unpacks hx with ⟨s, hux, hvx⟩ | ⟨s, m, e, hm, hux, hvx, hfits⟩ <;>
    rw [hux, huy] at hword <;> rw [hvx]
  · rw [zero_div]
    exact isNearest_of_word_eq_pack_zero hword
  · obtain ⟨target, htarget⟩ : ∃ target, target = min (e - e')
        (Format.binary64.targetExponent (totalExponent m e - totalExponent m' e')) := ⟨_, rfl⟩
    obtain ⟨places, hplaces⟩ : ∃ places : Nat, target + places = e - e' :=
      ⟨(e - e' - target).toNat, by omega⟩
    have hcore : divCore Format.binary64 m e m' e' = (m <<< places / m', target,
        accuracyOfFraction (m <<< places % m') m') := by
      unfold divCore
      simp only
      rw [← htarget, show (e - e' - target).toNat = places by omega]
    have hvalue : ((m <<< places : Nat) : ℚ) / m' * 2 ^ target = m * 2 ^ e / (m' * 2 ^ e') := by
      have hpower : (2 : ℚ) ^ places * 2 ^ target * 2 ^ e' = 2 ^ e := by
        rw [← zpow_natCast, ← zpow_add₀ two_ne_zero, ← zpow_add₀ two_ne_zero]
        congr 1
        omega
      have hne : (m' : ℚ) ≠ 0 := Nat.cast_ne_zero.2 hm'.ne'
      have hne' : (2 : ℚ) ^ e' ≠ 0 := zpow_ne_zero _ two_ne_zero
      rw [Nat.shiftLeft_eq, ← hpower, Nat.cast_mul, Nat.cast_pow, Nat.cast_ofNat]
      field_simp
    rw [UnpackedFloat.div, hcore] at hword
    rw [hvy, signed_div, ← hvalue]
    exact isNearest_of_toNat_word (by positivity) ((congrArg BitVec.toNat hword).trans
      (toNat_pack_roundWithAccuracy _ (.ofFraction _ hm')
        (div_exponent_le hm hm' htarget hplaces)))

end Operations

/-! ### Exact results -/

section Exact

variable {x z : Float} {q : ℚ} {m shift bits : Nat}

theorem value_zero : value 0 = 0 := by
  have hword : signedBits 0 = Sign.positive.apply 0 := rfl
  rw [value_of_signedBits hword, signed, valueOf_zero]

/-- What is nearest to a number that is not below zero has the word of this number. -/
theorem IsNearest.value_of_nonneg (h : IsNearest z q) (hq : 0 ≤ q) :
    value z = valueOf (ratioBits q) := by
  have hword := h.word
  rw [nearestWord_of_nonneg hq] at hword
  exact value_of_signedBits (s := .positive) hword

/-- What is nearest to a finite double stands for the same number. -/
theorem IsNearest.of_value (h : IsNearest z (value x)) (hx : x.isFinite) :
    z.isFinite ∧ value z = value x := by
  have hword := h.word
  rw [nearestWord_value hx] at hword
  obtain ⟨-, hlow, hhigh⟩ := isFinite_iff_signedBits.1 hx
  refine ⟨isFinite_iff_signedBits.2 ⟨h.number, by omega, by omega⟩, ?_⟩
  apply le_antisymm
  · exact signedBits_le_iff.1 hword.le
  · exact signedBits_le_iff.1 hword.ge

/-- Every number of at most 53 digits is the magnitude of a word, whatever its shift. -/
theorem exists_valueOf_eq (shift : Nat) :
    ∀ {m : Nat}, m < 2 ^ 53 → ∃ bits, valueOf bits = m * 2 ^ ((shift : ℤ) - 1074) := by
  induction shift with
  | zero => exact fun {m} hlt => ⟨0 * 2 ^ 52 + m, valueOf_word hlt (.inl rfl)⟩
  | succ shift ih =>
      intro m hlt
      by_cases hnormal : 2 ^ 52 ≤ m
      · exact ⟨_, valueOf_word hlt (.inr hnormal)⟩
      · obtain ⟨bits, hbits⟩ := ih (show 2 * m < 2 ^ 53 by omega)
        refine ⟨bits, ?_⟩
        rw [hbits, show ((shift + 1 : Nat) : ℤ) - 1074 = shift - 1074 + 1 by omega,
          zpow_add_one₀ two_ne_zero]
        push_cast
        ring

/-- The word of infinity, read as that of a number, would stand for the power of two above all
doubles; at half a unit below it rounding overflows. -/
theorem valueOf_infinityBits : valueOf infinityBits = 2 ^ 53 * 2 ^ (971 : ℤ) := by
  have hword : valueOf (2046 * 2 ^ 52 + 2 ^ 52) = _ := valueOf_word (by decide) (.inr (le_refl _))
  rw [show 2046 * 2 ^ 52 + 2 ^ 52 = infinityBits from rfl] at hword
  rw [hword, show ((2046 : Nat) : ℤ) - 1074 = 971 + 1 from rfl, zpow_add_one₀ two_ne_zero]
  generalize (2 : ℚ) ^ (971 : ℤ) = power
  push_cast
  ring

/-- What is nearest to the magnitude of a word has that word. -/
theorem IsNearest.of_valueOf (h : IsNearest z (valueOf bits)) (hlt : bits < infinityBits) :
    z.isFinite ∧ value z = valueOf bits := by
  have hword := h.word
  rw [nearestWord_of_nonneg (valueOf_nonneg bits), ratioBits_valueOf hlt.le] at hword
  refine ⟨isFinite_iff_signedBits.2 ⟨h.number, by omega, by omega⟩, ?_⟩
  exact value_of_signedBits (s := .positive) hword

/-- A number of at most 53 digits is not rounded. It stands on the grid of the doubles of its size
already. -/
theorem IsNearest.exact (h : IsNearest z (m * 2 ^ ((shift : ℤ) - 1074))) (hm : m < 2 ^ 53)
    (hshift : shift ≤ 2045) : z.isFinite ∧ value z = m * 2 ^ ((shift : ℤ) - 1074) := by
  obtain ⟨bits, hbits⟩ := exists_valueOf_eq shift hm
  rw [← hbits] at h ⊢
  apply h.of_valueOf
  apply valueOf_strictMono.lt_iff_lt.1
  rw [hbits, valueOf_infinityBits]
  have hm' : (m : ℚ) < 2 ^ 53 := by exact_mod_cast hm
  calc (m : ℚ) * 2 ^ ((shift : ℤ) - 1074) < 2 ^ 53 * 2 ^ ((shift : ℤ) - 1074) :=
        mul_lt_mul_of_pos_right hm' (by positivity)
    _ ≤ 2 ^ 53 * 2 ^ (971 : ℤ) :=
        mul_le_mul_of_nonneg_left (zpow_le_zpow_right₀ one_le_two (by omega)) (by positivity)

/-- A whole number is rounded once. Up to 53 digits it is not even that. -/
theorem isNearest_toFloat (n : UInt64) : IsNearest n.toFloat n.toNat := by
  have hword : word n.toFloat = UnpackedFloat.pack Format.binary64
      (UnpackedFloat.normalize Format.binary64 n.toNat 0 .positive) := rfl
  have hnearest := isNearest_of_word_eq_pack_normalize hword
  rw [zpow_zero, mul_one, Int.cast_natCast] at hnearest
  exact hnearest

end Exact

end LSystem.Number
