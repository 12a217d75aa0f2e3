import LSystem.Number.Binary64
import Mathlib

/-!
# Doubles and their words

A double is its word: taken apart into sign, exponent and mantissa and put
together again, a word is what it was, unless it is one of the many that stand
for no number.  So two doubles are equal when their words are, and every word up
to that of infinity is the word of a double.
-/

namespace LSystem.Number

open Float.Model Float.Model.UnpackedFloat

/-! ### Words taken apart -/

section Parts

variable (b : BitVec Format.binary64.numBits)

/-- The mantissa of a word is its lowest 52 bits, as a remainder of the whole word. -/
theorem toNat_unpackMantissa : (unpackMantissa b).toNat = b.toNat % 2 ^ 52 := by
  simp [unpackMantissa]

/-- The exponent of a word is the eleven bits above the mantissa, as a quotient cut to eleven
bits. -/
theorem toNat_unpackExponent : (unpackExponent b).toNat = b.toNat / 2 ^ 52 % 2 ^ 11 := by
  simp [unpackExponent, Nat.shiftRight_eq_div_pow]

/-- The sign of a word is its highest bit, which is all that is left after dividing by `2 ^
63`. -/
theorem toNat_unpackSign : (unpackSign b).toNat = b.toNat / 2 ^ 63 := by
  have hlt : b.toNat < 2 ^ 64 := b.isLt
  simp only [unpackSign, BitVec.toNat_cast, BitVec.extractLsb_toNat, Nat.shiftRight_eq_div_pow]
  omega

/-- A word put together from sign, exponent and mantissa is the sum of the three, each in its
place. -/
theorem toNat_packComponents (sign : Sign) (exponent : BitVec 11) (mantissa : BitVec 52) :
    (packComponents Format.binary64 sign exponent mantissa).toNat =
      sign.toBitVec.toNat * 2 ^ 63 + exponent.toNat * 2 ^ 52 + mantissa.toNat := by
  have hexponent := exponent.isLt
  have hmantissa := mantissa.isLt
  simp only [packComponents, BitVec.toNat_append]
  rw [← Nat.shiftLeft_add_eq_or_of_lt hmantissa, ← Nat.shiftLeft_add_eq_or_of_lt hexponent]
  simp only [Nat.shiftLeft_eq]
  omega

theorem toBitVec_ofBitVec (s : BitVec 1) : (Sign.ofBitVec s).toBitVec = s := by
  rcases BitVec.eq_zero_or_eq_one s with rfl | rfl <;> rfl

/-- The parts of a word make up the word. -/
theorem packComponents_unpack :
    packComponents Format.binary64 (Sign.ofBitVec (unpackSign b)) (unpackExponent b)
      (unpackMantissa b) = b := by
  apply BitVec.eq_of_toNat_eq
  rw [toNat_packComponents, toBitVec_ofBitVec, toNat_unpackSign, toNat_unpackExponent,
    toNat_unpackMantissa]
  omega

end Parts

/-! ### What a word stands for -/

/-- The exponent field of a word. -/
def exponentField (b : BitVec 64) : Nat := b.toNat / 2 ^ 52 % 2 ^ 11

/-- The mantissa field of a word. -/
def mantissaField (b : BitVec 64) : Nat := b.toNat % 2 ^ 52

/-- The sign of a word. -/
def signField (b : BitVec 64) : Sign := Sign.ofBitVec (@unpackSign Format.binary64 b)

/-- What a word stands for, by its fields. -/
inductive Stands (b : BitVec 64) : UnpackedFloat → Prop
  | infinity (he : exponentField b = 2047) (hm : mantissaField b = 0) :
      Stands b (.infinity (signField b))
  | notANumber (he : exponentField b = 2047) (hm : mantissaField b ≠ 0) : Stands b .notANumber
  | zero (he : exponentField b = 0) (hm : mantissaField b = 0) : Stands b (.zero (signField b))
  | subnormal (he : exponentField b = 0) (hm : 0 < mantissaField b) :
      Stands b (.finite (signField b) (mantissaField b) (-1074) hm)
  | normal (hpos : 0 < exponentField b) (hlt : exponentField b < 2047)
      (hm : 0 < 2 ^ 52 + mantissaField b) :
      Stands b (.finite (signField b) (2 ^ 52 + mantissaField b) (exponentField b - 1075) hm)

/-- Comparing the exponent of a word as a bit vector is comparing its exponent field as a
number. -/
theorem unpackExponent_eq_iff (b : BitVec Format.binary64.numBits) (e : BitVec 11) :
    unpackExponent b = e ↔ exponentField b = e.toNat := by
  rw [← BitVec.toNat_inj, toNat_unpackExponent, exponentField]

/-- Comparing the mantissa of a word as a bit vector is comparing its mantissa field as a
number. -/
theorem unpackMantissa_eq_iff (b : BitVec Format.binary64.numBits) (m : BitVec 52) :
    unpackMantissa b = m ↔ mantissaField b = m.toNat := by
  rw [← BitVec.toNat_inj, toNat_unpackMantissa, mantissaField]

/-- The model reads a word by its fields. It splits on the exponent, which is full, zero or
between, and then on the mantissa. -/
theorem stands_unpack (b : BitVec 64) : Stands b (UnpackedFloat.unpack Format.binary64 b) := by
  have hexponent : exponentField b < 2 ^ 11 := Nat.mod_lt _ (by decide)
  have hbias : Format.binary64.exponentBias = 1023 := rfl
  unfold UnpackedFloat.unpack
  simp only
  split
  · rename_i he
    rw [unpackExponent_eq_iff] at he
    split
    · rename_i hm
      rw [unpackMantissa_eq_iff] at hm
      exact .infinity he hm
    · rename_i hm
      rw [unpackMantissa_eq_iff] at hm
      exact .notANumber he hm
  · rename_i he
    rw [unpackExponent_eq_iff] at he
    split
    · rename_i he
      rw [unpackExponent_eq_iff] at he
      split
      · rename_i hm
        rw [unpackMantissa_eq_iff] at hm
        exact .zero he hm
      · rename_i hm
        rw [unpackMantissa_eq_iff] at hm
        have hpos : 0 < mantissaField b := Nat.pos_of_ne_zero hm
        have hzero : (@unpackExponent Format.binary64 b).toNat = 0 :=
          (toNat_unpackExponent b).trans he
        convert Stands.subnormal he hpos using 2
        · rfl
        · exact toNat_unpackMantissa b
        · rw [hzero, hbias]
          rfl
    · rename_i hne
      rw [unpackExponent_eq_iff] at hne
      have hpos : 0 < exponentField b := Nat.pos_of_ne_zero hne
      have hlt : exponentField b < 2047 := by
        have hmax : exponentField b ≠ 2047 := he
        omega
      convert Stands.normal hpos hlt (by omega) using 2
      · rfl
      · rw [BitVec.toNat_append, ← Nat.shiftLeft_add_eq_or_of_lt (BitVec.isLt _),
          toNat_unpackMantissa]
        rfl
      · rw [toNat_unpackExponent, hbias]
        rfl

/-- Whether a word stands for a number or an infinity. -/
def Meaningful (b : BitVec 64) : Prop := exponentField b = 2047 → mantissaField b = 0

/-- A word is put together again from its fields. -/
theorem packComponents_fields {b : BitVec 64} {e : BitVec 11} {m : BitVec 52}
    (he : exponentField b = e.toNat) (hm : mantissaField b = m.toNat) :
    packComponents Format.binary64 (signField b) e m = b := by
  have hexponent : @unpackExponent Format.binary64 b = e :=
    (unpackExponent_eq_iff b e).2 he
  have hmantissa : @unpackMantissa Format.binary64 b = m :=
    (unpackMantissa_eq_iff b m).2 hm
  rw [signField, ← hexponent, ← hmantissa]
  exact packComponents_unpack b

/-- What a word stands for is packed into the same word. Only words that stand for no number are
left out, which are all packed into one. -/
theorem Stands.pack_eq {b : BitVec 64} {u : UnpackedFloat} (h : Stands b u)
    (hb : Format.binary64.Valid b) : UnpackedFloat.pack Format.binary64 u = b := by
  have hmantissa : mantissaField b < 2 ^ 52 := Nat.mod_lt _ (by decide)
  have hbias : Format.binary64.exponentBias = 1023 := rfl
  have hbits : Format.binary64.mantissaBits = 53 := rfl
  cases h with
  | infinity he hm => exact packComponents_fields (e := -1#11) (m := 0) he hm
  | notANumber he hm =>
      refine (hb.eq_packedNaN ?_ ?_).symm
      · exact (unpackExponent_eq_iff b _).2 he
      · intro h
        exact hm ((unpackMantissa_eq_iff b _).1 h)
  | zero he hm => exact packComponents_fields (e := 0) (m := 0) he hm
  | subnormal he hm =>
      have hlog : (mantissaField b).log2 < 52 := (Nat.log2_lt (by omega)).2 hmantissa
      simp only [UnpackedFloat.pack, hbias, hbits]
      rw [if_neg (by decide), if_neg (by omega)]
      refine packComponents_fields (e := 0) he ?_
      rw [BitVec.toNat_ofNat, Nat.mod_eq_of_lt hmantissa]
  | normal hpos hlt hm =>
      have hlow : 52 ≤ (2 ^ 52 + mantissaField b).log2 := (Nat.le_log2 (by omega)).2 (by omega)
      have hhigh : (2 ^ 52 + mantissaField b).log2 < 53 := (Nat.log2_lt (by omega)).2 (by omega)
      have hbiased : ((exponentField b : Int) - 1075 + (1023 : Nat) + (52 : Nat)).toNat =
          exponentField b := by omega
      simp only [UnpackedFloat.pack, hbias, hbits, hbiased]
      rw [if_neg (by omega), if_pos (by omega)]
      refine packComponents_fields ?_ ?_
      · rw [BitVec.toNat_ofNat, Nat.mod_eq_of_lt (by omega)]
      · rw [BitVec.toNat_ofNat]
        omega

/-- A word that is not one of the many `NaN`s is one that the model accepts as valid. -/
theorem valid_of_meaningful {b : BitVec 64} (h : Meaningful b) : Format.binary64.Valid b := by
  refine ⟨fun he hm => absurd ?_ hm⟩
  exact (unpackMantissa_eq_iff b _).2 (h ((unpackExponent_eq_iff b _).1 he))

/-! ### Doubles -/

/-- The word of a double. -/
def word (x : Float) : BitVec 64 := x.toBits.toBitVec

theorem toNat_word (x : Float) : (word x).toNat = x.toBits.toNat := rfl

/-- What a double is to the model. -/
def unpacked (x : Float) : UnpackedFloat := UnpackedFloat.unpack Format.binary64 (word x)

/-- What a double is to the model is what its word stands for, so a case split over the fields of
the word covers every double. -/
theorem stands_unpacked (x : Float) : Stands (word x) (unpacked x) := stands_unpack _

/-- A double taken apart and packed again has the word it had: the doubles of the language keep
only valid words. -/
theorem pack_unpacked (x : Float) : UnpackedFloat.pack Format.binary64 (unpacked x) = word x :=
  (stands_unpacked x).pack_eq x.toModel.valid

/-- **A double is its word.** Two doubles with the same bits are the same, and so nothing about a
double is hidden from its word. -/
theorem ofBits_toBits (x : Float) : Float.ofBits x.toBits = x := by
  have hbits : (Float.Model.ofBits x.toBits).toBits = x.toModel.toBits := by
    apply UInt64.toBitVec_inj.1
    exact pack_unpacked x
  have hmodel : Float.Model.ofBits x.toBits = x.toModel := by
    cases hx : Float.Model.ofBits x.toBits
    cases hy : x.toModel
    rw [hx, hy] at hbits
    simp only at hbits
    subst hbits
    rfl
  change Float.ofModel (Float.Model.ofBits x.toBits) = x
  rw [hmodel]

/-- Doubles are equal when the model takes them for the same. -/
theorem eq_of_unpacked_eq {x y : Float} (h : unpacked x = unpacked y) : x = y := by
  have hword : word x = word y := by rw [← pack_unpacked x, ← pack_unpacked y, h]
  have hbits : x.toBits = y.toBits := UInt64.toBitVec_inj.1 hword
  rw [← ofBits_toBits x, ← ofBits_toBits y, hbits]

/-- A word that means something is the word of its double. -/
theorem toBits_ofBits {w : UInt64} (h : Meaningful w.toBitVec) : (Float.ofBits w).toBits = w := by
  apply UInt64.toBitVec_inj.1
  exact (stands_unpack w.toBitVec).pack_eq (valid_of_meaningful h)

/-! ### Magnitudes -/

/-- The exponent field can be read off the magnitude, since the sign bit lies above it. -/
theorem exponentField_word (x : Float) : exponentField (word x) = magnitudeBits x / 2 ^ 52 := by
  rw [exponentField, toNat_word, magnitudeBits]
  omega

/-- A double whose sign bit is clear has the positive sign in its word. -/
theorem signField_word {x : Float} (h : isNegative x = false) :
    signField (word x) = .positive := by
  have hsign : (@unpackSign Format.binary64 (word x)).toNat = 0 := by
    have hlt : ¬ 2 ^ 63 ≤ x.toBits.toNat := by simpa [isNegative] using h
    rw [toNat_unpackSign, toNat_word]
    omega
  have hzero : @unpackSign Format.binary64 (word x) = 0#1 := by
    rw [← BitVec.toNat_inj]
    exact hsign
  rw [signField, hzero]
  rfl

/-- The finite doubles are those with a word below that of infinity. Beyond it the exponent is
full, which no finite double has. -/
theorem isFinite_iff (x : Float) : x.isFinite ↔ magnitudeBits x < infinityBits := by
  have hfield := exponentField_word x
  have hinfinity : infinityBits = 2047 * 2 ^ 52 := rfl
  have hfinite : x.isFinite = (unpacked x).isFinite := rfl
  have hstands := stands_unpacked x
  rw [hfinite]
  generalize unpacked x = u at hstands ⊢
  cases hstands with
  | infinity he _ =>
      simp only [UnpackedFloat.isFinite, Bool.false_eq_true, false_iff]
      omega
  | notANumber he _ =>
      simp only [UnpackedFloat.isFinite, Bool.false_eq_true, false_iff]
      omega
  | zero he _ =>
      simp only [UnpackedFloat.isFinite, true_iff]
      omega
  | subnormal he _ =>
      simp only [UnpackedFloat.isFinite, true_iff]
      omega
  | normal _ hlt _ =>
      simp only [UnpackedFloat.isFinite, true_iff]
      omega

/-- A double without a sign is that of its magnitude. The magnitude is the whole word then. -/
theorem ofMagnitude_magnitudeBits {x : Float} (h : isNegative x = false) :
    ofMagnitude false (magnitudeBits x) = x := by
  have hlt : ¬ 2 ^ 63 ≤ x.toBits.toNat := by simpa [isNegative] using h
  have hmagnitude : magnitudeBits x = x.toBits.toNat := Nat.mod_eq_of_lt (by omega)
  rw [ofMagnitude, if_neg (by decide), hmagnitude, UInt64.ofNat_toNat]
  exact ofBits_toBits x

section Magnitude

variable {bits : Nat}

/-- Making a double from a magnitude up to that of infinity and reading its bits gives the
magnitude back: no such word is replaced by the one `NaN`. -/
theorem toBits_ofMagnitude (h : bits ≤ infinityBits) :
    (ofMagnitude false bits).toBits.toNat = bits := by
  have hinfinity : infinityBits = 2047 * 2 ^ 52 := rfl
  have hnat : (UInt64.ofNat bits).toNat = bits := UInt64.toNat_ofNat_of_lt' (by
    rw [UInt64.size]
    omega)
  have hmeaningful : Meaningful (UInt64.ofNat bits).toBitVec := by
    intro he
    rw [exponentField, UInt64.toNat_toBitVec, hnat] at he
    rw [mantissaField, UInt64.toNat_toBitVec, hnat]
    omega
  rw [ofMagnitude, if_neg (by decide), toBits_ofBits hmeaningful, hnat]

/-- A double made from a magnitude without a sign has its sign bit clear. -/
theorem isNegative_ofMagnitude (h : bits ≤ infinityBits) :
    isNegative (ofMagnitude false bits) = false := by
  have hinfinity : infinityBits = 2047 * 2 ^ 52 := rfl
  rw [isNegative, toBits_ofMagnitude h, decide_eq_false_iff_not]
  omega

end Magnitude

theorem isNegative_nearest (num den : Nat) : isNegative (nearest num den) = false :=
  isNegative_ofMagnitude (Nat.min_le_left _ _)

/-- Finite doubles without a sign that compare equal are equal. Without this assumption on the
signs the two zeros would be an exception. -/
theorem eq_of_beq_of_finite {x y : Float} (hx : x.isFinite) (hy : y.isFinite)
    (hxsign : isNegative x = false) (hysign : isNegative y = false) (h : x == y) : x = y := by
  apply eq_of_unpacked_eq
  have hcompare : (unpacked x).beq (unpacked y) = true := h
  have hfinite : (unpacked x).isFinite = true := hx
  have hfinite' : (unpacked y).isFinite = true := hy
  have hsign := signField_word hxsign
  have hsign' := signField_word hysign
  have hstands := stands_unpacked x
  have hstands' := stands_unpacked y
  generalize unpacked x = u at hcompare hfinite hstands ⊢
  generalize unpacked y = v at hcompare hfinite' hstands' ⊢
  cases hstands <;> cases hstands' <;>
    simp_all [UnpackedFloat.isFinite, UnpackedFloat.beq, UnpackedFloat.compare]

end LSystem.Number
