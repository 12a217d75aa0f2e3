import LSystem.Proofs.Number.Order

/-!
# Comparing doubles

Doubles compare like whole numbers: like their words, counted down from zero where the sign
bit is set.  This holds of the infinities too, and the two zeros are one; a NaN compares
with nothing.  So the comparison of doubles is linear but for the NaN, and `Compares` lists
what a proof about bounds needs to know of it.
-/

namespace LSystem.Number

open Float.Model Float.Model.UnpackedFloat

/-- The double is not the NaN. -/
def IsNumber (x : Float) : Prop := x.isNaN = false

/-- The word of a double without its sign bit, counted down from zero where the sign bit is
set.  Both zeros give zero. -/
def signedBits (x : Float) : Int :=
  if isNegative x then -(magnitudeBits x : Int) else magnitudeBits x

/-! ### Numbers to the model -/

/-- The signed word of what is a number to the model. -/
def place : UnpackedFloat → Int
  | .infinity sign => sign.apply infinityBits
  | .notANumber => 0
  | .zero _ => 0
  | .finite sign mantissa exponent _ => sign.apply ((exponent + 1074) * 2 ^ 52 + mantissa)

/-- What a word can stand for that is a number: the mantissa has 53 binary digits, or fewer
with the least exponent. -/
def Fits : UnpackedFloat → Prop
  | .notANumber => False
  | .infinity _ | .zero _ => True
  | .finite _ mantissa exponent _ => mantissa < 2 ^ 53 ∧ exponent ≤ 971 ∧
      (exponent = -1074 ∨ -1074 < exponent ∧ 2 ^ 52 ≤ mantissa)

/-- The signed word of a double has the sign that its sign field tells. The magnitude is what is
left of the word without its highest bit. -/
theorem signedBits_word (x : Float) :
    signedBits x = (signField (word x)).apply (magnitudeBits x) := by
  unfold signedBits
  cases hsign : isNegative x with
  | false => rw [signField_word hsign]; rfl
  | true =>
      have hle : 2 ^ 63 ≤ x.toBits.toNat := by simpa [isNegative] using hsign
      have hlt : x.toBits.toNat < 2 ^ 64 := x.toBits.toBitVec.isLt
      have hone : @unpackSign Format.binary64 (word x) = 1#1 := by
        rw [← BitVec.toNat_inj, toNat_unpackSign, toNat_word]
        change _ = 1
        omega
      rw [signField, hone]
      rfl

/-- The word of a double without its sign bit is put together from its two other fields. -/
theorem magnitudeBits_fields (x : Float) :
    magnitudeBits x = exponentField (word x) * 2 ^ 52 + mantissaField (word x) := by
  rw [exponentField, mantissaField, toNat_word, magnitudeBits]
  omega

/-- A double is a number exactly when the model takes it for one. -/
theorem isNumber_iff {x : Float} : IsNumber x ↔ (unpacked x).isNaN = false := Iff.rfl

/-- The place of a number is its signed word. It counts the doubles from zero on, so that two
numbers can be compared by whole numbers. -/
theorem place_unpacked {x : Float} (hx : IsNumber x) :
    place (unpacked x) = signedBits x ∧ Fits (unpacked x) := by
  have hmantissa : mantissaField (word x) < 2 ^ 52 := Nat.mod_lt _ (by decide)
  have hstands := stands_unpacked x
  rw [signedBits_word, magnitudeBits_fields]
  rw [isNumber_iff] at hx
  generalize unpacked x = u at hstands hx ⊢
  cases hstands with
  | notANumber he hm => cases hx
  | infinity he hm =>
      rw [he, hm]
      exact ⟨rfl, trivial⟩
  | zero he hm =>
      rw [he, hm]
      cases signField (word x) <;> exact ⟨rfl, trivial⟩
  | subnormal he hm =>
      refine ⟨?_, by omega, by omega, .inl rfl⟩
      rw [place, he]
      congr 1
  | normal hpos hlt hm =>
      refine ⟨?_, by omega, by omega, ?_⟩
      · rw [place]
        congr 1
        push_cast
        omega
      · omega

/-- Exponents compare before mantissas. A mantissa fits below the step of the exponents, unless
the exponent is the least one, and so the two together compare in one number. -/
theorem compare_lex {sign sign' : Sign} {m m' : Nat} {e e' : Int} {hm : 0 < m} {hm' : 0 < m'}
    (h : Fits (.finite sign m e hm)) (h' : Fits (.finite sign' m' e' hm')) :
    (compare e e').then (compare m m') =
      compare ((e + 1074) * 2 ^ 52 + (m : Int)) ((e' + 1074) * 2 ^ 52 + (m' : Int)) := by
  obtain ⟨hlt, -, hnormal⟩ := h
  obtain ⟨hlt', -, hnormal'⟩ := h'
  rcases Int.lt_trichotomy e e' with he | rfl | he
  · rw [Int.compare_eq_lt.2 he, Int.compare_eq_lt.2 (by omega)]
    rfl
  · rw [Int.compare_eq_eq.2 rfl, Ordering.eq_then]
    rcases Nat.lt_trichotomy m m' with hm | rfl | hm
    · rw [Nat.compare_eq_lt.2 hm, Int.compare_eq_lt.2 (by omega)]
    · rw [Nat.compare_eq_eq.2 rfl, Int.compare_eq_eq.2 rfl]
    · rw [Nat.compare_eq_gt.2 hm, Int.compare_eq_gt.2 (by omega)]
  · rw [Int.compare_eq_gt.2 he, Int.compare_eq_gt.2 (by omega)]
    rfl

/-- Opposite numbers compare the other way round. -/
theorem compare_neg_neg (a b : Int) : compare (-a) (-b) = compare b a := by
  rcases Int.lt_trichotomy a b with h | rfl | h
  · rw [Int.compare_eq_gt.2 (by omega), Int.compare_eq_gt.2 h]
  · rw [Int.compare_eq_eq.2 rfl, Int.compare_eq_eq.2 rfl]
  · rw [Int.compare_eq_lt.2 (by omega), Int.compare_eq_lt.2 h]

theorem lt_compare_iff {a b : Int} : Ordering.lt = compare a b ↔ a < b := by
  rw [eq_comm, Int.compare_eq_lt]

theorem gt_compare_iff {a b : Int} : Ordering.gt = compare a b ↔ b < a := by
  rw [eq_comm, Int.compare_eq_gt]

/-- The places of finite numbers lie between those of the infinities. The greatest finite number
has the place before that of infinity. -/
theorem place_finite_cases {sign : Sign} {m : Nat} {e : Int} {hm : 0 < m}
    (h : Fits (.finite sign m e hm)) :
    0 < (e + 1074) * 2 ^ 52 + (m : Int) ∧ (e + 1074) * 2 ^ 52 + (m : Int) < infinityBits := by
  have hinfinity : infinityBits = 2047 * 2 ^ 52 := rfl
  obtain ⟨hlt, he, hnormal⟩ := h
  omega

/-- Numbers compare like their places. This settles the comparison of the model, which splits on
signs and on the kinds of number, in one line for all that follows. -/
theorem compare_place {u v : UnpackedFloat} (hu : Fits u) (hv : Fits v) :
    u.compare v = some (compare (place u) (place v)) := by
  have hinfinity : infinityBits = 2047 * 2 ^ 52 := rfl
  cases u with
  | notANumber => exact hu.elim
  | infinity s =>
      cases v with
      | notANumber => exact hv.elim
      | infinity s' => cases s <;> cases s' <;> rfl
      | zero s' => cases s <;> rfl
      | finite s' m' e' hm' =>
          have hrange' := place_finite_cases hv
          cases s <;> cases s' <;>
            simp only [UnpackedFloat.compare, place, Sign.apply, Option.some_inj, lt_compare_iff,
              gt_compare_iff] <;> omega
  | zero s =>
      cases v with
      | notANumber => exact hv.elim
      | infinity s' => cases s' <;> rfl
      | zero s' => rfl
      | finite s' m' e' hm' =>
          have hrange' := place_finite_cases hv
          cases s' <;>
            simp only [UnpackedFloat.compare, place, Sign.apply, Option.some_inj, lt_compare_iff,
              gt_compare_iff] <;> omega
  | finite s m e hm =>
      have hrange := place_finite_cases hu
      cases v with
      | notANumber => exact hv.elim
      | infinity s' =>
          cases s <;> cases s' <;>
            simp only [UnpackedFloat.compare, place, Sign.apply, Option.some_inj, lt_compare_iff,
              gt_compare_iff] <;> omega
      | zero s' =>
          cases s <;>
            simp only [UnpackedFloat.compare, place, Sign.apply, Option.some_inj, lt_compare_iff,
              gt_compare_iff] <;> omega
      | finite s' m' e' hm' =>
          have hrange' := place_finite_cases hv
          have hlex := compare_lex hu hv
          cases s <;> cases s' <;>
            simp only [UnpackedFloat.compare, place, Sign.apply, Option.some_inj, lt_compare_iff,
              gt_compare_iff, hlex, Int.compare_swap, compare_neg_neg] <;> omega

/-! ### Numbers among doubles -/

variable {x y z : Float}

/-- **Doubles compare like their signed words**, and the NaN with nothing. The two zeros have the
same signed word, and each infinity lies beyond all finite numbers. -/
theorem compare_unpacked_iff {o : Ordering} : (unpacked x).compare (unpacked y) = some o ↔
    IsNumber x ∧ IsNumber y ∧ compare (signedBits x) (signedBits y) = o := by
  constructor
  · intro h
    have hnumbers : IsNumber x ∧ IsNumber y := by
      rw [isNumber_iff, isNumber_iff]
      generalize unpacked x = u, unpacked y = v at h ⊢
      cases u <;> cases v <;> first | exact ⟨rfl, rfl⟩ | cases h
    obtain ⟨hx, hy⟩ := hnumbers
    obtain ⟨hplace, hfits⟩ := place_unpacked hx
    obtain ⟨hplace', hfits'⟩ := place_unpacked hy
    rw [compare_place hfits hfits', hplace, hplace', Option.some_inj] at h
    exact ⟨hx, hy, h⟩
  · rintro ⟨hx, hy, h⟩
    obtain ⟨hplace, hfits⟩ := place_unpacked hx
    obtain ⟨hplace', hfits'⟩ := place_unpacked hy
    rw [compare_place hfits hfits', hplace, hplace', h]

/-- A double is less than another exactly when both are numbers and its signed word is less. -/
theorem lt_iff_signedBits :
    x < y ↔ IsNumber x ∧ IsNumber y ∧ signedBits x < signedBits y := by
  rw [lt_iff, compare_unpacked_iff, Int.compare_eq_lt]

/-- A double is at most another exactly when both are numbers and its signed word is at most the
other one. -/
theorem le_iff_signedBits :
    x ≤ y ↔ IsNumber x ∧ IsNumber y ∧ signedBits x ≤ signedBits y := by
  rw [le_iff, compare_unpacked_iff, compare_unpacked_iff, Int.compare_eq_lt, Int.compare_eq_eq,
    ← and_or_left, ← and_or_left, Int.le_iff_lt_or_eq]

/-- Doubles compare as equal exactly when both are numbers with the same signed word, which the
two zeros share. -/
theorem beq_iff_signedBits :
    x == y ↔ IsNumber x ∧ IsNumber y ∧ signedBits x = signedBits y := by
  have hbeq : (x == y) = ((unpacked x).compare (unpacked y) == some .eq) := rfl
  rw [hbeq, beq_iff_eq, compare_unpacked_iff, Int.compare_eq_eq]

/-- A finite double is a number. -/
theorem IsNumber.of_isFinite (h : x.isFinite) : IsNumber x := by
  have hfinite : (unpacked x).isFinite = true := h
  rw [isNumber_iff]
  generalize unpacked x = u at hfinite ⊢
  cases u with
  | notANumber => cases hfinite
  | infinity sign | zero sign | finite sign m e hm => rfl

/-- There is one NaN. All words that stand for no number are turned into the same one when a
double is made of them. -/
theorem eq_of_not_isNumber (hx : ¬ IsNumber x) (hy : ¬ IsNumber y) : x = y := by
  have hnan {z : Float} (hz : ¬ IsNumber z) : unpacked z = .notANumber := by
    rw [isNumber_iff] at hz
    generalize unpacked z = u at hz ⊢
    cases u with
    | notANumber => rfl
    | infinity sign | zero sign | finite sign m e hm => exact absurd rfl hz
  exact eq_of_unpacked_eq ((hnan hx).trans (hnan hy).symm)

/-- What a comparison is used for: it is linear on numbers and relates nothing else. -/
structure Compares {α : Type} (lt le : α → α → Prop) (number : α → Prop) : Prop where
  refl : ∀ {x}, number x → le x x
  trans : ∀ {x y z}, le x y → le y z → le x z
  of_lt : ∀ {x y}, lt x y → le x y
  of_not_lt : ∀ {x y}, number x → number y → ¬ lt x y → le y x
  numbers : ∀ {x y}, le x y → number x ∧ number y

/-- A comparison read from right to left. By this whatever is proved of the lower end of a row of
values holds of the upper end. -/
theorem Compares.flip {α : Type} {lt le : α → α → Prop} {number : α → Prop}
    (h : Compares lt le number) :
    Compares (fun x y => lt y x) (fun x y => le y x) number where
  refl := h.refl
  trans hxy hyz := h.trans hyz hxy
  of_lt := h.of_lt
  of_not_lt hx hy := h.of_not_lt hy hx
  numbers hxy := (h.numbers hxy).symm

/-- Doubles compare in this way. The NaN is the one value that is no number, and it compares with
nothing. -/
theorem compares_float : Compares (α := Float) (· < ·) (· ≤ ·) IsNumber where
  refl hx := le_iff_signedBits.2 ⟨hx, hx, Int.le_refl _⟩
  trans hxy hyz := by
    obtain ⟨hx, -, hle⟩ := le_iff_signedBits.1 hxy
    obtain ⟨-, hz, hle'⟩ := le_iff_signedBits.1 hyz
    exact le_iff_signedBits.2 ⟨hx, hz, Int.le_trans hle hle'⟩
  of_lt hlt := by
    obtain ⟨hx, hy, hless⟩ := lt_iff_signedBits.1 hlt
    exact le_iff_signedBits.2 ⟨hx, hy, Int.le_of_lt hless⟩
  of_not_lt hx hy hlt := by
    refine le_iff_signedBits.2 ⟨hy, hx, Int.not_lt.1 fun hless => hlt ?_⟩
    exact lt_iff_signedBits.2 ⟨hx, hy, hless⟩
  numbers hle := by
    obtain ⟨hx, hy, -⟩ := le_iff_signedBits.1 hle
    exact ⟨hx, hy⟩

/-- The same double, or two that compare equal, as the two zeros do. -/
def SameValue (x y : Float) : Prop := x = y ∨ x == y

/-- Doubles that bound each other have the same value, and so have two that are no numbers, as
there is only one NaN. -/
theorem sameValue_of_le_of_le (h : x ≤ y ∧ y ≤ x ∨ ¬ IsNumber x ∧ ¬ IsNumber y) :
    SameValue x y := by
  rcases h with ⟨hle, hge⟩ | ⟨hx, hy⟩
  · obtain ⟨hx, hy, hle⟩ := le_iff_signedBits.1 hle
    obtain ⟨-, -, hge⟩ := le_iff_signedBits.1 hge
    exact .inr (beq_iff_signedBits.2 ⟨hx, hy, Int.le_antisymm hle hge⟩)
  · exact .inl (eq_of_not_isNumber hx hy)

/-! ### Magnitudes -/

/-- Without a sign, what the model packs is the same word without its sign bit. The sign is the
one part of a word that the absolute value drops. -/
theorem toNat_pack_abs (u : UnpackedFloat) : (UnpackedFloat.pack Format.binary64 u.abs).toNat =
    (UnpackedFloat.pack Format.binary64 u).toNat % 2 ^ 63 := by
  have hcomponents (sign : Sign) (e : BitVec 11) (m : BitVec 52) :
      (packComponents Format.binary64 .positive e m).toNat =
        (packComponents Format.binary64 sign e m).toNat % 2 ^ 63 := by
    have he := e.isLt
    have hm := m.isLt
    rw [toNat_packComponents, toNat_packComponents]
    change 0 * 2 ^ 63 + _ + _ = _
    omega
  cases u with
  | notANumber => exact hcomponents .positive _ _
  | infinity sign => exact hcomponents sign _ _
  | zero sign => exact hcomponents sign _ _
  | finite sign m e hm =>
      unfold UnpackedFloat.abs UnpackedFloat.pack
      simp only
      split
      · exact hcomponents sign _ _
      · split
        · exact hcomponents sign _ _
        · exact hcomponents sign _ _

/-- The word of a magnitude is the word of the double without the sign bit. -/
theorem toNat_word_abs (x : Float) : (word x.abs).toNat = magnitudeBits x := by
  have hword : word x.abs = UnpackedFloat.pack Format.binary64 (unpacked x).abs := rfl
  rw [hword, toNat_pack_abs, pack_unpacked]
  rfl

/-- A double and its magnitude have the same word but for the sign bit. -/
theorem magnitudeBits_abs (x : Float) : magnitudeBits x.abs = magnitudeBits x := by
  have hword : x.abs.toBits.toNat = magnitudeBits x := toNat_word_abs x
  have hlt : magnitudeBits x < 2 ^ 63 := Nat.mod_lt _ (by decide)
  rw [magnitudeBits, hword, Nat.mod_eq_of_lt hlt]

/-- The signed word of a magnitude is counted up from zero. -/
theorem signedBits_abs (x : Float) : signedBits x.abs = magnitudeBits x := by
  have hword : x.abs.toBits.toNat = magnitudeBits x := toNat_word_abs x
  have hlt : magnitudeBits x < 2 ^ 63 := Nat.mod_lt _ (by decide)
  have hsign : isNegative x.abs = false := by
    rw [isNegative, hword, decide_eq_false_iff_not]
    omega
  rw [signedBits, hsign, magnitudeBits_abs]
  rfl

theorem isFinite_abs (h : x.isFinite) : x.abs.isFinite := by
  rw [isFinite_iff, magnitudeBits_abs, ← isFinite_iff]
  exact h

/-- A zero is smaller than whatever is above zero. The sign of the zero makes no difference to
that. -/
theorem abs_lt_of_beq_zero (hx : x == 0) (hy : 0 < y) : x.abs < y := by
  have hzero : signedBits 0 = 0 := rfl
  obtain ⟨-, hnumber, hpos⟩ := lt_iff_signedBits.1 hy
  obtain ⟨-, -, heq⟩ := beq_iff_signedBits.1 hx
  have hbits : magnitudeBits x = 0 := by
    rw [hzero, signedBits] at heq
    split at heq <;> omega
  have habs : x.abs.isFinite := by
    rw [isFinite_iff, magnitudeBits_abs, hbits]
    decide
  rw [lt_iff_signedBits, signedBits_abs, hbits]
  exact ⟨.of_isFinite habs, hnumber, hpos⟩

end LSystem.Number
