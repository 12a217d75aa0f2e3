import LSystem.Proofs.Number.Word

/-!
# Doubles that are not below zero

Subtracting a zero from a double leaves it on its side of zero, and a product of
doubles without a sign has none.  This is all that a weighted choice needs to
know of rounding.
-/

namespace LSystem.Number

open Float.Model Float.Model.UnpackedFloat

/-- The literal zero is the positive zero of the model, so comparing a double with `0` is
comparing what it is with that. -/
theorem unpacked_zero : unpacked 0 = .zero .positive := rfl

/-- One double is below another when the model's comparison of what they stand for says so; `NaN`
compares with nothing, so no such pair is below or above. -/
theorem lt_iff (x y : Float) : x < y ↔ (unpacked x).compare (unpacked y) = some .lt := by
  have hdecide : x < y ↔ decide (x.toModel < y.toModel) = true := Iff.rfl
  have hmodel : x.toModel < y.toModel ↔ ((unpacked x).compare (unpacked y) == some .lt) = true :=
    Iff.rfl
  rw [hdecide, decide_eq_true_eq, hmodel, beq_iff_eq]

/-- The doubles below zero have a sign. What has no sign is zero, above zero or the NaN. -/
theorem isNegative_of_lt_zero {x : Float} (h : x < 0) : isNegative x = true := by
  by_contra hsign
  have hfield := signField_word (Bool.eq_false_iff.2 hsign)
  rw [lt_iff, unpacked_zero] at h
  have hstands := stands_unpacked x
  generalize unpacked x = u at h hstands
  cases hstands <;> simp_all [UnpackedFloat.compare]

/-- A finite double that is on neither side of zero is a zero. -/
theorem unpacked_eq_zero {w : Float} (hfinite : w.isFinite) (hlow : ¬ w < 0) (hhigh : ¬ 0 < w) :
    ∃ sign, unpacked w = .zero sign := by
  have hfin : (unpacked w).isFinite = true := hfinite
  rw [lt_iff, unpacked_zero] at hlow hhigh
  generalize unpacked w = u at hfin hlow hhigh ⊢
  cases u with
  | infinity sign => simp [UnpackedFloat.isFinite] at hfin
  | notANumber => simp [UnpackedFloat.isFinite] at hfin
  | zero sign => exact ⟨sign, rfl⟩
  | finite sign mantissa exponent hm => cases sign <;> simp [UnpackedFloat.compare] at hlow hhigh

/-- At most is below or equal in the model's comparison, which makes the two zeros equal and
leaves `NaN` out. -/
theorem le_iff (x y : Float) : x ≤ y ↔ (unpacked x).compare (unpacked y) = some .lt ∨
    (unpacked x).compare (unpacked y) = some .eq := by
  have hdecide : x ≤ y ↔ decide (x.toModel ≤ y.toModel) = true := Iff.rfl
  have hmodel : x.toModel ≤ y.toModel ↔
      ((unpacked x).compare (unpacked y)).any Ordering.isLE = true := Iff.rfl
  rw [hdecide, decide_eq_true_eq, hmodel]
  rcases (unpacked x).compare (unpacked y) with _ | _ | _ | _ <;> simp

/-- A difference is computed by the model on what the two doubles are, then packed into a word and
read again; the packing is where it is rounded. -/
theorem unpacked_sub (x y : Float) :
    unpacked (x - y) = UnpackedFloat.unpack Format.binary64
      (UnpackedFloat.pack Format.binary64
        (UnpackedFloat.sub Format.binary64 (unpacked x) (unpacked y))) := rfl

/-- What is packed and unpacked again, when a double stands for it. -/
theorem unpack_pack_unpacked (x : Float) : UnpackedFloat.unpack Format.binary64
    (UnpackedFloat.pack Format.binary64 (unpacked x)) = unpacked x := by
  rw [pack_unpacked]
  rfl

/-- The doubles that compare equal to zero are the two zeros. -/
theorem beq_zero_iff {x : Float} : x == 0 ↔ ∃ sign, unpacked x = .zero sign := by
  have hbeq : (x == 0) = (unpacked x).beq (unpacked 0) := rfl
  rw [hbeq, unpacked_zero]
  generalize unpacked x = u
  cases u with
  | infinity sign => cases sign <;> simp [UnpackedFloat.beq, UnpackedFloat.compare]
  | notANumber => simp [UnpackedFloat.beq, UnpackedFloat.compare]
  | zero sign => simp [UnpackedFloat.beq, UnpackedFloat.compare]
  | finite sign mantissa exponent hm =>
      cases sign <;> simp [UnpackedFloat.beq, UnpackedFloat.compare]

/-- Neither zero is below zero. -/
theorem not_lt_zero_of_unpacked_eq_zero {x : Float} (h : ∃ sign, unpacked x = .zero sign) :
    ¬ x < 0 := by
  obtain ⟨sign, hx⟩ := h
  rw [lt_iff, hx, unpacked_zero]
  nofun

/-- Subtracting a zero changes nothing, except perhaps the sign of a zero. The model adds no
mantissa for a zero, and a double that is packed again has the word it had. -/
theorem sub_zero_cases (x : Float) {w : Float} (hw : ∃ sign, unpacked w = .zero sign) :
    x - w = x ∨ (∃ sign, unpacked x = .zero sign) ∧ ∃ sign, unpacked (x - w) = .zero sign := by
  obtain ⟨sign, hw⟩ := hw
  have hsame := unpack_pack_unpacked x
  have hsub := unpacked_sub x w
  rw [hw] at hsub
  cases hx : unpacked x with
  | infinity s =>
      rw [hx] at hsame hsub
      exact .inl (eq_of_unpacked_eq ((hsub.trans hsame).trans hx.symm))
  | notANumber =>
      rw [hx] at hsame hsub
      exact .inl (eq_of_unpacked_eq ((hsub.trans hsame).trans hx.symm))
  | finite s mantissa exponent hm =>
      rw [hx] at hsame hsub
      exact .inl (eq_of_unpacked_eq ((hsub.trans hsame).trans hx.symm))
  | zero s =>
      rw [hx] at hsub
      refine .inr ⟨⟨s, rfl⟩, ?_⟩
      rw [hsub]
      cases s <;> cases sign <;> exact ⟨_, rfl⟩

/-- A sum of zeros is a zero. The sign of the sum depends on those of the zeros, and this is why
it is left open. -/
theorem unpacked_add_eq_zero {x y : Float} (hx : ∃ sign, unpacked x = .zero sign)
    (hy : ∃ sign, unpacked y = .zero sign) : ∃ sign, unpacked (x + y) = .zero sign := by
  obtain ⟨s, hs⟩ := hx
  obtain ⟨t, ht⟩ := hy
  have hadd : unpacked (x + y) = UnpackedFloat.unpack Format.binary64
      (UnpackedFloat.pack Format.binary64
        (UnpackedFloat.add Format.binary64 (unpacked x) (unpacked y))) := rfl
  rw [hadd, hs, ht]
  cases s with
  | positive =>
      cases t with
      | positive => exact ⟨.positive, rfl⟩
      | negative => exact ⟨.positive, rfl⟩
  | negative =>
      cases t with
      | positive => exact ⟨.positive, rfl⟩
      | negative => exact ⟨.negative, rfl⟩

/-- Neither zero is above zero. -/
theorem le_zero_of_unpacked_eq_zero {x : Float} (h : ∃ sign, unpacked x = .zero sign) : x ≤ 0 := by
  obtain ⟨sign, hx⟩ := h
  rw [le_iff, hx, unpacked_zero]
  exact .inr rfl

/-! ### Doubles without a sign -/

/-- What has no minus sign to the model. -/
def Unsigned : UnpackedFloat → Prop
  | .notANumber => True
  | .infinity sign | .zero sign | .finite sign _ _ _ => sign = .positive

/-- A double whose sign bit is clear has no minus sign to the model either, whichever of the five
kinds of word it is. -/
theorem unsigned_unpacked {x : Float} (h : isNegative x = false) : Unsigned (unpacked x) := by
  have hsign := signField_word h
  have hstands := stands_unpacked x
  generalize unpacked x = u at hstands ⊢
  cases hstands with
  | notANumber _ _ => trivial
  | infinity _ _ => exact hsign
  | zero _ _ => exact hsign
  | subnormal _ _ => exact hsign
  | normal _ _ _ => exact hsign

/-- What has no minus sign is packed into a word below the sign bit: its components are the
positive sign, an exponent and a mantissa. -/
theorem toNat_pack_lt {u : UnpackedFloat} (h : Unsigned u) :
    (UnpackedFloat.pack Format.binary64 u).toNat < 2 ^ 63 := by
  have hcomponents (e : BitVec 11) (m : BitVec 52) :
      (packComponents Format.binary64 .positive e m).toNat < 2 ^ 63 := by
    have he := e.isLt
    have hm := m.isLt
    have hsign : (Sign.toBitVec .positive).toNat = 0 := rfl
    rw [toNat_packComponents, hsign]
    omega
  cases u with
  | notANumber => exact hcomponents _ _
  | infinity sign =>
      obtain rfl : sign = .positive := h
      exact hcomponents _ _
  | zero sign =>
      obtain rfl : sign = .positive := h
      exact hcomponents _ _
  | finite sign mantissa exponent hm =>
      obtain rfl : sign = .positive := h
      unfold UnpackedFloat.pack
      simp only
      split
      · exact hcomponents _ _
      · split
        · exact hcomponents _ _
        · exact hcomponents _ _

/-- A double that was packed without a sign has none. -/
theorem isNegative_of_word_eq_pack {x : Float} {u : UnpackedFloat} (h : Unsigned u)
    (hx : word x = UnpackedFloat.pack Format.binary64 u) : isNegative x = false := by
  have hlt := toNat_pack_lt h
  rw [← hx, toNat_word] at hlt
  rw [isNegative, decide_eq_false_iff_not]
  omega

/-- A finite double above zero has no sign. A sign would make it a number below zero, or the
negative zero. -/
theorem isNegative_of_not_le_zero {x : Float} (hfinite : x.isFinite) (h : ¬ x ≤ 0) :
    isNegative x = false := by
  apply isNegative_of_word_eq_pack ?_ (pack_unpacked x).symm
  have hfin : (unpacked x).isFinite = true := hfinite
  rw [le_iff, unpacked_zero] at h
  generalize unpacked x = u at hfin h ⊢
  cases u with
  | infinity sign => simp [UnpackedFloat.isFinite] at hfin
  | notANumber => trivial
  | zero sign => exact absurd (.inr rfl) h
  | finite sign mantissa exponent hm =>
      cases sign with
      | positive => rfl
      | negative => exact absurd (.inl rfl) h

/-- What has no sign is not below zero. -/
theorem not_lt_zero_of_isNegative {x : Float} (h : isNegative x = false) : ¬ x < 0 := by
  intro hlt
  rw [isNegative_of_lt_zero hlt] at h
  cases h

/-- Rounding keeps the sign it is given: a positive mantissa is rounded to a positive number, to
zero or to infinity. -/
theorem unsigned_roundWithAccuracy (spec : Format) (mantissa : Nat) (exponent : Int)
    (accuracy : Accuracy) :
    Unsigned (roundWithAccuracy spec .positive mantissa exponent accuracy) := by
  unfold roundWithAccuracy
  simp only
  split
  · rfl
  · rfl

/-- The four forms of what has no minus sign, with the sign already put in, for the products and
quotients below to split on. -/
theorem unsigned_cases {u : UnpackedFloat} (h : Unsigned u) :
    u = .notANumber ∨ u = .infinity .positive ∨ u = .zero .positive ∨
      ∃ m e hm, u = .finite .positive m e hm := by
  cases u with
  | notANumber => exact .inl rfl
  | infinity sign =>
      obtain rfl : sign = .positive := h
      exact .inr (.inl rfl)
  | zero sign =>
      obtain rfl : sign = .positive := h
      exact .inr (.inr (.inl rfl))
  | finite sign m e hm =>
      obtain rfl : sign = .positive := h
      exact .inr (.inr (.inr ⟨m, e, hm, rfl⟩))

/-- A product of two factors without a minus sign has none. It is either one of the special values
or the rounded product of two positive mantissas. -/
theorem unsigned_mul {u v : UnpackedFloat} (spec : Format) (hu : Unsigned u) (hv : Unsigned v) :
    Unsigned (UnpackedFloat.mul spec u v) := by
  rcases unsigned_cases hu with rfl | rfl | rfl | ⟨m, e, hm, rfl⟩ <;>
    rcases unsigned_cases hv with rfl | rfl | rfl | ⟨m', e', hm', rfl⟩ <;>
    first
      | trivial
      | exact unsigned_roundWithAccuracy _ _ _ _

/-- A quotient of two terms without a minus sign has none, also when the divisor is zero or
infinite. -/
theorem unsigned_div {u v : UnpackedFloat} (spec : Format) (hu : Unsigned u) (hv : Unsigned v) :
    Unsigned (UnpackedFloat.div spec u v) := by
  rcases unsigned_cases hu with rfl | rfl | rfl | ⟨m, e, hm, rfl⟩ <;>
    rcases unsigned_cases hv with rfl | rfl | rfl | ⟨m', e', hm', rfl⟩ <;>
    first
      | trivial
      | exact unsigned_roundWithAccuracy _ _ _ _

/-- A product of doubles without a sign has none. -/
theorem isNegative_mul {x y : Float} (hx : isNegative x = false) (hy : isNegative y = false) :
    isNegative (x * y) = false :=
  isNegative_of_word_eq_pack
    (unsigned_mul Format.binary64 (unsigned_unpacked hx) (unsigned_unpacked hy)) rfl

/-- A number counted by a word has no sign. -/
theorem isNegative_toFloat (n : UInt64) : isNegative n.toFloat = false := by
  refine isNegative_of_word_eq_pack (u := UnpackedFloat.ofUInt64 Format.binary64 n) ?_ rfl
  unfold UnpackedFloat.ofUInt64 UnpackedFloat.ofNat UnpackedFloat.ofInt UnpackedFloat.normalize
  split
  · rename_i hlt
    have hneg : (n.toNat : Int) < 0 := Int.compare_eq_lt.1 hlt
    omega
  · rfl
  · exact unsigned_roundWithAccuracy _ _ _ _

/-- A quotient of doubles without a sign has none. -/
theorem isNegative_div {x y : Float} (hx : isNegative x = false) (hy : isNegative y = false) :
    isNegative (x / y) = false :=
  isNegative_of_word_eq_pack
    (unsigned_div Format.binary64 (unsigned_unpacked hx) (unsigned_unpacked hy)) rfl

end LSystem.Number
