import LSystem.Proofs.Number.Arithmetic
import LSystem.Proofs.Eval.Answer
import LSystem.Eval.Builtin

/-!
# The range of random numbers

`random(low, high)` rounds three times: the length of the range, its product with the draw and
the sum with the lower end.  The product is never greater than the exact length
(`ratioBits_part_le`), so the sum is never rounded past the upper end.  It may be rounded onto
it.  Since all three steps are monotone, the greatest draw tells whether any draw does that;
from zero on none does, unless the range is so small that doubles have no more digits there.
-/

namespace LSystem.Randomness

open Number

/-! ### Draws -/

/-- The draws that are left are multiples of `2^-53` below one. -/
def Generator.Bounded (g : Generator) : Prop := ∀ bits ∈ g.rest, bits.toNat < 2 ^ 53

/-- Two words give 53 bits: of the 64 that they have together the lowest eleven are dropped. -/
theorem bitsOfPair_lt (pair : UInt32 × UInt32) : (bitsOfPair pair).toNat < 2 ^ 53 := by
  unfold bitsOfPair
  rw [UInt64.toNat_shiftRight, Nat.shiftRight_eq_div_pow]
  have hlt := ((pair.2.toUInt64 <<< 32) ||| pair.1.toUInt64).toNat_lt
  exact Nat.div_lt_of_lt_mul hlt

namespace Generator

/-- All numbers of a block have 53 bits, for every key and every counter. -/
theorem block_lt (g : Generator) : ∀ bits ∈ g.block, bits.toNat < 2 ^ 53 := by
  intro bits hbits
  obtain ⟨pair, -, rfl⟩ := List.mem_map.1 hbits
  exact bitsOfPair_lt pair

/-- A draw has 53 bits, and so have those after it. It is the first of those that are left of a
block, or of a new block, each made of a pair of words. -/
theorem Bounded.nextBits {g : Generator} (h : g.Bounded) :
    g.nextBits.1.toNat < 2 ^ 53 ∧ g.nextBits.2.Bounded := by
  unfold Generator.nextBits
  match hrest : g.rest with
  | bits :: rest =>
      have hall : ∀ bits' ∈ bits :: rest, bits'.toNat < 2 ^ 53 := hrest ▸ h
      exact List.forall_mem_cons.1 hall
  | [] =>
      match hblock : g.block with
      | bits :: rest =>
          have hall : ∀ bits' ∈ bits :: rest, bits'.toNat < 2 ^ 53 := hblock ▸ g.block_lt
          exact List.forall_mem_cons.1 hall
      | [] => exact ⟨Nat.two_pow_pos 53, h⟩

end Generator

/-- All draws of a seed have 53 bits. The induction is on the number of draws. -/
theorem Generator.bounded_of_seed (seed : UInt64) (draws : Nat) :
    (draws.repeat (fun g => g.next.2) (ofSeed seed)).Bounded := by
  induction draws with
  | zero =>
      intro bits hbits
      cases hbits
  | succ draws ih => exact ih.nextBits.2

/-- A draw of 53 bits is exact. So many bits fit into the mantissa of a double, and dividing by a
power of two moves the exponent only. -/
theorem value_unitOfBits {bits : UInt64} (hbits : bits.toNat < 2 ^ 53) :
    (unitOfBits bits).isFinite ∧ value (unitOfBits bits) = bits.toNat / 2 ^ 53 := by
  have hone : ((1074 : Nat) : ℤ) - 1074 = 0 := rfl
  have hnearest := isNearest_toFloat bits
  rw [← mul_one (bits.toNat : ℚ), ← zpow_zero (2 : ℚ), ← hone] at hnearest
  obtain ⟨hfinite, hvalue⟩ := hnearest.exact hbits (by decide)
  rw [hone, zpow_zero, mul_one] at hvalue
  have hdivisor : value 9007199254740992 = 2 ^ 53 := by
    have hword : signedBits 9007199254740992 =
        Float.Model.UnpackedFloat.Sign.positive.apply (1075 * 2 ^ 52 + 2 ^ 52) := by
      decide +kernel
    rw [value_of_signedBits hword, signed, valueOf_word (by decide) (.inr (le_refl _))]
    norm_num
  have hquotient := isNearest_div hfinite (y := 9007199254740992) rfl (by rw [hdivisor]; positivity)
  have hexact : (bits.toNat : ℚ) / 2 ^ 53 = bits.toNat * 2 ^ (((1021 : Nat) : ℤ) - 1074) := by
    rw [show ((1021 : Nat) : ℤ) - 1074 = -53 from rfl, zpow_neg, div_eq_mul_inv]
    rfl
  rw [hvalue, hdivisor, hexact] at hquotient
  rw [hexact]
  exact hquotient.exact hbits (by decide)

/-- The greatest draw. -/
def greatestDraw : Float := unitOfBits 9007199254740991

/-- A double from zero up to the greatest draw. -/
structure InUnit (u : Float) : Prop where
  isFinite : u.isFinite
  nonneg : 0 ≤ value u
  le : value u ≤ value greatestDraw

/-- The greatest draw is less than one by one unit. -/
theorem value_greatestDraw : value greatestDraw = 1 - 1 / 2 ^ 53 := by
  have hbits : (9007199254740991 : UInt64).toNat < 2 ^ 53 := by decide
  obtain ⟨-, hvalue⟩ := value_unitOfBits hbits
  rw [greatestDraw, hvalue, show UInt64.toNat 9007199254740991 = 9007199254740991 from rfl]
  norm_num

/-- The next draw of a generator whose numbers have 53 bits is between zero and the greatest
draw. -/
theorem Generator.Bounded.inUnit {g : Generator} (h : g.Bounded) : InUnit g.next.1 := by
  have hbits := h.nextBits.1
  obtain ⟨hfinite, hvalue⟩ := value_unitOfBits hbits
  have hle : (g.nextBits.1.toNat : ℚ) ≤ 2 ^ 53 - 1 := by
    have hsucc : ((g.nextBits.1.toNat + 1 : Nat) : ℚ) ≤ (2 ^ 53 : Nat) := Nat.cast_le.2 hbits
    push_cast at hsucc
    linarith
  change InUnit (unitOfBits g.nextBits.1)
  refine ⟨hfinite, ?_, ?_⟩
  · rw [hvalue]
    positivity
  · rw [hvalue, value_greatestDraw, div_le_iff₀ (by positivity)]
    linarith

/-- The greatest draw is one of the draws. All its bits are set. -/
theorem inUnit_greatestDraw : InUnit greatestDraw := by
  have hvalue := value_greatestDraw
  have hbits : (9007199254740991 : UInt64).toNat < 2 ^ 53 := by decide
  refine ⟨(value_unitOfBits hbits).1, ?_, le_refl _⟩
  rw [hvalue]
  norm_num

end LSystem.Randomness

namespace LSystem.Number

/-! ### Products with draws -/

section Lengths

variable {bits n : Nat} {length part : ℚ}

/-- The distance of a double from the midpoint below it, against a part of it. -/
theorem midpointBelow_sub_part (bits : Nat) :
    valueOf (bits + 1) * (1 - 1 / 2 ^ 53) - midpointBelow (bits + 1) =
      (2 ^ 52 * 2 ^ shiftOf bits - quantaOf (bits + 1)) / (2 ^ 53 * quantaPerUnit) := by
  have hunit := cast_quantaPerUnit_pos.ne'
  have hstep : (quantaOf (bits + 1) : ℚ) = quantaOf bits + 2 ^ shiftOf bits := by
    exact_mod_cast quantaOf_succ bits
  rw [midpointBelow, Nat.add_sub_cancel, valueOf, valueOf, hstep]
  generalize (quantaPerUnit : ℚ) = unit at *
  field_simp
  ring

/-- The greatest part of a double that a draw takes is rounded back to the double where
doubles have no leading digit, the end of that range included, and nowhere else. -/
theorem reaches_part_iff (hpos : 0 < bits) :
    Reaches bits (valueOf bits * (1 - 1 / 2 ^ 53)) ↔ bits ≤ 2 ^ 52 := by
  obtain ⟨before, rfl⟩ : ∃ before, bits = before + 1 := ⟨bits - 1, by omega⟩
  have hscale : (0 : ℚ) < 2 ^ 53 * quantaPerUnit := mul_pos (by positivity) cast_quantaPerUnit_pos
  have hless : midpointBelow (before + 1) < valueOf (before + 1) * (1 - 1 / 2 ^ 53) ↔
      quantaOf (before + 1) < 2 ^ 52 * 2 ^ shiftOf before := by
    rw [← sub_pos, midpointBelow_sub_part, div_pos_iff_of_pos_right hscale, sub_pos]
    norm_cast
  have hequal : midpointBelow (before + 1) = valueOf (before + 1) * (1 - 1 / 2 ^ 53) ↔
      quantaOf (before + 1) = 2 ^ 52 * 2 ^ shiftOf before := by
    rw [eq_comm, ← sub_eq_zero, midpointBelow_sub_part, div_eq_zero_iff,
      or_iff_left hscale.ne', sub_eq_zero, eq_comm]
    norm_cast
  rw [Reaches, hless, hequal]
  by_cases hsmall : before + 1 ≤ 2 ^ 52
  · have hshift : shiftOf before = 0 := by
      unfold shiftOf
      omega
    rw [quantaOf_eq_self (by omega), hshift, Nat.pow_zero, Nat.mul_one]
    omega
  · have hleading : 2 ^ 52 ≤ significandOf before := by
      unfold significandOf shiftOf
      omega
    have hle : 2 ^ 52 * 2 ^ shiftOf before ≤ quantaOf before := Nat.mul_le_mul_right _ hleading
    have hlt : quantaOf before < quantaOf (before + 1) := quantaOf_strictMono (Nat.lt_succ_self _)
    omega

/-- A double that is nearest to a length of at most `2^52` quanta is this length. -/
theorem valueOf_ratioBits_of_le (hle : ratioBits (n / quantaPerUnit) ≤ 2 ^ 52) :
    valueOf (ratioBits (n / quantaPerUnit)) = n / quantaPerUnit := by
  have hunit := cast_quantaPerUnit_pos
  have hexact {m : Nat} (hm : m ≤ 2 ^ 53) : valueOf m = m / quantaPerUnit := by
    rw [valueOf, quantaOf_eq_self hm]
  have hsmall : n ≤ 2 ^ 53 := by
    by_contra hlarge
    have hreached : ratioBits (valueOf (2 ^ 53)) ≤ ratioBits (n / quantaPerUnit) := by
      apply ratioBits_mono (valueOf_nonneg _)
      rw [hexact (le_refl _)]
      exact div_le_div_of_nonneg_right (Nat.cast_le.2 (by omega)) hunit.le
    rw [ratioBits_valueOf (by decide)] at hreached
    omega
  rw [← hexact hsmall, ratioBits_valueOf (hsmall.trans (by decide))]

/-- The part of a rounded length that a draw takes is never rounded past the exact length. -/
theorem ratioBits_part_le (hlength : length = n / quantaPerUnit)
    (hpart : 0 ≤ part) (hle : part ≤ valueOf (ratioBits length) * (1 - 1 / 2 ^ 53)) :
    valueOf (ratioBits part) ≤ length := by
  have hnonneg : 0 ≤ length := by
    rw [hlength]
    exact div_nonneg (Nat.cast_nonneg n) cast_quantaPerUnit_pos.le
  by_cases hsmall : ratioBits length ≤ 2 ^ 52
  · have hexact : valueOf (ratioBits length) = length := by
      rw [hlength] at hsmall ⊢
      exact valueOf_ratioBits_of_le hsmall
    have hpartLength : part ≤ length := by
      rw [hexact] at hle
      linarith
    have hmono := valueOf_strictMono.monotone (ratioBits_mono hpart hpartLength)
    exact hmono.trans_eq hexact
  · -- the product falls short of the double, the length reaches it
    have hpos : 0 < ratioBits length := by omega
    have hbound := ratioBits_le_infinityBits length
    have hreaches := (le_ratioBits_iff hnonneg hpos hbound).1 (le_refl _)
    have hshort : ratioBits part < ratioBits length := by
      by_contra hnot
      have hpartReaches := (le_ratioBits_iff hpart hpos hbound).1 (Nat.le_of_not_lt hnot)
      exact hsmall ((reaches_part_iff hpos).1 (hpartReaches.mono hle))
    calc valueOf (ratioBits part) ≤ valueOf (ratioBits length - 1) :=
          valueOf_strictMono.monotone (by omega)
      _ ≤ midpointBelow (ratioBits length) := by
          have hmono := valueOf_strictMono.monotone (Nat.sub_le (ratioBits length) 1)
          unfold midpointBelow
          linarith
      _ ≤ length := hreaches.midpointBelow_le

end Lengths

end LSystem.Number

namespace LSystem.Eval

open Randomness Number

section Range

variable {low high d u u' : Float}

/-- The product with a draw is rounded into the range of the factor. -/
theorem isFinite_mul_draw (hu : InUnit u) (hd : d.isFinite) (hpos : 0 ≤ value d) :
    (d * u).isFinite ∧ value (d * u) = valueOf (ratioBits (value d * value u)) := by
  have hproduct := isNearest_mul hd hu.isFinite
  have hone : value u ≤ 1 := by
    have hle := hu.le
    rw [value_greatestDraw] at hle
    linarith
  have hnonneg : 0 ≤ value d * value u := mul_nonneg hpos hu.nonneg
  have hlow : 0 ≤ d * u := by
    apply IsNearest.le_of_value_le rfl hproduct
    rwa [value_zero]
  have hhigh : d * u ≤ d := hproduct.le_of_le_value hd (mul_le_of_le_one_right hpos hone)
  exact ⟨isFinite_of_le_of_le rfl hd hlow hhigh, hproduct.value_of_nonneg hnonneg⟩

/-- The length of a range is not negative. -/
theorem value_length (hlow : low.isFinite) (hhigh : high.isFinite) (hle : low ≤ high) :
    0 ≤ value high - value low ∧
      value (high - low) = valueOf (ratioBits (value high - value low)) := by
  have hlength : 0 ≤ value high - value low := sub_nonneg.2 ((le_iff_value hlow hhigh).1 hle)
  exact ⟨hlength, (isNearest_sub hhigh hlow).value_of_nonneg hlength⟩

/-- **No draw leaves the range.** A product and a sum are rounded, and rounding is monotone and
fixes both ends; this holds for every draw and for every range of finite length. -/
theorem between_bounds (hlow : low.isFinite) (hhigh : high.isFinite) (hle : low ≤ high)
    (hd : (high - low).isFinite) (hu : InUnit u) :
    low ≤ between low high u ∧ between low high u ≤ high := by
  obtain ⟨hlength, hrounded⟩ := value_length hlow hhigh hle
  have hpos : 0 ≤ value (high - low) := hrounded ▸ valueOf_nonneg _
  obtain ⟨hfinite, hpart⟩ := isFinite_mul_draw hu hd hpos
  have hsum := isNearest_add hlow hfinite
  obtain ⟨n, hn⟩ := exists_length_eq ((le_iff_value hlow hhigh).1 hle)
  have hgreatest : value (high - low) * value u ≤
      valueOf (ratioBits (value high - value low)) * (1 - 1 / 2 ^ 53) := by
    rw [← hrounded, ← value_greatestDraw]
    exact mul_le_mul_of_nonneg_left hu.le hpos
  have hshort := ratioBits_part_le hn (mul_nonneg hpos hu.nonneg) hgreatest
  have hnonneg := valueOf_nonneg (ratioBits (value (high - low) * value u))
  constructor
  · apply IsNearest.le_of_value_le hlow hsum
    linarith
  · apply hsum.le_of_le_value hhigh
    linarith

/-- Greater draws lead to greater numbers. Each of the two roundings keeps the order of its exact
values. -/
theorem between_mono (hlow : low.isFinite) (hhigh : high.isFinite) (hle : low ≤ high)
    (hd : (high - low).isFinite) (hu : InUnit u) (hu' : InUnit u') (hdraws : value u ≤ value u') :
    between low high u ≤ between low high u' := by
  obtain ⟨-, hrounded⟩ := value_length hlow hhigh hle
  have hpos : 0 ≤ value (high - low) := hrounded ▸ valueOf_nonneg _
  obtain ⟨hfinite, -⟩ := isFinite_mul_draw hu hd hpos
  obtain ⟨hfinite', -⟩ := isFinite_mul_draw hu' hd hpos
  have hparts : (high - low) * u ≤ (high - low) * u' :=
    (isNearest_mul hd hu.isFinite).le (isNearest_mul hd hu'.isFinite)
      (mul_le_mul_of_nonneg_left hdraws hpos)
  have hvalues := (le_iff_value hfinite hfinite').1 hparts
  exact (isNearest_add hlow hfinite).le (isNearest_add hlow hfinite') (by linarith)

/-- The least double with all its digits. -/
def leastNormal : Float := 2.2250738585072014e-308

theorem isFinite_leastNormal : leastNormal.isFinite := by decide +kernel

/-- The least normal number is the first whose mantissa has all its digits. -/
theorem value_leastNormal : value leastNormal = valueOf (2 ^ 52) := by
  have hword : signedBits leastNormal =
      Float.Model.UnpackedFloat.Sign.positive.apply (2 ^ 52 : Nat) := by
    decide +kernel
  exact value_of_signedBits hword

/-- From zero on, the greatest draw falls short of the upper end unless this is among the
doubles without a leading digit. -/
theorem between_zero_lt_iff (hhigh : high.isFinite) (hpos : 0 < high) :
    between 0 high greatestDraw < high ↔ leastNormal < high := by
  have hvalue : 0 < value high := by
    rw [lt_iff_value rfl hhigh, value_zero] at hpos
    exact hpos
  have hlength : IsNearest (high - 0) (value high) := by
    have hnearest := isNearest_sub hhigh (y := 0) rfl
    rwa [value_zero, sub_zero] at hnearest
  obtain ⟨hd, hdvalue⟩ := hlength.of_value hhigh
  obtain ⟨hfinite, hpart⟩ := isFinite_mul_draw inUnit_greatestDraw hd (hdvalue ▸ hvalue.le)
  have hsum : IsNearest (between 0 high greatestDraw) (value ((high - 0) * greatestDraw)) := by
    have hnearest := isNearest_add (x := 0) rfl hfinite
    rwa [value_zero, zero_add] at hnearest
  obtain ⟨hbetween, hresult⟩ := hsum.of_value hfinite
  -- the word of the upper end
  have hword : value high = valueOf (ratioBits (value high)) :=
    (IsNearest.of_isFinite hhigh).value_of_nonneg hvalue.le
  have hbits : 0 < ratioBits (value high) := by
    rw [hword, ← valueOf_zero] at hvalue
    exact valueOf_strictMono.lt_iff_lt.1 hvalue
  have hnonneg : 0 ≤ value high * (1 - 1 / 2 ^ 53) := mul_nonneg hvalue.le (by norm_num)
  have hreaches : ratioBits (value high) ≤ ratioBits (value high * (1 - 1 / 2 ^ 53)) ↔
      ratioBits (value high) ≤ 2 ^ 52 := by
    rw [le_ratioBits_iff hnonneg hbits (ratioBits_le_infinityBits _), ← reaches_part_iff hbits,
      ← hword]
  rw [lt_iff_value hbetween hhigh, hresult, hpart, hdvalue, value_greatestDraw,
    lt_iff_value isFinite_leastNormal hhigh, value_leastNormal, hword, valueOf_strictMono.lt_iff_lt,
    valueOf_strictMono.lt_iff_lt, ← hword, ← not_le, hreaches, not_le]

end Range

/-! ### The function -/

section Function

variable {low high v : Float} {g g' : Generator}

/-- Every draw leads to an answer from one number to another, both included, and is the only
draw taken. -/
def StaysWithin (m : EvalM Float) (low high : Float) : Prop :=
  ∀ g : Generator, g.Bounded → ∃ v, Answers m g v g.next.2 ∧ low ≤ v ∧ v ≤ high

/-- No draw leads to an answer that reaches a number. -/
def StaysBelow (m : EvalM Float) (high : Float) : Prop :=
  ∀ g : Generator, g.Bounded → ∀ v g', Answers m g v g' → v < high

/-- A number between two others is one draw, scaled to the interval, and nothing else is drawn for
it. -/
theorem answers_randomBetween_iff :
    Answers (randomBetween low high) g v g' ↔ v = between low high g.next.1 ∧ g' = g.next.2 := by
  unfold randomBetween
  simp only [answers_bind_iff, answers_draw_iff, answers_pure_iff]
  constructor
  · rintro ⟨u, h, ⟨rfl, rfl⟩, rfl, rfl⟩
    exact ⟨rfl, rfl⟩
  · rintro ⟨rfl, rfl⟩
    exact ⟨_, _, ⟨rfl, rfl⟩, rfl, rfl⟩

/-- A random number is between its bounds, where these are finite and so is their distance. -/
theorem staysWithin_randomBetween (hlow : low.isFinite) (hhigh : high.isFinite) (hle : low ≤ high)
    (hd : (high - low).isFinite) : StaysWithin (randomBetween low high) low high := by
  intro g hg
  exact ⟨_, answers_randomBetween_iff.2 ⟨rfl, rfl⟩, between_bounds hlow hhigh hle hd hg.inUnit⟩

/-- The greatest draw decides whether the upper end is reached. The other draws are not greater
and so lead to no greater number. -/
theorem staysBelow_randomBetween_iff (hlow : low.isFinite) (hhigh : high.isFinite)
    (hle : low ≤ high) (hd : (high - low).isFinite) :
    StaysBelow (randomBetween low high) high ↔ between low high greatestDraw < high := by
  constructor
  · intro h
    have hg : Generator.Bounded ⟨⟨0, 0, 0, 0⟩, ⟨0, 0, 0, 0⟩, 0, [9007199254740991]⟩ := by
      intro bits hbits
      obtain rfl := List.mem_singleton.1 hbits
      decide
    exact h _ hg _ _ (answers_randomBetween_iff.2 ⟨rfl, rfl⟩)
  · intro h g hg v g' hv
    obtain ⟨rfl, -⟩ := answers_randomBetween_iff.1 hv
    have hu := hg.inUnit
    exact lt_of_le_lt (between_mono hlow hhigh hle hd hu inUnit_greatestDraw hu.le) h

/-- A range from zero on stays below its upper end unless this end is so small that the product
with the greatest draw is rounded up to it. -/
theorem randomBetween_zero (hhigh : high.isFinite) (hpos : 0 < high) :
    StaysWithin (randomBetween 0 high) 0 high ∧
      (StaysBelow (randomBetween 0 high) high ↔ leastNormal < high) := by
  have hzero : (0 : Float).isFinite := rfl
  have hvalue := (lt_iff_value hzero hhigh).1 hpos
  have hle : 0 ≤ high := (le_iff_value hzero hhigh).2 hvalue.le
  have hlength := isNearest_sub hhigh hzero
  rw [value_zero, sub_zero] at hlength
  have hd := (hlength.of_value hhigh).1
  rw [staysBelow_randomBetween_iff hzero hhigh hle hd, between_zero_lt_iff hhigh hpos]
  exact ⟨staysWithin_randomBetween hzero hhigh hle hd, Iff.rfl⟩

/-- **Where random numbers lie.**  `random(low, high)` answers with a number from `low` to
`high` for every draw, if the distance of the two is finite.  Whether `high` itself is ever
answered is told by the greatest draw alone.  `random(high)` answers with a number from zero to
`high`, and never with `high` exactly when this is greater than the least double with all its
digits; so `random()` is always below one. -/
theorem random_within (low high : Float) (hlow : low.isFinite) (hhigh : high.isFinite)
    (hlt : low < high) :
    ((high - low).isFinite → StaysWithin (random [low, high]) low high ∧
      (StaysBelow (random [low, high]) high ↔ between low high greatestDraw < high)) ∧
    (0 < high → StaysWithin (random [high]) 0 high ∧
      (StaysBelow (random [high]) high ↔ leastNormal < high)) ∧
    StaysWithin (random []) 0 1 ∧ StaysBelow (random []) 1 := by
  have hle : low ≤ high := (le_iff_value hlow hhigh).2 ((lt_iff_value hlow hhigh).1 hlt).le
  refine ⟨fun hd => ?_, fun hpos => randomBetween_zero hhigh hpos, ?_⟩
  · have hwithin := staysWithin_randomBetween hlow hhigh hle hd
    exact ⟨hwithin, staysBelow_randomBetween_iff hlow hhigh hle hd⟩
  · have hone : (0 : Float) < 1 := by decide +kernel
    have hnormal : leastNormal < 1 := by decide +kernel
    have hfinite : (1 : Float).isFinite := rfl
    obtain ⟨hwithin, hbelow⟩ := randomBetween_zero hfinite hone
    exact ⟨hwithin, hbelow.2 hnormal⟩

/-- Between one and two the greatest draw is rounded onto the upper end. -/
theorem random_one_two : StaysWithin (random [1, 2]) 1 2 ∧ ¬ StaysBelow (random [1, 2]) 2 ∧
    StaysBelow (random [2]) 2 := by
  have hlt : (1 : Float) < 2 := by decide +kernel
  have hpos : (0 : Float) < 2 := by decide +kernel
  have hnormal : leastNormal < 2 := by decide +kernel
  have hreached : ¬ between 1 2 greatestDraw < 2 := by decide +kernel
  obtain ⟨htwo, hone, -⟩ := random_within 1 2 rfl rfl hlt
  obtain ⟨hwithin, hbelow⟩ := htwo rfl
  exact ⟨hwithin, fun h => hreached (hbelow.1 h), (hone hpos).2.2 hnormal⟩

/-- The upper end can be answered: the first draw of a seed is rounded onto it where the ends
are neighbours, and also from zero on where they are the least doubles. -/
theorem random_reaches_high :
    (¬ ∀ low high : Float, low.isFinite → high.isFinite → low < high → (high - low).isFinite →
      StaysBelow (random [low, high]) high) ∧
    ¬ ∀ high : Float, high.isFinite → 0 < high → StaysBelow (random [high]) high := by
  have hbounded : (Generator.ofSeed 0).Bounded := Generator.bounded_of_seed 0 0
  constructor
  · intro h
    have hreached : ¬ between 1 1.0000000000000002 (Generator.ofSeed 0).next.1 <
        1.0000000000000002 := by
      decide +kernel
    exact hreached (h 1 1.0000000000000002 rfl (by decide +kernel) (by decide +kernel)
      (by decide +kernel) _ hbounded _ _ (answers_randomBetween_iff.2 ⟨rfl, rfl⟩))
  · intro h
    have hreached : ¬ between 0 5e-324 (Generator.ofSeed 0).next.1 < 5e-324 := by decide +kernel
    exact hreached (h 5e-324 (by decide +kernel) (by decide +kernel) _ hbounded _ _
      (answers_randomBetween_iff.2 ⟨rfl, rfl⟩))

end Function

end LSystem.Eval
