import LSystem.Number.Shortest
import Mathlib.Tactic.Linarith
import Mathlib.Tactic.Ring

/-!
# Decimals that round to a double

Every ratio in the rounding interval of a double has that double as its nearest.
Below a power of two the doubles lie twice as close, so there a ratio may be
shifted by one place less than the double itself; it is then rounded up to the
next power of two, which carries into the shift.

The search for the shortest decimal ends with a decimal of the interval, whatever
number of grids it has looked at.
-/

namespace LSystem.Number

/-! ### Rounding to whole numbers -/

/-- A quotient is rounded to a number that is nearer than a half, or at a half
and even. -/
theorem roundHalfEven_eq {num den r : Nat} (hden : 0 < den) (hlow : 2 * r * den ≤ 2 * num + den)
    (hhigh : 2 * num ≤ 2 * r * den + den)
    (htie : r % 2 = 0 ∨ (2 * r * den < 2 * num + den ∧ 2 * num < 2 * r * den + den)) :
    roundHalfEven num den = r := by
  have hsplit : den * (num / den) + num % den = num := Nat.div_add_mod num den
  have hrest : num % den < den := Nat.mod_lt num hden
  unfold roundHalfEven
  simp only
  generalize num / den = w at hsplit ⊢
  generalize num % den = t at hsplit hrest ⊢
  have hle : r ≤ w + 1 := by
    by_contra hlt
    have hmul : (w + 2) * den ≤ r * den := Nat.mul_le_mul_right den (by omega)
    nlinarith
  have hge : w ≤ r := by
    by_contra hlt
    have hmul : (r + 1) * den ≤ w * den := Nat.mul_le_mul_right den (by omega)
    nlinarith
  obtain rfl | rfl : r = w ∨ r = w + 1 := by omega
  · have htwice : 2 * t ≤ den := by nlinarith
    rw [if_neg (c := den < 2 * t) (by omega)]
    split
    · rfl
    · have heven : r % 2 = 0 := by
        rcases htie with heven | hstrict
        · exact heven
        · exfalso
          nlinarith
      omega
  · have htwice : den ≤ 2 * t := by nlinarith
    rw [if_neg (c := 2 * t < den) (by omega)]
    split
    · rfl
    · have heven : (w + 1) % 2 = 0 := by
        rcases htie with heven | hstrict
        · exact heven
        · exfalso
          nlinarith
      omega

/-! ### Words and significands -/

/-- A significand and a shift that belong to a finite word. -/
structure Normal (m p : Nat) : Prop where
  pos : 0 < m
  lt : m < 2 ^ 53
  normal : 0 < p → 2 ^ 52 ≤ m

section Words

variable {bits : Nat}

/-- A finite word is its shift in steps of `2 ^ 52` and its significand: the bit that a normal
significand adds is the one that the shift leaves off. -/
theorem bits_eq (bits : Nat) : bits = shiftOf bits * 2 ^ 52 + significandOf bits := by
  unfold significandOf shiftOf
  omega

/-- The significand of a positive word is positive and below `2 ^ 53`, and from `2 ^ 52` on as
soon as the word is shifted. -/
theorem normal_of_bits (hpos : 0 < bits) :
    Normal (significandOf bits) (shiftOf bits) := by
  unfold significandOf shiftOf
  constructor
  · omega
  · omega
  · intro hp
    omega

end Words

/-! ### The nearest double -/

section Nearest

variable {m p num den : Nat}

/-- A ratio that rounds to a double, in quanta. -/
structure Between (m p exact den : Nat) : Prop where
  low : (roundingInterval m p).low * den ≤ 4 * exact
  high : 4 * exact ≤ (roundingInterval m p).high * den
  strict : m % 2 ≠ 0 → (roundingInterval m p).low * den < 4 * exact ∧
    4 * exact < (roundingInterval m p).high * den

/-- A decimal that the search accepts lies in the rounding interval as a ratio of quanta, over the
denominator of its grid. -/
theorem between_of_holds {k : Int} {d : Nat} (h : (roundingInterval m p).holds k d) :
    Between m p (d * 10 ^ k.toNat * quantaPerUnit) (gridFactor k) := by
  have hpoint : d * gridStep k = 4 * (d * 10 ^ k.toNat * quantaPerUnit) := by
    unfold gridStep
    ring
  unfold RoundingInterval.holds at h
  simp only [hpoint] at h
  have hclosed : (roundingInterval m p).closed = decide (m % 2 = 0) := rfl
  split at h
  · rename_i hc
    rw [hclosed, decide_eq_true_eq] at hc
    simp only [Bool.and_eq_true, decide_eq_true_eq] at h
    exact ⟨h.1, h.2, fun hodd => absurd hc hodd⟩
  · simp only [Bool.and_eq_true, decide_eq_true_eq] at h
    exact ⟨Nat.le_of_lt h.1, Nat.le_of_lt h.2, fun _ => h⟩

/-- The shift of a ratio with 53 digits before it. By it the search for the exponent of a ratio
finds the shift of the double that is nearest. -/
theorem log2_div_sub {exact s : Nat} (hden : 0 < den) (hlow : 2 ^ 52 * 2 ^ s * den ≤ exact)
    (hhigh : exact < 2 ^ 53 * 2 ^ s * den) : Nat.log2 (exact / den) - 52 = s := by
  have hle : 2 ^ (52 + s) ≤ exact / den := by
    rw [Nat.le_div_iff_mul_le hden, Nat.pow_add]
    exact hlow
  have hlt : exact / den < 2 ^ (52 + s + 1) := by
    rw [Nat.div_lt_iff_lt_mul hden, show 52 + s + 1 = 53 + s from by omega, Nat.pow_add]
    exact hhigh
  have hne : exact / den ≠ 0 := by omega
  rw [(Nat.log2_eq_iff hne).2 ⟨hle, hlt⟩]
  omega

/-- A ratio with no more than 53 digits before it is not shifted. -/
theorem log2_div_sub_zero {exact : Nat} (hden : 0 < den) (hhigh : exact < 2 ^ 53 * den) :
    Nat.log2 (exact / den) - 52 = 0 := by
  have hlt : exact / den < 2 ^ 53 := (Nat.div_lt_iff_lt_mul hden).2 hhigh
  by_cases hzero : exact / den = 0
  · rw [hzero]
    rfl
  · have hlog : (exact / den).log2 < 53 := (Nat.log2_lt hzero).2 hlt
    omega

/-- The bounds of an interval whose neighbours are equally far. -/
theorem low_of_not_power (h : ¬ (m = 2 ^ 52 ∧ 0 < p)) :
    (roundingInterval m p).low = 4 * m * 2 ^ p - 2 * 2 ^ p := by
  simp only [roundingInterval, if_neg h]

/-- Below a power of two the doubles are twice as dense, so the interval reaches down by a quarter
of a step only. -/
theorem low_of_power (h : m = 2 ^ 52 ∧ 0 < p) :
    (roundingInterval m p).low = 4 * m * 2 ^ p - 2 ^ p := by
  simp only [roundingInterval, if_pos h]

/-- Upwards the interval always reaches half a step, written in quarters of a quantum like the
other end. -/
theorem high_eq : (roundingInterval m p).high = 4 * m * 2 ^ p + 2 * 2 ^ p := rfl

/-- The midpoint below a significand and the digits from there to the significand. -/
theorem midpoint_mul_add (p den : Nat) (hm : 0 < m) :
    (4 * m * 2 ^ p - 2 * 2 ^ p) * den + 2 * (2 ^ p * den) = 4 * (m * (2 ^ p * den)) := by
  obtain ⟨rest, hrest⟩ : ∃ rest, 4 * m * 2 ^ p = 2 * 2 ^ p + rest :=
    Nat.exists_eq_add_of_le (by nlinarith [Nat.pow_pos (n := p) (show 0 < 2 by decide)])
  calc (4 * m * 2 ^ p - 2 * 2 ^ p) * den + 2 * (2 ^ p * den)
      = (2 * 2 ^ p + rest) * den := by
        rw [hrest, Nat.add_sub_cancel_left]
        ring
    _ = 4 * m * 2 ^ p * den := by rw [hrest]
    _ = 4 * (m * (2 ^ p * den)) := by ring

/-- What is not above the midpoint to the next significand has 53 digits at most. -/
theorem lt_of_le_midpoint {exact : Nat} (hden : 0 < den) (hm : m < 2 ^ 53)
    (hhigh : 4 * exact ≤ (4 * m * 2 ^ p + 2 * 2 ^ p) * den) : exact < 2 ^ 53 * 2 ^ p * den := by
  have hle : (m + 1) * (2 ^ p * den) ≤ 2 ^ 53 * (2 ^ p * den) := Nat.mul_le_mul_right _ hm
  have hpos : 0 < 2 ^ p * den := Nat.mul_pos (Nat.pow_pos (by decide)) hden
  have hnext : (4 * m * 2 ^ p + 2 * 2 ^ p) * den + 2 * (2 ^ p * den) =
      4 * ((m + 1) * (2 ^ p * den)) := by ring
  rw [Nat.mul_assoc]
  omega

/-- What is not below the midpoint under a significand other than the least has 53 digits. -/
theorem le_of_midpoint_le {exact : Nat} (hm : 2 ^ 52 < m)
    (hlow : (4 * m * 2 ^ p - 2 * 2 ^ p) * den ≤ 4 * exact) : 2 ^ 52 * 2 ^ p * den ≤ exact := by
  have hle : (2 ^ 52 + 1) * (2 ^ p * den) ≤ m * (2 ^ p * den) := Nat.mul_le_mul_right _ hm
  have hmidpoint := midpoint_mul_add p den (show 0 < m by omega)
  rw [Nat.mul_assoc]
  omega

/-- The ratio is rounded to the significand, once it is shifted like it. An odd significand has to
be strictly inside, since a ratio at an end goes to the even neighbour. -/
theorem roundHalfEven_of_bounds {exact : Nat} (hden : 0 < den) (hm : 0 < m)
    (hlow : (4 * m * 2 ^ p - 2 * 2 ^ p) * den ≤ 4 * exact)
    (hhigh : 4 * exact ≤ (4 * m * 2 ^ p + 2 * 2 ^ p) * den)
    (hstrict : m % 2 ≠ 0 → (4 * m * 2 ^ p - 2 * 2 ^ p) * den < 4 * exact ∧
      4 * exact < (4 * m * 2 ^ p + 2 * 2 ^ p) * den) :
    roundHalfEven exact (den * 2 ^ p) = m := by
  have hmidpoint := midpoint_mul_add p den hm
  have hnext : (4 * m * 2 ^ p + 2 * 2 ^ p) * den =
      4 * (m * (2 ^ p * den)) + 2 * (2 ^ p * den) := by ring
  have hscaled : 2 * m * (2 ^ p * den) = 2 * (m * (2 ^ p * den)) := Nat.mul_assoc _ _ _
  rw [Nat.mul_comm den]
  apply roundHalfEven_eq (Nat.mul_pos (Nat.pow_pos (by decide)) hden)
  · omega
  · omega
  · by_cases heven : m % 2 = 0
    · exact .inl heven
    · obtain ⟨hlow', hhigh'⟩ := hstrict heven
      refine .inr ⟨?_, ?_⟩ <;> omega

/-- The nearest word of a ratio, when its shift and its significand are known. -/
theorem nearestBits_eq {shift r : Nat}
    (hshift : Nat.log2 (num * quantaPerUnit / den) - 52 = shift)
    (hround : roundHalfEven (num * quantaPerUnit) (den * 2 ^ shift) = r) :
    nearestBits num den = min infinityBits (shift * 2 ^ 52 + r) := by
  unfold nearestBits
  simp only [hshift, hround]

/-- Just below a power of two a ratio is shifted by one place less than the power, and the
last digit has half the weight.  It is rounded up, and the carry goes into the shift. -/
theorem nearestBits_below_power {s : Nat} (hden : 0 < den)
    (hlow : (4 * 2 ^ 52 * 2 ^ (s + 1) - 2 ^ (s + 1)) * den ≤ 4 * (num * quantaPerUnit))
    (hhigh : num * quantaPerUnit < 2 ^ 52 * 2 ^ (s + 1) * den) :
    nearestBits num den = min infinityBits ((s + 1) * 2 ^ 52 + 2 ^ 52) := by
  have hmidpoint : (4 * 2 ^ 52 * 2 ^ (s + 1) - 2 ^ (s + 1)) * den + 2 * (den * 2 ^ s) =
      2 ^ 55 * (den * 2 ^ s) := by
    have hdigits : 4 * 2 ^ 52 * 2 ^ (s + 1) - 2 ^ (s + 1) = (2 ^ 55 - 2) * 2 ^ s := by
      rw [Nat.pow_succ]
      omega
    rw [hdigits]
    ring
  have hpower : 2 ^ 52 * 2 ^ (s + 1) * den = 2 ^ 53 * (den * 2 ^ s) := by ring
  have hpos : 0 < den * 2 ^ s := Nat.mul_pos hden (Nat.pow_pos (by decide))
  have hlog : Nat.log2 (num * quantaPerUnit / den) - 52 = s := by
    have hassoc (k : Nat) : k * 2 ^ s * den = k * (den * 2 ^ s) := by ring
    apply log2_div_sub hden <;> rw [hassoc] <;> omega
  have hround : roundHalfEven (num * quantaPerUnit) (den * 2 ^ s) = 2 ^ 53 := by
    apply roundHalfEven_eq hpos
    · omega
    · omega
    · exact .inl rfl
  have hcarry : (s + 1) * 2 ^ 52 + 2 ^ 52 = s * 2 ^ 52 + 2 ^ 53 := by ring
  rw [hcarry]
  exact nearestBits_eq hlog hround

/-- **Nearest doubles.**  A ratio between the midpoints to the neighbours of a
double is rounded to the double, and to infinity beyond the finite range. -/
theorem nearestBits_of_between (hden : 0 < den) (hnormal : Normal m p)
    (h : Between m p (num * quantaPerUnit) den) :
    nearestBits num den = min infinityBits (p * 2 ^ 52 + m) := by
  obtain ⟨hlow, hhigh, hstrict⟩ := h
  rw [high_eq] at hhigh hstrict
  have hbelow := lt_of_le_midpoint hden hnormal.lt hhigh
  by_cases hpower : m = 2 ^ 52 ∧ 0 < p
  · rw [low_of_power hpower] at hlow hstrict
    obtain ⟨rfl, hp⟩ := hpower
    by_cases hshift : 2 ^ 52 * 2 ^ p * den ≤ num * quantaPerUnit
    · refine nearestBits_eq (log2_div_sub hden hshift hbelow) ?_
      refine roundHalfEven_of_bounds hden hnormal.pos ?_ hhigh (fun hodd => absurd rfl hodd)
      refine Nat.le_trans (Nat.mul_le_mul_right den ?_) hlow
      omega
    · obtain ⟨s, rfl⟩ : ∃ s, p = s + 1 := ⟨p - 1, by omega⟩
      exact nearestBits_below_power hden hlow (Nat.lt_of_not_le hshift)
  · rw [low_of_not_power hpower] at hlow hstrict
    refine nearestBits_eq ?_ (roundHalfEven_of_bounds hden hnormal.pos hlow hhigh hstrict)
    rcases Nat.eq_zero_or_pos p with rfl | hp
    · exact log2_div_sub_zero hden (by simpa using hbelow)
    · have hmore : 2 ^ 52 < m := by
        have hge := hnormal.normal hp
        omega
      exact log2_div_sub hden (le_of_midpoint_le hmore hlow) hbelow

/-! ### The search -/

/-- A neighbour that is found on a grid rounds to the double. There are two neighbours on each
grid, and the interval is asked of the one that is taken. -/
theorem holds_of_onGrid {i : RoundingInterval} {tie : Tie} {k : Int} {d : Nat}
    (h : i.onGrid tie k = some d) : i.holds k d := by
  unfold RoundingInterval.onGrid at h
  simp only at h
  split at h
  · rename_i hfirst _
    obtain rfl := Option.some.inj h
    exact hfirst
  · rename_i _ hsecond
    obtain rfl := Option.some.inj h
    exact hsecond
  · cases h
  · rename_i hfirst hsecond
    split at h
    · obtain rfl := Option.some.inj h
      exact hfirst
    · split at h
      · obtain rfl := Option.some.inj h
        exact hsecond
      · cases tie with
        | up =>
            obtain rfl := Option.some.inj h
            exact hsecond
        | even =>
            obtain rfl := Option.some.inj h
            rcases Nat.mod_two_eq_zero_or_one (i.value * gridFactor k / gridStep k) with h | h
            · rw [h]
              exact hfirst
            · rw [h]
              exact hsecond

/-- The decimal of all digits is the double itself. It lies in the middle of the rounding
interval, so the search is certain to end with a decimal that it accepts. -/
theorem holds_exact (hm : 0 < m) (tie : Tie) (k : Int) :
    (roundingInterval m p).holds ((roundingInterval m p).search tie 0 k).exponent
      ((roundingInterval m p).search tie 0 k).digits := by
  have hpos : 0 < 2 ^ p := Nat.pow_pos (by decide)
  have hvalue : (roundingInterval m p).value = 4 * m * 2 ^ p := rfl
  have hvaluepos : 0 < 4 * m * 2 ^ p := Nat.mul_pos (by omega) hpos
  have hlow : (roundingInterval m p).low < 4 * m * 2 ^ p := by
    by_cases hpower : m = 2 ^ 52 ∧ 0 < p
    · rw [low_of_power hpower]
      omega
    · rw [low_of_not_power hpower]
      omega
  have hhigh : 4 * m * 2 ^ p < (roundingInterval m p).high := by
    rw [high_eq]
    omega
  have hfactor : 0 < gridFactor (-1076) := Nat.pow_pos (by decide)
  unfold RoundingInterval.search
  generalize hd : (roundingInterval m p).value * _ = d
  have hpoint : d * gridStep (-1076) = 4 * m * 2 ^ p * gridFactor (-1076) := by
    rw [← hd, hvalue, Nat.mul_assoc]
    refine congrArg (4 * m * 2 ^ p * ·) (?_ : _ = gridFactor (-1076))
    decide +kernel
  unfold RoundingInterval.holds
  simp only [hpoint]
  have hlt := Nat.mul_lt_mul_of_pos_right hlow hfactor
  have hlt' := Nat.mul_lt_mul_of_pos_right hhigh hfactor
  split
  · simp only [Bool.and_eq_true, decide_eq_true_eq]
    exact ⟨Nat.le_of_lt hlt, Nat.le_of_lt hlt'⟩
  · simp only [Bool.and_eq_true, decide_eq_true_eq]
    exact ⟨hlt, hlt'⟩

/-- However many grids are looked at, the decimal that is found rounds to the
double. -/
theorem holds_search (hm : 0 < m) (tie : Tie) (grids : Nat) (k : Int) :
    (roundingInterval m p).holds ((roundingInterval m p).search tie grids k).exponent
      ((roundingInterval m p).search tie grids k).digits := by
  induction grids generalizing k with
  | zero => exact holds_exact hm tie k
  | succ grids ih =>
      rw [RoundingInterval.search]
      split
      · rename_i d hd
        exact holds_of_onGrid hd
      · exact ih (k - 1)

/-- **The shortest decimal reads back.** The search ends with a decimal of the rounding interval,
however many grids it has looked at, and every such decimal has the double for its nearest. -/
theorem nearestBits_shortest (tie : Tie) {bits : Nat} (hpos : 0 < bits)
    (hfinite : bits ≤ infinityBits) :
    nearestBits ((shortest tie (significandOf bits) (shiftOf bits)).digits *
        10 ^ (shortest tie (significandOf bits) (shiftOf bits)).exponent.toNat)
      (gridFactor (shortest tie (significandOf bits) (shiftOf bits)).exponent) = bits := by
  have hnormal := normal_of_bits hpos
  have hbits := bits_eq bits
  have hholds := holds_search (p := shiftOf bits) hnormal.pos tie 24
    (coarseGrid (roundingInterval (significandOf bits) (shiftOf bits)).value)
  have hden : 0 < gridFactor (shortest tie (significandOf bits) (shiftOf bits)).exponent :=
    Nat.pow_pos (by decide)
  have hnearest := nearestBits_of_between hden hnormal (between_of_holds hholds)
  rw [← hbits, Nat.min_eq_right hfinite] at hnearest
  exact hnearest

end Nearest

end LSystem.Number
