import FailureProbability.Proofs.Binary64.Word

/-!
# Rounding to doubles

A number that is near enough to a double is rounded to it: nearer than half of the last binary
place, or than a quarter of it below a power of two, where the neighbour is half as far away
(`word_eq_of_near`). A quotient is taken so finely that its rounding adds next to nothing to the
distance (`exists_ofRatio`). Hence what agrees with a double in seventeen decimal digits is read as
this double (`ofRatio_eq_of_near`).

Distances are strict, so that ties never come up: to which side they go is a matter of `roundDiv`
and is not needed. Numbers are rational here, and parts stand for the rational number that they
denote (`Parts.value`), with the sign left aside. That rounding finds the nearest double is only
stated of numbers that are near to one, and not of numbers beyond the largest.
-/

namespace FailureProbability

/-! ## Rounding to whole numbers -/

namespace Decimal

variable {n d r : ℕ}

/-- A quotient is rounded by no more than one half. -/
theorem roundDiv_near (hd : 0 < d) : 2 * |(n : ℤ) - roundDiv n d * d| ≤ d := by
  have hsplit : (n : ℤ) = (n / d : ℕ) * d + (n % d : ℕ) := by exact_mod_cast (Nat.div_add_mod' n d).symm
  have hmod := Nat.mod_lt n hd
  have hdown (h : 2 * (n % d) ≤ d) : 2 * |(n : ℤ) - (n / d : ℕ) * d| ≤ d := by
    rw [sub_eq_of_eq_add' hsplit, abs_of_nonneg (Int.natCast_nonneg _)]
    exact_mod_cast h
  have hup (h : d ≤ 2 * (n % d)) : 2 * |(n : ℤ) - (n / d + 1 : ℕ) * d| ≤ d := by
    rw [hsplit, Nat.cast_add_one, add_one_mul, add_sub_add_left_eq_sub, abs_of_neg (by omega)]
    omega
  unfold roundDiv
  dsimp only
  split
  case isTrue h => exact hdown h.le
  case isFalse h =>
    split
    case isTrue h' => exact hup h'.le
    case isFalse h' =>
      split
      · exact hdown (not_lt.mp h')
      · exact hup (not_lt.mp h)

theorem roundDiv_div_near (hd : 0 < d) : |(n : ℚ) / d - roundDiv n d| ≤ 1 / 2 := by
  have hd' : (0 : ℚ) < d := by exact_mod_cast hd
  rw [div_sub' hd'.ne', abs_div, abs_of_pos hd', div_le_div_iff₀ hd' two_pos, one_mul, mul_comm,
    mul_comm (d : ℚ)]
  exact_mod_cast roundDiv_near (n := n) hd

/-- A quotient is rounded to the whole number that it is nearer to than one half. -/
theorem roundDiv_eq_of_near (h : 2 * |(n : ℤ) - r * d| < d) : roundDiv n d = r := by
  have hd : 0 < d := by
    have := abs_nonneg ((n : ℤ) - r * d)
    omega
  have hdistance : |((roundDiv n d : ℤ) - r) * d| < d := by
    have hrounded := roundDiv_near (n := n) hd
    have htriangle := abs_sub_le ((roundDiv n d : ℤ) * d) n (r * d)
    rw [abs_sub_comm ((roundDiv n d : ℤ) * d) n] at htriangle
    rw [sub_mul]
    omega
  rw [abs_mul, Nat.abs_cast] at hdistance
  have hone : |(roundDiv n d : ℤ) - r| < 1 :=
    lt_of_mul_lt_mul_right (by rwa [one_mul]) (Int.natCast_nonneg d)
  exact_mod_cast sub_eq_zero.mp (Int.abs_lt_one_iff.mp hone)

end Decimal

namespace Binary64

/-! ## The value of parts

Parts are rounded at a place that depends on the power of two of their first digit. The value of
the parts tells this power, and how far the value is from its neighbours. -/

/-- The number without its sign. -/
def Parts.value (p : Parts) : ℚ := p.significand * 2 ^ p.exponent

variable {p m : Parts}

theorem Parts.value_nonneg (p : Parts) : 0 ≤ p.value := by
  unfold value
  positivity

/-- The power of two of the first digit. -/
theorem Parts.value_lt_iff (hp : p.significand ≠ 0) (k : ℤ) :
    p.value < 2 ^ k ↔ p.exponent + p.significand.log2 < k := by
  have hlow : (2 : ℚ) ^ (p.exponent + p.significand.log2) ≤ p.value := by
    rw [add_comm, zpow_add₀ two_ne_zero, zpow_natCast]
    exact mul_le_mul_of_nonneg_right (by exact_mod_cast Nat.log2_self_le hp) (by positivity)
  have hhigh : p.value < (2 : ℚ) ^ (p.exponent + p.significand.log2 + 1) := by
    rw [add_assoc, add_comm, zpow_add₀ two_ne_zero]
    refine mul_lt_mul_of_pos_right ?_ (by positivity)
    exact_mod_cast Nat.lt_log2_self
  constructor
  · intro h
    exact (zpow_lt_zpow_iff_right₀ one_lt_two).mp (hlow.trans_lt h)
  · intro h
    exact hhigh.trans_le ((zpow_le_zpow_iff_right₀ one_lt_two).mpr h)

/-- Digits beyond the last place are rounded away. -/
theorem Parts.rounded_eq_of_near {r : ℕ} (hplace : p.exponent < p.lastPlace)
    (h : |p.value - r * 2 ^ p.lastPlace| < 2 ^ p.lastPlace / 2) : p.rounded = r := by
  unfold rounded
  rw [if_neg (not_le.mpr hplace), Nat.pow_eq]
  apply Decimal.roundDiv_eq_of_near
  obtain ⟨k, hk⟩ := Int.eq_ofNat_of_zero_le (sub_nonneg.mpr hplace.le)
  have hunit : (2 : ℚ) ^ p.lastPlace = 2 ^ k * 2 ^ p.exponent := by
    rw [← zpow_natCast, ← zpow_add₀ two_ne_zero]
    congr 1
    omega
  rw [hk, Int.toNat_natCast]
  rw [hunit] at h
  unfold value at h
  have hpos : (0 : ℚ) < 2 ^ p.exponent := by positivity
  rw [← mul_assoc, ← sub_mul, abs_mul, abs_of_pos hpos, mul_div_right_comm,
    mul_lt_mul_iff_left₀ hpos, lt_div_iff₀ two_pos, mul_comm] at h
  exact_mod_cast h

/-! ## Words of rounded parts

A number near to a double has its first digit at the same place as the double, with one exception:
just below a power of two it is one place further down. There the digits are rounded up through all
places, and the carry makes up the word of the power. -/

theorem Parts.IsStored.storedWord_le (hm : m.IsStored) : m.storedWord ≤ infinityWord := by
  have hlt := hm.significand_lt
  have hle := hm.exponent_le
  have hmin := hm.minExponent_le
  unfold storedWord infinityWord
  rw [Nat.pow_eq]
  unfold minExponent at *
  omega

/-- Parts are stored as others if their digits, cut at the last place, make up the same word. -/
theorem word_eq_of_rounded (hm : m.IsStored) (hne : p.significand ≠ 0) {r : ℕ}
    (hplace : p.exponent < p.lastPlace) (hnear : |p.value - r * 2 ^ p.lastPlace| < 2 ^ p.lastPlace / 2)
    (hsame : (p.lastPlace - minExponent).toNat * 2 ^ 52 + r = m.storedWord) : p.word = m.storedWord := by
  unfold Parts.word
  rw [if_neg hne, Parts.rounded_eq_of_near hplace hnear, Nat.pow_eq, hsame]
  exact min_eq_right hm.storedWord_le

/-- Only a power of two has numbers that are near to it and have their first digit below it. -/
theorem significand_of_lt (hlow : m.value - 2 ^ m.exponent / 2 < p.value)
    (hnormal : 2 ^ 52 ≤ m.significand) (hbinade : p.value < 2 ^ (m.exponent + 52)) :
    m.significand = 2 ^ 52 := by
  refine le_antisymm (not_lt.mp fun hlt => ?_) hnormal
  have hpos : (0 : ℚ) < 2 ^ m.exponent := by positivity
  have hnext : (2 ^ 52 + 1) * (2 : ℚ) ^ m.exponent ≤ m.value :=
    mul_le_mul_of_nonneg_right (by exact_mod_cast hlt) hpos.le
  rw [zpow_add₀ two_ne_zero] at hbinade
  norm_num at hbinade hnext
  linarith

theorem Parts.exponent_lt_lastPlace (hp : 2 ^ 53 ≤ p.significand) : p.exponent < p.lastPlace := by
  have hlog : 53 ≤ p.significand.log2 := (Nat.le_log2 (by omega)).mpr hp
  unfold lastPlace
  omega

/-- What is near to stored parts has no more digits than they have. -/
theorem value_lt_of_near (hm : m.IsStored) (hhigh : p.value - m.value < 2 ^ m.exponent / 2) :
    p.value < 2 ^ (m.exponent + 53) := by
  have hpos : (0 : ℚ) < 2 ^ m.exponent := by positivity
  have hnext : m.value + 2 ^ m.exponent ≤ 2 ^ 53 * (2 : ℚ) ^ m.exponent := by
    unfold Parts.value
    rw [← add_one_mul]
    exact mul_le_mul_of_nonneg_right (by exact_mod_cast hm.significand_lt) hpos.le
  rw [zpow_add₀ two_ne_zero]
  norm_num at hnext ⊢
  linarith

/-- Below a power of two the last place is one further down; what is near to the power is rounded up
to it, by a carry through all digits. -/
theorem word_eq_of_carry (hm : m.IsStored) (hp : 2 ^ 53 ≤ p.significand)
    (hmin : minExponent < m.exponent) (hpower : m.significand = 2 ^ 52)
    (hnear : |p.value - m.value| < 2 ^ m.exponent / 4)
    (hbinade : p.value < 2 ^ (m.exponent + 52)) : p.word = m.storedWord := by
  have hne : p.significand ≠ 0 := by omega
  have hpos : (0 : ℚ) < 2 ^ m.exponent := by positivity
  obtain ⟨hlow, -⟩ := abs_lt.mp hnear
  have hvalue : m.value = 2 ^ 53 * 2 ^ (m.exponent - 1) := by
    unfold Parts.value
    rw [hpower, zpow_sub_one₀ two_ne_zero]
    norm_num
    ring
  have hbottom : ¬p.value < 2 ^ (m.exponent + 51) := by
    rw [not_lt, zpow_add₀ two_ne_zero]
    rw [hvalue, zpow_sub_one₀ two_ne_zero] at hlow
    norm_num at hlow ⊢
    linarith
  rw [Parts.value_lt_iff hne] at hbinade hbottom
  have hbefore : p.lastPlace = m.exponent - 1 := by
    unfold Parts.lastPlace
    omega
  refine word_eq_of_rounded hm hne (r := 2 ^ 53) (Parts.exponent_lt_lastPlace hp) ?_ ?_
  · rw [hbefore, Nat.cast_pow, Nat.cast_ofNat, ← hvalue, zpow_sub_one₀ two_ne_zero]
    linarith
  · unfold Parts.storedWord
    omega

/-- Parts are rounded to the stored ones that they are near to. -/
theorem word_eq_of_near (hm : m.IsStored) (hp : 2 ^ 53 ≤ p.significand)
    (hnear : |p.value - m.value| < 2 ^ m.exponent / 2)
    (hbelow : m.significand = 2 ^ 52 → |p.value - m.value| < 2 ^ m.exponent / 4) :
    p.word = m.storedWord := by
  have hne : p.significand ≠ 0 := by omega
  obtain ⟨hlow, hhigh⟩ := abs_lt.mp hnear
  have hplace := Parts.exponent_lt_lastPlace hp
  have htop := value_lt_of_near hm hhigh
  rw [Parts.value_lt_iff hne] at htop
  have hsame (h : p.lastPlace = m.exponent) : p.word = m.storedWord := by
    refine word_eq_of_rounded hm hne hplace ?_ (by rw [h]; rfl)
    rw [h]
    exact hnear
  -- The last places agree at the least exponent, and above it within the same power of two.
  by_cases hleast : m.exponent = minExponent
  · apply hsame
    unfold Parts.lastPlace
    omega
  have hmin : minExponent < m.exponent := lt_of_le_of_ne hm.minExponent_le (Ne.symm hleast)
  by_cases hbinade : p.value < 2 ^ (m.exponent + 52)
  · have hpower := significand_of_lt (by linarith) (hm.normal hmin) hbinade
    exact word_eq_of_carry hm hp hmin hpower (hbelow hpower) hbinade
  · apply hsame
    rw [Parts.value_lt_iff hne] at hbinade
    unfold Parts.lastPlace
    omega

/-! ## Quotients

A decimal text is a quotient of two whole numbers. It is cut off after more digits than a double
has, with one more digit that says whether anything was lost; so it is on the same side of every
tie as the quotient, and nearly as near to the double. -/

/-- The shift of a quotient gives it 66 binary digits. -/
theorem mul_shift_le {a d : ℕ} (ha : a ≠ 0) :
    2 ^ 65 * d ≤ a * 2 ^ (66 + d.log2 - a.log2) := by
  calc 2 ^ 65 * d ≤ 2 ^ 65 * 2 ^ (d.log2 + 1) := Nat.mul_le_mul_left _ Nat.lt_log2_self.le
    _ = 2 ^ (66 + d.log2) := by rw [← pow_add]; congr 1; omega
    _ ≤ 2 ^ (a.log2 + (66 + d.log2 - a.log2)) := Nat.pow_le_pow_right two_pos (by omega)
    _ ≤ a * 2 ^ (66 + d.log2 - a.log2) := by
      rw [pow_add]
      exact Nat.mul_le_mul_right _ (Nat.log2_self_le ha)

/-- One digit more says whether anything was cut off. -/
theorem sticky_near {a d : ℕ} (hd : 0 < d) :
    |((2 * (a / d) + if a % d = 0 then 0 else 1 : ℕ) : ℚ) - 2 * (a / d)| ≤ 1 := by
  have hd' : (0 : ℚ) < d := by exact_mod_cast hd
  have hsplit : (a : ℚ) / d = (a / d : ℕ) + (a % d : ℕ) / d := by
    rw [div_eq_iff hd'.ne', add_mul, div_mul_cancel₀ _ hd'.ne']
    exact_mod_cast (Nat.div_add_mod' a d).symm
  have hlt : ((a % d : ℕ) : ℚ) / d < 1 := (div_lt_one hd').mpr (by exact_mod_cast Nat.mod_lt a hd)
  have hnonneg : (0 : ℚ) ≤ (a % d : ℕ) / d := by positivity
  rw [hsplit, abs_le]
  split
  case isTrue hzero =>
    rw [hzero]
    push_cast
    constructor <;> linarith [zero_div (d : ℚ)]
  case isFalse hrest =>
    push_cast
    constructor <;> linarith

/-- A quotient is rounded from parts that differ from it by next to nothing. -/
theorem exists_ofRatio (negative : Bool) {a d : ℕ} (ha : a ≠ 0) (hd : 0 < d) : ∃ p : Parts,
    ofRatio negative a d = ofWord negative p.word ∧ 2 ^ 53 ≤ p.significand ∧
      |p.value - a / d| ≤ a / d / 2 ^ 66 := by
  unfold ofRatio Parts.toFloat
  dsimp only
  rw [Nat.pow_eq]
  obtain ⟨shift, hshift⟩ : ∃ shift, shift = 66 + d.log2 - a.log2 := ⟨_, rfl⟩
  have hbig := mul_shift_le (d := d) ha
  rw [← hshift] at hbig ⊢
  have hquotient : 2 ^ 65 ≤ a * 2 ^ shift / d := (Nat.le_div_iff_mul_le hd).mpr hbig
  refine ⟨_, rfl, ?_, ?_⟩
  · show 2 ^ 53 ≤ 2 * _ + _
    omega
  -- Of the scaled quotient at most half a unit is cut off, which has 65 digits in front of it.
  · have hd' : (0 : ℚ) < d := by exact_mod_cast hd
    have hunit : (0 : ℚ) < 2 ^ (-(shift : ℤ) - 1) := by positivity
    have hscale : (2 : ℚ) ^ shift * 2 ^ (-(shift : ℤ) - 1) = 1 / 2 := by
      rw [← zpow_natCast, ← zpow_add₀ two_ne_zero, ← add_sub_assoc, add_neg_cancel]
      norm_num
    have hvalue : (a : ℚ) / d = 2 * ((a * 2 ^ shift : ℕ) / d) * 2 ^ (-(shift : ℤ) - 1) := by
      push_cast
      rw [mul_div_right_comm, mul_assoc, mul_assoc, hscale]
      ring
    have hlarge : 2 ^ 65 ≤ ((a * 2 ^ shift : ℕ) : ℚ) / d :=
      (le_div_iff₀ hd').mpr (by exact_mod_cast hbig)
    unfold Parts.value
    dsimp only
    rw [hvalue, ← sub_mul, abs_mul, abs_of_pos hunit, mul_div_right_comm]
    refine mul_le_mul_of_nonneg_right ((sticky_near hd).trans ?_) hunit.le
    norm_num at hlarge ⊢
    linarith

/-- What agrees with a stored double in seventeen decimal digits is rounded to it. -/
theorem ofRatio_eq_of_near (negative : Bool) (hm : m.IsStored) {a d : ℕ} (ha : a ≠ 0) (hd : 0 < d)
    (h : 2 * 10 ^ 16 * |(a : ℚ) / d - m.value| ≤ m.value) :
    ofRatio negative a d = ofWord negative m.storedWord := by
  obtain ⟨p, hp, hlarge, hquotient⟩ := exists_ofRatio negative ha hd
  have hunit : (0 : ℚ) < 2 ^ m.exponent := by positivity
  have htriangle := abs_sub_le p.value (a / d) m.value
  have hupper := le_abs_self ((a : ℚ) / d - m.value)
  have hnonneg := m.value_nonneg
  have hdistance : 199 * 10 ^ 14 * |p.value - m.value| ≤ m.value := by
    norm_num at h hquotient ⊢
    linarith
  rw [hp, word_eq_of_near hm hlarge]
  -- A stored number has at most 53 digits, so that a share of it is less than half of the last one.
  · have hlt : m.value < 2 ^ 53 * 2 ^ m.exponent :=
      mul_lt_mul_of_pos_right (by exact_mod_cast hm.significand_lt) hunit
    norm_num at hdistance hlt ⊢
    linarith
  · intro hpower
    have hvalue : m.value = 2 ^ 52 * 2 ^ m.exponent := by
      unfold Parts.value
      rw [hpower]
      norm_num
    rw [hvalue] at hdistance
    norm_num at hdistance ⊢
    linarith

end Binary64

end FailureProbability
