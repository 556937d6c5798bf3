import FailureProbability.Decimal.Digits
import FailureProbability.Proofs.Binary64.Rounding

/-!
# Significant digits

The first digit of a number stands where its decimal exponent is guessed from the binary one, or
next to it: three tenths of a binary digit are a decimal one, closely enough for all doubles
(`leadingPower_spec`). Digits counted from there are off by half a unit of the last one at most
(`significant_near`).

How closely is a question of two fractions, `31 / 103` and `28 / 93`, between which the decimal
logarithm of two lies; each of them is one comparison of a power of two with a power of ten. They
are close enough to the guess for exponents of a few thousand at most, and this is where the bounds
on the size of a number in the statements come from. Doubles stay far inside of them.

Only digits of a fixed count are looked at. The fewest digits that read back and the digits after a
point stand in other texts than that of an estimate; of them nothing is shown.
-/

namespace FailureProbability.Decimal

open Binary64

/-! ## Powers of two and of ten -/

theorem ten_pow_le_two_pow {n b : ℕ} (h : 103 * n ≤ 31 * b) : 10 ^ n ≤ 2 ^ b := by
  rw [← Nat.pow_le_pow_iff_left (show 31 ≠ 0 by decide)]
  calc (10 ^ n) ^ 31 = (10 ^ 31) ^ n := Nat.pow_right_comm ..
    _ ≤ (2 ^ 103) ^ n := Nat.pow_le_pow_left (by decide) n
    _ = 2 ^ (103 * n) := (pow_mul ..).symm
    _ ≤ 2 ^ (31 * b) := Nat.pow_le_pow_right two_pos h
    _ = (2 ^ b) ^ 31 := by rw [← pow_mul, mul_comm]

theorem two_pow_le_ten_pow {n b : ℕ} (h : 28 * b ≤ 93 * n) : 2 ^ b ≤ 10 ^ n := by
  rw [← Nat.pow_le_pow_iff_left (show 93 ≠ 0 by decide)]
  calc (2 ^ b) ^ 93 = (2 ^ 93) ^ b := Nat.pow_right_comm ..
    _ ≤ (10 ^ 28) ^ b := Nat.pow_le_pow_left (by decide) b
    _ = 10 ^ (28 * b) := (pow_mul ..).symm
    _ ≤ 10 ^ (93 * n) := Nat.pow_le_pow_right (by decide) h
    _ = (10 ^ n) ^ 93 := by rw [← pow_mul, mul_comm]

/-- Below one the powers change places. -/
theorem ten_zpow_le_two_zpow {n b : ℤ} (h : 103 * n ≤ 31 * b) (hbelow : 93 * n ≤ 28 * b) :
    (10 : ℚ) ^ n ≤ 2 ^ b := by
  rcases le_total 0 n with hn | hn
  · lift n to ℕ using hn
    lift b to ℕ using by omega
    exact_mod_cast ten_pow_le_two_pow (by omega)
  · rcases le_total 0 b with hb | hb
    · exact (zpow_le_one_of_nonpos₀ (by norm_num) hn).trans (one_le_zpow₀ one_le_two hb)
    · obtain ⟨k, rfl⟩ := Int.exists_eq_neg_ofNat hn
      obtain ⟨c, rfl⟩ := Int.exists_eq_neg_ofNat hb
      rw [zpow_neg, zpow_neg, zpow_natCast, zpow_natCast]
      exact inv_anti₀ (by positivity) (by exact_mod_cast two_pow_le_ten_pow (by omega))

/-- A power of two below a power of ten, by comparing the exponents: `93 / 28` is less than the
logarithm of ten to the base two, and `103 / 31` is more. -/
theorem two_zpow_le_ten_zpow {n b : ℤ} (h : 28 * b ≤ 93 * n) (hbelow : 31 * b ≤ 103 * n) :
    (2 : ℚ) ^ b ≤ 10 ^ n := by
  rcases le_total 0 b with hb | hb
  · lift b to ℕ using hb
    lift n to ℕ using by omega
    exact_mod_cast two_pow_le_ten_pow (by omega)
  · rcases le_total 0 n with hn | hn
    · exact (zpow_le_one_of_nonpos₀ one_le_two hb).trans (one_le_zpow₀ (by norm_num) hn)
    · obtain ⟨k, rfl⟩ := Int.exists_eq_neg_ofNat hn
      obtain ⟨c, rfl⟩ := Int.exists_eq_neg_ofNat hb
      rw [zpow_neg, zpow_neg, zpow_natCast, zpow_natCast]
      exact inv_anti₀ (by positivity) (by exact_mod_cast ten_pow_le_two_pow (by omega))

/-! ## Ratios -/

theorem zpow_eq_div {b : ℚ} (hb : b ≠ 0) (k : ℤ) : b ^ k = b ^ k.toNat / b ^ (-k).toNat := by
  rw [← zpow_natCast, ← zpow_natCast, ← zpow_sub₀ hb]
  congr 1
  omega

theorem scaledRatio_pos (s : ℕ) (e k : ℤ) : 0 < (scaledRatio s e k).2 :=
  Nat.mul_pos (Nat.pow_pos two_pos) (Nat.pow_pos (by decide))

theorem scaledRatio_eq (p : Parts) (k : ℤ) :
    ((scaledRatio p.significand p.exponent k).1 : ℚ) / (scaledRatio p.significand p.exponent k).2 =
      p.value * 10 ^ k := by
  unfold scaledRatio Parts.value
  dsimp only
  rw [Nat.pow_eq, Nat.pow_eq, Nat.pow_eq, Nat.pow_eq, zpow_eq_div two_ne_zero,
    zpow_eq_div (show (10 : ℚ) ≠ 0 by norm_num)]
  push_cast
  field_simp

/-! ## The first digit -/

variable {p : Parts}

theorem reaches_iff (k : ℤ) :
    reaches p.significand p.exponent k = true ↔ (10 : ℚ) ^ k ≤ p.value := by
  have hpos : (0 : ℚ) < (scaledRatio p.significand p.exponent (-k)).2 := by
    exact_mod_cast scaledRatio_pos ..
  have hten : (0 : ℚ) < 10 ^ k := by positivity
  have hratio := scaledRatio_eq p (-k)
  unfold reaches
  dsimp only
  rw [decide_eq_true_iff, ← Nat.cast_le (α := ℚ), ← one_le_div hpos, hratio, zpow_neg,
    ← div_eq_mul_inv, one_le_div hten]

/-- The decimal exponent of a number of usual size is found. -/
theorem leadingPower_spec (hp : p.significand ≠ 0)
    (hsize : |p.exponent + p.significand.log2| ≤ 2000) :
    (10 : ℚ) ^ leadingPower p.significand p.exponent ≤ p.value ∧
      p.value < 10 ^ (leadingPower p.significand p.exponent + 1) := by
  have hlow : ¬p.value < (2 : ℚ) ^ (p.exponent + p.significand.log2) := by
    rw [Parts.value_lt_iff hp]
    exact lt_irrefl _
  have hhigh : p.value < (2 : ℚ) ^ (p.exponent + p.significand.log2 + 1) :=
    (Parts.value_lt_iff hp _).mpr (lt_add_one _)
  obtain ⟨hmin, hmax⟩ := abs_le.mp hsize
  unfold leadingPower
  rw [add_comm (p.significand.log2 : ℤ)]
  dsimp only
  generalize hguess : (p.exponent + p.significand.log2) * 30103 / 100000 = guess
  have hbelow : (10 : ℚ) ^ (guess - 1) ≤ p.value :=
    (ten_zpow_le_two_zpow (by omega) (by omega)).trans (not_lt.mp hlow)
  have habove : p.value < (10 : ℚ) ^ (guess + 1 + 1) :=
    hhigh.trans_le (two_zpow_le_ten_zpow (by omega) (by omega))
  split
  case isTrue hnext => exact ⟨(reaches_iff _).mp hnext, habove⟩
  case isFalse hnext =>
    rw [reaches_iff, not_le] at hnext
    split
    case isTrue hthere => exact ⟨(reaches_iff _).mp hthere, hnext⟩
    case isFalse hthere =>
      rw [reaches_iff, not_le] at hthere
      exact ⟨hbelow, by rwa [sub_add_cancel]⟩

theorem abs_leadingPower_le {s : ℕ} {e : ℤ} (hsize : |e + s.log2| ≤ 1100) : |leadingPower s e| ≤ 340 := by
  obtain ⟨hmin, hmax⟩ := abs_le.mp hsize
  unfold leadingPower
  dsimp only
  rw [abs_le]
  split
  · omega
  · split <;> omega

/-! ## Rounding to significant digits -/

/-- The number that a figure stands for. -/
def Figure.value (f : Figure) : ℚ := f.units * 10 ^ f.power

/-- A number in units of the last of its digits, which are counted from the first one. A full count
is one digit more. -/
theorem significant_eq (count : ℕ) (hp : p.significand ≠ 0) : ∃ (units : ℕ) (power : ℤ),
    power + count = leadingPower p.significand p.exponent ∧
      |p.value * 10 ^ (-power) - units| ≤ 1 / 2 ∧
      significant count p.significand p.exponent =
        if units = 10 ^ (count + 1) then ⟨10 ^ count, power + 1⟩ else ⟨units, power⟩ := by
  refine ⟨_, _, sub_add_cancel _ _, ?_, if_neg hp⟩
  rw [← scaledRatio_eq]
  exact roundDiv_div_near (scaledRatio_pos ..)

/-- A count of units that was rounded keeps to the powers of ten on the two sides of the number. -/
theorem units_mem_of_rounded {count units : ℕ} {power : ℤ} {x : ℚ}
    (hlow : (10 : ℚ) ^ (power + count) ≤ x) (hhigh : x < 10 ^ (power + count + 1))
    (hrounded : |x * 10 ^ (-power) - units| ≤ 1 / 2) :
    10 ^ count ≤ units ∧ units ≤ 10 ^ (count + 1) := by
  have hten : (10 : ℚ) ≠ 0 := by norm_num
  have hunit : (0 : ℚ) < 10 ^ power := by positivity
  rw [add_comm power, zpow_add₀ hten, zpow_natCast] at hlow
  rw [add_assoc, ← Nat.cast_add_one, add_comm power, zpow_add₀ hten, zpow_natCast] at hhigh
  rw [zpow_neg, ← div_eq_mul_inv] at hrounded
  have hlow := (le_div_iff₀ hunit).mpr hlow
  have hhigh := (div_lt_iff₀ hunit).mpr hhigh
  obtain ⟨hbelow, habove⟩ := abs_le.mp hrounded
  constructor
  · have hlt : (10 : ℚ) ^ count < (units + 1 : ℕ) := by
      push_cast
      linarith
    exact Nat.lt_succ_iff.mp (by exact_mod_cast hlt)
  · have hlt : (units : ℚ) < 10 ^ (count + 1) + 1 := by linarith
    exact Nat.lt_succ_iff.mp (by exact_mod_cast hlt)

/-- Half a unit of the last digit is left when a number is rounded to units. -/
theorem abs_units_sub_le {units : ℕ} {power : ℤ} {x : ℚ}
    (hrounded : |x * 10 ^ (-power) - units| ≤ 1 / 2) :
    2 * |units * 10 ^ power - x| ≤ 10 ^ power := by
  have hunit : (0 : ℚ) < 10 ^ power := by positivity
  have hscale : |units * 10 ^ power - x| = |x * 10 ^ (-power) - units| * 10 ^ power := by
    rw [abs_sub_comm, ← abs_of_pos hunit, ← abs_mul, abs_of_pos hunit, sub_mul, mul_assoc,
      zpow_neg, inv_mul_cancel₀ hunit.ne', mul_one]
  rw [hscale]
  calc 2 * (|x * 10 ^ (-power) - units| * 10 ^ power)
      ≤ 2 * (1 / 2 * 10 ^ power) := by gcongr
    _ = 10 ^ power := by ring

/-- One digit more than asked for is a power of ten, which has fewer digits one place further up. -/
theorem Figure.value_carry (count : ℕ) (power : ℤ) :
    (⟨10 ^ count, power + 1⟩ : Figure).value = (10 ^ (count + 1) : ℕ) * 10 ^ power := by
  unfold Figure.value
  rw [zpow_add_one₀ (by norm_num), pow_succ]
  push_cast
  ring

/-- The significant digits of a number are as many as asked for, and stand for a number that differs
by half a unit of the last digit at most. -/
theorem significant_near (count : ℕ) (hp : p.significand ≠ 0)
    (hsize : |p.exponent + p.significand.log2| ≤ 2000) :
    let f := significant count p.significand p.exponent
    10 ^ count ≤ f.units ∧ f.units < 10 ^ (count + 1) ∧
      2 * 10 ^ count * |f.value - p.value| ≤ p.value := by
  obtain ⟨units, power, hpower, hrounded, hfigure⟩ := significant_eq count hp
  obtain ⟨hlow, hhigh⟩ := leadingPower_spec hp hsize
  rw [← hpower] at hlow hhigh
  obtain ⟨hleast, hmost⟩ := units_mem_of_rounded hlow hhigh hrounded
  have hnear : 2 * 10 ^ count * |units * 10 ^ power - p.value| ≤ p.value := by
    calc 2 * 10 ^ count * |units * 10 ^ power - p.value|
        = 10 ^ count * (2 * |units * 10 ^ power - p.value|) := by ring
      _ ≤ 10 ^ count * 10 ^ power := by
          gcongr
          exact abs_units_sub_le hrounded
      _ = 10 ^ (power + count) := by rw [add_comm, zpow_add₀ (by norm_num), zpow_natCast]
      _ ≤ p.value := hlow
  rw [hfigure]
  split
  case isTrue hfull =>
    refine ⟨le_rfl, Nat.pow_lt_pow_succ (by decide), ?_⟩
    rwa [Figure.value_carry, ← hfull]
  case isFalse hfull => exact ⟨hleast, lt_of_le_of_ne hmost hfull, hnear⟩

/-- The last digit stands so many places below the first one. -/
theorem significant_power (count : ℕ) (hp : p.significand ≠ 0)
    (hsize : |p.exponent + p.significand.log2| ≤ 1100) :
    |(significant count p.significand p.exponent).power + count| ≤ 341 := by
  obtain ⟨units, power, hpower, -, hfigure⟩ := significant_eq count hp
  obtain ⟨hlow, hhigh⟩ := abs_le.mp (abs_leadingPower_le hsize)
  rw [hfigure, abs_le]
  split <;> dsimp only <;> omega

end FailureProbability.Decimal
