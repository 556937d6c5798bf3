import FailureProbability.Decimal.Layout
import FailureProbability.Decimal.Reader
import FailureProbability.Proofs.Decimal.Digits

/-!
# Reading what was written

Digits are read as the count that they are of, and a number in scientific layout as the double
nearest to its digits (`readMagnitude_withExponent`). With seventeen digits or more this is the
double that was written (`readFloat_scientific`): the digits are nearer to it than to any other,
whether it is normal, subnormal or zero, and whatever is not finite has a word of its own. All that
is not a number is one double here, so that there is nothing in it for the text to lose.

The reader takes more than the writer makes: upper case, a point without digits before it, a
sign in front. What it makes of such texts is left out, except that none of it gets in the way of
the texts that were written. Counts are read up to the size of the words that the fields are kept
in.
-/

namespace FailureProbability.Decimal

open Binary64

/-! ## Digits -/

theorem isDigit_iff {c : Char} : isDigit c = true ↔ c.isDigit = true := by
  unfold isDigit digit? Char.isDigit
  rw [← Bool.decide_and]
  split
  case isTrue h => simpa [Char.le_def] using h
  case isFalse h => simpa [Char.le_def] using h

theorem isDigit_of_mem_digits {c : Char} {n : ℕ} (hc : c ∈ digits n) : isDigit c = true :=
  isDigit_iff.mpr (Nat.isDigit_of_mem_toDigits (by decide) (by decide) hc)

theorem countOf_digits (n : ℕ) : countOf (digits n) = n := Nat.ofDigitChars_ten_toDigits

theorem digits?_of_isDigit {ds : List Char} (hne : ds ≠ []) (hds : ∀ c ∈ ds, isDigit c = true) :
    digits? ds = some (countOf ds) := by
  unfold digits?
  rw [if_pos]
  simpa [hne] using hds

theorem ne_of_isDigit {c d : Char} (hc : isDigit c = true) (hd : isDigit d = false) : c ≠ d := by
  rintro rfl
  rw [hc] at hd
  cases hd

theorem digits_ne_nil (n : ℕ) : digits n ≠ [] := Nat.toDigits_ne_nil

theorem digits?_digits (n : ℕ) : digits? (digits n) = some n := by
  rw [digits?_of_isDigit (digits_ne_nil n) fun _ => isDigit_of_mem_digits, countOf_digits]

/-- Digits are written without a sign. -/
theorem digits_cases (n : ℕ) : ∃ d ds, digits n = d :: ds ∧ d ≠ '+' ∧ d ≠ '-' := by
  obtain ⟨d, ds, hcons⟩ := List.exists_cons_of_ne_nil (digits_ne_nil n)
  have hd : isDigit d = true := isDigit_of_mem_digits (hcons ▸ List.mem_cons_self)
  exact ⟨d, ds, hcons, ne_of_isDigit hd (by decide), ne_of_isDigit hd (by decide)⟩

theorem exponent?_digits (n : ℕ) : exponent? (digits n) = some (n : ℤ) := by
  obtain ⟨d, ds, hcons, hplus, hminus⟩ := digits_cases n
  have hread := digits?_digits n
  rw [hcons] at hread ⊢
  unfold exponent?
  split
  case h_1 heq => exact absurd (List.cons.inj heq).1 hplus
  case h_2 heq => exact absurd (List.cons.inj heq).1 hminus
  case h_3 => rw [hread]; rfl

/-- A whole number is read where it fits into its word. -/
theorem readWhole_digits {n : ℕ} (hn : n < 2 ^ 31) : readWhole (digits n) = some (n : ℤ) := by
  obtain ⟨d, ds, hcons, hplus, hminus⟩ := digits_cases n
  have hread := digits?_digits n
  rw [hcons] at hread ⊢
  unfold readWhole
  split
  case h_1 heq => exact absurd (List.cons.inj heq).1 hplus
  case h_2 heq => exact absurd (List.cons.inj heq).1 hminus
  case h_3 =>
    have hlow : -Int.pow 2 31 ≤ (n : ℤ) := by
      show -(2 ^ 31 : ℤ) ≤ n
      omega
    have hhigh : (n : ℤ) < Nat.pow 2 31 := by exact_mod_cast hn
    rw [hread]
    exact Option.filter_some_pos (Bool.and_eq_true_iff.mpr ⟨decide_eq_true hlow, decide_eq_true hhigh⟩)

theorem readCount_digits {n : ℕ} (hn : n < 2 ^ 64) : readCount (digits n) = some n := by
  obtain ⟨d, ds, hcons, hplus, hminus⟩ := digits_cases n
  have hread := digits?_digits n
  rw [hcons] at hread ⊢
  unfold readCount
  split
  case h_1 heq => exact absurd (List.cons.inj heq).1 hplus
  case h_2 =>
    rw [hread]
    exact Option.filter_some_pos (decide_eq_true hn)

/-! ## Numbers in scientific layout

The reader splits the exponent off first and the digits at the point then, and puts the digits
before and behind the point together. What it finds may therefore be told by the digits and their
power of ten alone, wherever the point stands. -/

/-- An exponent with its mark and its sign, if it has one, is read after the mark. -/
theorem exists_exponent (power : ℤ) (signed : Bool) : ∃ tail, exponent? tail = some power ∧
    (if power < 0 then ['e', '-'] else if signed then ['e', '+'] else ['e']) ++
      digits power.natAbs = 'e' :: tail := by
  by_cases hpower : power < 0
  · refine ⟨'-' :: digits power.natAbs, ?_, by rw [if_pos hpower]; rfl⟩
    show (digits? (digits power.natAbs)).map (fun n : ℕ => -(n : ℤ)) = some power
    rw [digits?_digits, Option.map_some, Int.ofNat_natAbs_of_nonpos hpower.le, neg_neg]
  · have hnat : ((power.natAbs : ℕ) : ℤ) = power := Int.natAbs_of_nonneg (not_lt.mp hpower)
    cases signed with
    | true =>
      refine ⟨'+' :: digits power.natAbs, ?_, by rw [if_neg hpower]; rfl⟩
      show (digits? (digits power.natAbs)).map Int.ofNat = some power
      rw [digits?_digits]
      exact congrArg some hnat
    | false =>
      refine ⟨digits power.natAbs, ?_, by rw [if_neg hpower]; rfl⟩
      rw [exponent?_digits, hnat]

/-- The digits of a layout are found again around its point, which stands after the first of them if
there are more, and in front of its exponent. -/
theorem exists_figures {ds : List Char} (hne : ds ≠ []) (hds : ∀ c ∈ ds, isDigit c = true) (power : ℤ)
    (signed : Bool) : ∃ figures tail, withExponent ds power signed = figures ++ 'e' :: tail ∧
      exponent? tail = some power ∧ (∀ c ∈ figures, c ≠ 'e' ∧ c ≠ 'E') ∧
      ∃ d rest, ds = d :: rest ∧ figures.takeWhile (· ≠ '.') = [d] ∧
        (figures.dropWhile (· ≠ '.')).drop 1 = rest := by
  obtain ⟨tail, htail, hmark⟩ := exists_exponent power signed
  have hplain : ∀ c ∈ ds, c ≠ 'e' ∧ c ≠ 'E' := fun c hc =>
    ⟨ne_of_isDigit (hds c hc) (by decide), ne_of_isDigit (hds c hc) (by decide)⟩
  have hpoint : ∀ c ∈ ds, c ≠ '.' := fun c hc => ne_of_isDigit (hds c hc) (by decide)
  unfold withExponent
  dsimp only
  rw [List.append_assoc, hmark]
  match ds with
  | [] => exact absurd rfl hne
  | [d] =>
    refine ⟨[d], tail, rfl, htail, hplain, d, [], rfl, ?_, ?_⟩
    · simp [hpoint d]
    · simp [hpoint d]
  | d :: d' :: rest =>
    refine ⟨d :: '.' :: d' :: rest, tail, rfl, htail, ?_, d, d' :: rest, rfl, ?_, ?_⟩
    · simp only [List.forall_mem_cons] at hplain ⊢
      exact ⟨hplain.1, by decide, hplain.2⟩
    · simp [hpoint d]
    · simp [hpoint d]

/-- Digits in scientific layout are read as the count that they are of, with the exponent of their
last one. -/
theorem readMagnitude_withExponent (negative : Bool) {ds : List Char} (hne : ds ≠ [])
    (hds : ∀ c ∈ ds, isDigit c = true) (power : ℤ) (signed : Bool) :
    readMagnitude negative (withExponent ds power signed) =
      some (nearest negative (countOf ds) (power - (ds.length - 1 : ℕ))) := by
  obtain ⟨figures, tail, htext, hpower, hplain, d, rest, rfl, hwhole, hrest⟩ :=
    exists_figures hne hds power signed
  have hmarks : ∀ c ∈ figures, (!(decide (c = 'e') || decide (c = 'E'))) = true := by
    simpa using hplain
  unfold readMagnitude
  rw [htext]
  dsimp only
  rw [List.takeWhile_append_of_pos hmarks, List.dropWhile_append_of_pos hmarks]
  have htake : List.takeWhile (fun c => !(decide (c = 'e') || decide (c = 'E'))) ('e' :: tail) = [] := rfl
  have hdrop : List.dropWhile (fun c => !(decide (c = 'e') || decide (c = 'E'))) ('e' :: tail) =
      'e' :: tail := rfl
  rw [htake, hdrop, List.append_nil, hwhole, hrest, List.singleton_append, if_neg]
  · show (exponent? tail).map _ = _
    rw [hpower]
    rfl
  · simpa using hds

theorem toLower_of_isDigit {c : Char} (hc : isDigit c = true) : c.toLower = c := by
  have hdigit := isDigit_iff.mp hc
  unfold Char.isDigit at hdigit
  refine dif_neg fun hupper => ?_
  have hle : c.val ≤ 57 := of_decide_eq_true (Bool.and_eq_true_iff.mp hdigit).2
  have hge : (65 : UInt32) ≤ c.val := hupper.1
  exact absurd (UInt32.le_trans hge hle) (by decide)

/-- The sign is taken off and nothing else. -/
theorem takeSign_signed (negative : Bool) {d : Char} {text : List Char} (hd : isDigit d = true) :
    takeSign (signed negative (d :: text)).toList = (negative, d :: text) := by
  unfold signed
  rw [String.toList_ofList]
  cases negative with
  | true => rfl
  | false =>
    unfold takeSign
    rw [if_neg Bool.false_ne_true]
    split
    case h_1 heq => exact absurd (List.cons.inj heq).1 (ne_of_isDigit hd (by decide))
    case h_2 heq => exact absurd (List.cons.inj heq).1 (ne_of_isDigit hd (by decide))
    case h_3 => rfl

/-- A number that begins with a digit is none of the words for what is not finite. -/
theorem readFloat_signed (negative : Bool) {d : Char} {text : List Char} (hd : isDigit d = true) :
    readFloat (signed negative (d :: text)).toList = readMagnitude negative (d :: text) := by
  have hword (w : String) (c : Char) (cs : List Char) (hw : w.toList = c :: cs)
      (hc : isDigit c = false) : String.ofList ((d :: text).map Char.toLower) ≠ w := by
    rintro rfl
    rw [String.toList_ofList, List.map_cons, toLower_of_isDigit hd] at hw
    exact ne_of_isDigit hd hc (List.cons.inj hw).1
  have hinf := hword "inf" 'i' _ rfl (by decide)
  have hinfinity := hword "infinity" 'i' _ rfl (by decide)
  have hnan := hword "nan" 'n' _ rfl (by decide)
  unfold readFloat
  rw [takeSign_signed negative hd]
  dsimp only
  rw [decide_eq_false hinf, decide_eq_false hinfinity, Bool.or_false, if_neg Bool.false_ne_true,
    if_neg hnan]

theorem readFloat_withExponent (negative : Bool) {ds : List Char} (hne : ds ≠ [])
    (hds : ∀ c ∈ ds, isDigit c = true) (power : ℤ) :
    readFloat (signed negative (withExponent ds power false)).toList =
      some (nearest negative (countOf ds) (power - (ds.length - 1 : ℕ))) := by
  obtain ⟨d, text, htext, hd⟩ : ∃ d text, withExponent ds power false = d :: text ∧ isDigit d = true := by
    match ds with
    | [] => exact absurd rfl hne
    | [d] => exact ⟨d, _, rfl, hds d (by simp)⟩
    | d :: d' :: rest => exact ⟨d, _, rfl, hds d (by simp)⟩
  rw [← readMagnitude_withExponent negative hne hds power false, htext, readFloat_signed negative hd]

/-! ## Doubles

A text is rounded when it is written and once more when it is read. With seventeen digits the first
rounding stays so near to the double that the second one leads back to it. Zero is a case of its
own, as it has no first digit. -/

/-- Zero keeps its sign, whatever the power of ten behind it. -/
theorem nearest_zero (negative : Bool) (power : ℤ) : nearest negative 0 power = ofWord negative 0 :=
  rfl

/-- Where the first digit stands within the range of doubles, the nearest one is that of a
quotient. -/
theorem nearest_eq (negative : Bool) {units : ℕ} {power : ℤ} (hunits : units ≠ 0)
    (hfirst : |power + (digits units).length| ≤ 400) : ∃ a d : ℕ, a ≠ 0 ∧ 0 < d ∧
      (a : ℚ) / d = units * 10 ^ power ∧ nearest negative units power = ofRatio negative a d := by
  obtain ⟨hlow, hhigh⟩ := abs_le.mp hfirst
  refine ⟨units * 10 ^ power.toNat, 10 ^ (-power).toNat, ?_, Nat.pow_pos (by decide), ?_, ?_⟩
  · exact Nat.mul_ne_zero hunits (Nat.pow_pos (by decide)).ne'
  · rw [zpow_eq_div (show (10 : ℚ) ≠ 0 by norm_num)]
    push_cast
    exact mul_div_assoc ..
  · unfold digits at hlow hhigh
    unfold nearest
    dsimp only
    rw [if_neg (by simp [hunits, hlow]), if_neg (not_lt.mpr hhigh)]
    rfl

theorem length_digits {places n : ℕ} (hplaces : 0 < places) (hleast : 10 ^ places ≤ n)
    (hmost : n < 10 ^ (places + 1)) : (digits n).length = places + 1 := by
  refine le_antisymm ((Nat.length_toDigits_le_iff (by decide) (Nat.succ_pos _)).mpr hmost) ?_
  rw [Nat.succ_le_iff, ← not_le]
  exact fun hshort => hleast.not_gt ((Nat.length_toDigits_le_iff (by decide) hplaces).mp hshort)

/-- A zero is written with as many digits as other numbers, and its sign is read again. -/
theorem readFloat_zeros (negative : Bool) (places : ℕ) :
    readFloat (signed negative (withExponent (List.replicate (places + 1) '0') 0 false)).toList =
      some (ofWord negative 0) := by
  have hcount : countOf (List.replicate (places + 1) '0') = 0 :=
    Nat.ofDigitChars_replicate_zero.trans (Nat.mul_zero _)
  rw [readFloat_withExponent _ (by simp) (by simp [isDigit, digit?]), hcount, nearest_zero]

theorem storedWord_of_zero {p : Parts} (h : p.IsStored) (hzero : p.significand = 0) :
    p.storedWord = 0 := by
  have hnormal := h.normal
  have hmin := h.minExponent_le
  unfold Parts.storedWord
  omega

/-- The exponents of doubles stay far inside of what the first digit is found for. -/
theorem abs_log2_le {p : Parts} (h : p.IsStored) (hp : p.significand ≠ 0) :
    |p.exponent + p.significand.log2| ≤ 1100 := by
  have hlog : p.significand.log2 < 53 := (Nat.log2_lt hp).mpr h.significand_lt
  have hmin := h.minExponent_le
  have hmax := h.exponent_le
  unfold minExponent at hmin
  rw [abs_le]
  omega

/-- Digits of a double that are as many as needed are read as the double. -/
theorem readFloat_figure {places : ℕ} (hplaces : 16 ≤ places) {p : Parts} (h : p.IsStored)
    {f : Figure} (hleast : 10 ^ places ≤ f.units) (hmost : f.units < 10 ^ (places + 1))
    (hpower : |f.power + places| ≤ 341)
    (hnear : 2 * 10 ^ places * |f.value - p.value| ≤ p.value) :
    readFloat (signed p.negative (withExponent (digits f.units) (f.power + places) false)).toList =
      some (ofWord p.negative p.storedWord) := by
  have hunits : f.units ≠ 0 := ((Nat.pow_pos (by decide)).trans_le hleast).ne'
  have hlength := length_digits (by omega) hleast hmost
  have hfirst : |f.power + (digits f.units).length| ≤ 400 := by
    rw [abs_le] at hpower ⊢
    omega
  obtain ⟨a, d, ha, hd, hratio, hnearest⟩ := nearest_eq p.negative hunits hfirst
  rw [readFloat_withExponent _ (digits_ne_nil _) fun _ => isDigit_of_mem_digits, countOf_digits,
    hlength, Nat.add_sub_cancel, add_sub_cancel_right, hnearest]
  congr 1
  refine ofRatio_eq_of_near p.negative h ha hd ?_
  have hpow : (10 : ℚ) ^ 16 ≤ 10 ^ places := pow_le_pow_right₀ (by norm_num) hplaces
  rw [hratio]
  exact (mul_le_mul_of_nonneg_right (mul_le_mul_of_nonneg_left hpow zero_le_two)
    (abs_nonneg _)).trans hnear

/-- Seventeen significant digits or more are read as the double that they are of. -/
theorem readFloat_scientific {places : ℕ} (hplaces : 16 ≤ places) (x : Float) :
    readFloat (scientific places x).toList = some x := by
  unfold scientific
  -- There are no parts of what is not finite.
  rcases hparts : Parts.ofFloat? x with _ | p
  · show readFloat (nonFinite x).toList = some x
    rcases eq_of_ofFloat?_eq_none hparts with rfl | rfl | rfl <;> decide
  obtain ⟨hstored, hword⟩ := ofFloat?_eq_some hparts
  dsimp only
  by_cases hzero : p.significand = 0
  · have hfigure : significant places p.significand p.exponent = ⟨0, 0⟩ := if_pos hzero
    rw [hfigure, if_pos rfl, if_pos rfl, readFloat_zeros, ← storedWord_of_zero hstored hzero, hword]
  · have hsize := abs_log2_le hstored hzero
    have hpower := significant_power places hzero hsize
    obtain ⟨hleast, hmost, hnear⟩ := significant_near places hzero (hsize.trans (by norm_num))
    have hunits := ((Nat.pow_pos (by decide)).trans_le hleast).ne'
    rw [if_neg hunits, if_neg hunits, readFloat_figure hplaces hstored hleast hmost hpower hnear,
      hword]

end FailureProbability.Decimal
