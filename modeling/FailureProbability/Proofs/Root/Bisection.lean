import FailureProbability.Proofs.Root.Narrowing

/-!
# The rate of bisection

Every step of a bisection halves the bracket, whatever the values are. Its last step is as wide as
the bracket that it leaves, so that the test of the last step never ends a search before the test of
the width does. A search therefore ends by the first bracket that is narrow enough, if no root ends
it earlier, and the width of the first bracket tells how many steps that takes at most.

The function need not be continuous: what is found is a change of sign within the tolerance, and a
continuous function has a zero there (`Encloses.exists_zero`). The number of steps is a ceiling of a
logarithm to the base two, on exact numbers. In arithmetic that rounds a bracket may come down to
neighbouring numbers before it is narrow enough, and then the budget ends the search.
-/

namespace FailureProbability.Root.Bracket

/-! ## Halvings -/

/-- A bracket that is narrow enough from the start needs no step. -/
theorem ceil_logb_of_le {width tolerance : ℝ} (hwidth : 0 ≤ width) (htolerance : 0 < tolerance)
    (h : width ≤ tolerance) : ⌈Real.logb 2 (width / tolerance)⌉₊ = 0 := by
  have hle : width / tolerance ≤ 1 := (div_le_one htolerance).mpr h
  have hnonneg : 0 ≤ width / tolerance := div_nonneg hwidth htolerance.le
  exact Nat.ceil_eq_zero.mpr (Real.logb_nonpos one_lt_two hnonneg hle)

/-- After so many halvings a width is within the tolerance. -/
theorem width_div_le {width tolerance : ℝ} (hwidth : 0 ≤ width) (htolerance : 0 < tolerance) :
    width / 2 ^ ⌈Real.logb 2 (width / tolerance)⌉₊ ≤ tolerance := by
  rw [div_le_comm₀ (by positivity) htolerance]
  rcases hwidth.eq_or_lt with hzero | hpos
  · rw [← hzero, zero_div]
    positivity
  · have hceil := Nat.le_ceil (Real.logb 2 (width / tolerance))
    rw [Real.logb_le_iff_le_rpow one_lt_two (div_pos hpos htolerance), Real.rpow_natCast] at hceil
    exact hceil

section

variable [SpecialFunctions] {s : Bracket ℝ} {f : ℝ → ℝ}

/-- The distance between the ends. -/
def width (s : Bracket ℝ) : ℝ := |s.b.x - s.a.x|

/-- The last step is measured from the newer end, where the search was. -/
theorem lastStep_observe (method : Method) (s : Bracket ℝ) (c : Point ℝ) :
    (s.observe method c).lastStep = some |c.x - s.b.x| := by
  simp only [observe, Scalar.abs_eq]
  split
  · rfl
  · split <;> rfl

/-- A step halves the bracket: it is as wide as the step, which leads to the middle. -/
theorem width_step (f : ℝ → ℝ) (s : Bracket ℝ) : (s.step .bisection f).width = s.width / 2 := by
  have hstep : some (s.step .bisection f).width = some |s.middle - s.b.x| :=
    (lastStep_bisection f s).symm.trans (lastStep_observe _ _ _)
  have hmiddle : s.middle - s.b.x = -((s.b.x - s.a.x) / 2) := by
    unfold middle
    rw [Scalar.half_eq]
    ring
  rw [Option.some.inj hstep, hmiddle, abs_neg, abs_div, abs_two]
  rfl

theorem width_iterate (f : ℝ → ℝ) (s : Bracket ℝ) (n : ℕ) :
    ((step .bisection f)^[n] s).width = s.width / 2 ^ n := by
  induction n with
  | zero => simp
  | succ n ih => rw [Function.iterate_succ_apply', width_step, ih, div_div, pow_succ]

/-- A bracket within the tolerance is done, whatever its values. -/
theorem isDone_of_width_le {tolerance : ℝ} (h : s.width ≤ tolerance) :
    s.isDone tolerance = true :=
  (isDone_iff tolerance s).mpr (.inr (.inr (.inl h)))

/-- A search is done when the halvings of its width have led to the tolerance. -/
theorem isDone_halvings {tolerance : ℝ} (htolerance : 0 < tolerance) (f : ℝ → ℝ)
    (s : Bracket ℝ) :
    ((step .bisection f)^[⌈Real.logb 2 (s.width / tolerance)⌉₊] s).isDone tolerance = true := by
  refine isDone_of_width_le ?_
  rw [width_iterate]
  exact width_div_le (abs_nonneg _) htolerance

/-- A bisection that is done is within the tolerance unless it has found a root. -/
theorem width_le_of_isDone {tolerance : ℝ} {n : ℕ} (htolerance : 0 < tolerance)
    (hlast : s.lastStep = none) (hdone : ((step .bisection f)^[n] s).isDone tolerance = true) :
    (((step .bisection f)^[n] s).a.z = 0 ∨ ((step .bisection f)^[n] s).b.z = 0) ∨
      ((step .bisection f)^[n] s).width ≤ tolerance := by
  rcases (isDone_iff _ _).mp hdone with ha | hb | hwidth | ⟨last, hstep, hle⟩
  · exact .inl (.inl ha)
  · exact .inl (.inr hb)
  · exact .inr hwidth
  · right
    have heq : last = ((step .bisection f)^[n] s).width :=
      lastStep_iterate_bisection rfl hlast n hstep
    rw [← heq]
    linarith

/-- The ends of a bracket, one of which is its answer. -/
theorem exists_other_end (s : Bracket ℝ) :
    ∃ q, (s.answer = s.a ∧ q = s.b ∨ s.answer = s.b ∧ q = s.a) ∧
      |q.x - s.answer.x| = s.width ∧ s.answer.z * q.z = s.a.z * s.b.z := by
  rcases s.answer_eq_or with heq | heq
  · refine ⟨s.b, .inl ⟨heq, rfl⟩, ?_, ?_⟩
    · rw [heq, width]
    · rw [heq]
  · refine ⟨s.a, .inr ⟨heq, rfl⟩, ?_, ?_⟩
    · rw [heq, width, abs_sub_comm]
    · rw [heq, mul_comm]

/-- Where the ends of a narrow bracket have values of opposite sign, the other end is near its
answer. -/
theorem exists_opposite_near {tolerance : ℝ} (hopposite : s.a.z * s.b.z < 0)
    (hwidth : s.width ≤ tolerance) :
    ∃ q, (q = s.a ∨ q = s.b) ∧ s.answer.z * q.z < 0 ∧ |q.x - s.answer.x| ≤ tolerance := by
  obtain ⟨q, hq, hdistance, hprod⟩ := exists_other_end s
  refine ⟨q, ?_, hprod ▸ hopposite, hdistance.trans_le hwidth⟩
  exact hq.elim (fun h => .inr h.2) fun h => .inl h.2

/-- A bisection makes no more steps than it takes to halve the bracket to the tolerance. If the
budget allows as many it converges, and returns a root or a point that has an end of opposite sign
within the tolerance. -/
theorem bisection_halves_to_tolerance {a b : Point ℝ} (hapart : a.x ≠ b.x)
    (hsign : a.crosses b = true) {tolerance : ℝ} (htolerance : 0 < tolerance) (budget : ℕ)
    (f : ℝ → ℝ) :
    ∃ s r asked p t, new a b = .ok s ∧ trace .bisection tolerance budget f s = (r, asked) ∧
      r.root = some p ∧ r.evaluations = asked.length ∧
      t = (step .bisection f)^[asked.length] s ∧ (p = t.a ∨ p = t.b) ∧
      asked.length ≤ ⌈Real.logb 2 (|b.x - a.x| / tolerance)⌉₊ ∧
      (|b.x - a.x| ≤ tolerance → asked = []) ∧
      (⌈Real.logb 2 (|b.x - a.x| / tolerance)⌉₊ ≤ budget → r.converged = true ∧
        (p.z = 0 ∨ ∃ q, (q = t.a ∨ q = t.b) ∧ p.z * q.z < 0 ∧ |q.x - p.x| ≤ tolerance)) := by
  obtain ⟨n, hn, hbefore, hlast, heq⟩ :=
    exists_trace_eq .bisection tolerance budget f ⟨a, b, a.z, none⟩
  have hcourse := course_iterate hapart hsign fun k hk => open_of_not_isDone (hbefore k hk)
  have hlength : (proposals .bisection f ⟨a, b, a.z, none⟩ n).length = n := by
    simp [proposals]
  have hdone := isDone_halvings htolerance f ⟨a, b, a.z, none⟩
  have hsteps : n ≤ ⌈Real.logb 2 (|b.x - a.x| / tolerance)⌉₊ := by
    by_contra hlt
    have hnot := hbefore _ (not_le.mp hlt)
    exact absurd hdone (Bool.eq_false_iff.mp hnot)
  refine ⟨_, _, _, _, _, Ray.new_of_crosses hsign, heq, rfl, hlength.symm, rfl, ?_, ?_, ?_, ?_⟩
  · rw [hlength]
    exact hcourse.isEnd
  · rw [hlength]
    exact hsteps
  · intro hnarrow
    rw [ceil_logb_of_le (abs_nonneg _) htolerance hnarrow, Nat.le_zero] at hsteps
    rw [hsteps]
    rfl
  · intro hbudget
    have hconverged : ((step .bisection f)^[n] ⟨a, b, a.z, none⟩).isDone tolerance = true := by
      rcases Nat.lt_or_eq_of_le hn with hlt | rfl
      · exact hlast hlt
      · -- The budget is spent, and it was as much as it takes.
        rw [Nat.le_antisymm hsteps hbudget]
        exact hdone
    refine ⟨hconverged, ?_⟩
    rw [hlength]
    rcases hcourse.opposite n le_rfl with hopposite | ⟨-, hroot⟩
    · have hnarrow := (width_le_of_isDone htolerance rfl hconverged).resolve_left fun hzero =>
        hopposite.ne (mul_eq_zero.mpr hzero)
      exact .inr (exists_opposite_near hopposite hnarrow)
    · exact .inl hroot

end

/-- Seven halvings of the unit interval lead to a hundredth. -/
theorem bisection_halves_to_tolerance_ledge :
    (⟨0, -1⟩ : Point ℝ).x ≠ (⟨1, 1999⟩ : Point ℝ).x ∧
      (⟨0, -1⟩ : Point ℝ).crosses ⟨1, 1999⟩ = true ∧ (0 : ℝ) < 1 / 100 ∧
      ∃ s r asked p t, new ⟨0, -1⟩ ⟨1, 1999⟩ = .ok s ∧
        trace .bisection (1 / 100) 7 ledge s = (r, asked) ∧ r.root = some p ∧
        t = (step .bisection ledge)^[asked.length] s ∧ asked.length ≤ 7 ∧ r.converged = true ∧
        (p.z = 0 ∨ ∃ q, (q = t.a ∨ q = t.b) ∧ p.z * q.z < 0 ∧ |q.x - p.x| ≤ 1 / 100) := by
  have hapart : (⟨0, -1⟩ : Point ℝ).x ≠ (⟨1, 1999⟩ : Point ℝ).x := zero_ne_one
  have hsign : (⟨0, -1⟩ : Point ℝ).crosses ⟨1, 1999⟩ = true :=
    (Point.crosses_iff _ _).mpr (by norm_num)
  have htolerance : (0 : ℝ) < 1 / 100 := by norm_num
  have hseven : ⌈Real.logb 2 (|1 - 0| / (1 / 100))⌉₊ ≤ 7 := by
    rw [Nat.ceil_le, Real.logb_le_iff_le_rpow one_lt_two (by norm_num), Real.rpow_natCast]
    norm_num
  obtain ⟨s, r, asked, p, t, hs, htrace, hroot, -, ht, -, hlength, -, hbudget⟩ :=
    bisection_halves_to_tolerance hapart hsign htolerance 7 ledge
  obtain ⟨hconverged, hnear⟩ := hbudget hseven
  exact ⟨hapart, hsign, htolerance, s, r, asked, p, t, hs, htrace, hroot, ht,
    hlength.trans hseven, hconverged, hnear⟩

end FailureProbability.Root.Bracket
