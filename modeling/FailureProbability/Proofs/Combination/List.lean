import Mathlib
import FailureProbability.Proofs.Combination.Probability

/-!
# Lists of events

Whatever the order in which a list of events is combined, each step keeps to the bounds of the two
events that it combines, and bounds of this kind add up: one of the events occurs at least as often
as any of them and at most as often as all of them together, and all of them at once no more often
than any of them. An index at an end of its range stands for a mass beyond it, but no event of the
list has such a mass, so that the bounds hold there as well.

The bounds are those of probability theory for events of which nothing else is known, and so they do
not depend on coefficients, correlations or the order. Closer bounds would have to suppose something
of the conditional probability. The upper bound of the union is a sum of masses and is not carried
over to indices, as a sum of masses may exceed one.

`IsQuantile` is supposed beside `IsDistribution`: between two steps a probability becomes an index
and is read as a probability again.
-/

namespace FailureProbability.Combination

open FailureProbability.Normal Set

section

variable [SpecialFunctions] {c : Config ℝ} {rule : Rule} {rho : List ℝ} {a b d : Direction ℝ}
  {events others : List (Direction ℝ)}

/-- What the combination of some events may be: of the index and of the probability. -/
structure WithinBounds (rule : Rule) (events : List (Direction ℝ)) (d : Direction ℝ) : Prop where
  range : d.beta ∈ Icc (-betaMax) betaMax
  or_le : rule = .or → ∀ e ∈ events, d.beta ≤ e.beta
  or_sum : rule = .or → d.q ≤ (events.map Direction.q).sum
  and_ge : rule = .and → ∀ e ∈ events, e.beta ≤ d.beta

/-! ## One step -/

/-- The index of two events is that of a combined probability, whatever the coefficients. -/
theorem beta_of_two (hd : two c rule rho a b = .ok d) : ∃ r q,
    probability c.conditional rule a.beta b.beta r = .ok q ∧ d.beta = betaFromQ q := by
  unfold two at hd
  obtain ⟨-, -, hd⟩ := bind_eq_ok.mp hd
  obtain ⟨r, -, hd⟩ := bind_eq_ok.mp hd
  obtain ⟨q, hq, hd⟩ := bind_eq_ok.mp hd
  obtain ⟨alpha, -, hd⟩ := bind_eq_ok.mp hd
  refine ⟨r, q, hq, ?_⟩
  split at hd
  · cases hd
    rfl
  · cases hd
    exact Direction.beta_normalized _

/-- An event by itself. -/
theorem withinBounds_single (he : d.beta ∈ Icc (-betaMax) betaMax) : WithinBounds rule [d] d where
  range := he
  or_le := by simp
  or_sum := by simp
  and_ge := by simp

/-- Two combinations within the bounds of their events make one within the bounds of all. -/
theorem WithinBounds.two (h : IsDistribution) (hindex : IsQuantile) (ha : WithinBounds rule events a)
    (hb : WithinBounds rule others b) (hd : two c rule rho a b = .ok d) :
    WithinBounds rule (events ++ others) d := by
  obtain ⟨r, q, hq, hbeta⟩ := beta_of_two hd
  have hrange : d.beta ∈ Icc (-betaMax) betaMax := hbeta ▸ hindex.betaFromQ_mem q
  cases rule with
  | and =>
    rw [probability_and] at hq
    have hle := le_min_iff.mp (joint_le hq)
    refine ⟨hrange, nofun, nofun, fun _ e he => ?_⟩
    rw [hbeta]
    rcases List.mem_append.mp he with he | he
    · exact (ha.and_ge rfl e he).trans (hindex.le_betaFromQ h ha.range hle.1)
    · exact (hb.and_ge rfl e he).trans (hindex.le_betaFromQ h hb.range hle.2)
  | or =>
    have hge := max_le_iff.mp (max_le_probability_or h hq)
    have hsum : q ≤ a.q + b.q := (le_min_iff.mp (probability_or_le h hq)).2
    refine ⟨hrange, fun _ e he => ?_, fun _ => ?_, nofun⟩
    · rw [hbeta]
      rcases List.mem_append.mp he with he | he
      · exact (hindex.betaFromQ_le h ha.range hge.1).trans (ha.or_le rfl e he)
      · exact (hindex.betaFromQ_le h hb.range hge.2).trans (hb.or_le rfl e he)
    -- What an index at the end of its range stands for is not more than its mass.
    · have hlow : cdf (-betaMax) ≤ q := (h.tail_le_tail.mpr ha.range.2).trans hge.1
      have hmass : d.q ≤ q := by
        show cdf (-d.beta) ≤ q
        rw [hbeta]
        exact hindex.tail_betaFromQ_le hlow
      rw [List.map_append, List.sum_append]
      exact hmass.trans (hsum.trans (add_le_add (ha.or_sum rfl) (hb.or_sum rfl)))

/-! ## Both orders -/

/-- From the left: what was combined so far takes the place of the first event. -/
theorem WithinBounds.foldlM (h : IsDistribution) (hindex : IsQuantile) (ha : WithinBounds rule events a)
    (hrange : ∀ e ∈ others, e.beta ∈ Icc (-betaMax) betaMax)
    (hd : others.foldlM (Combination.two c rule rho) a = .ok d) :
    WithinBounds rule (events ++ others) d := by
  induction others generalizing events a with
  | nil =>
    cases hd
    rwa [List.append_nil]
  | cons e others ih =>
    rw [List.foldlM_cons] at hd
    obtain ⟨next, hnext, hd⟩ := bind_eq_ok.mp hd
    have hstep := ha.two h hindex (withinBounds_single (hrange e (by simp))) hnext
    rw [← List.singleton_append, ← List.append_assoc]
    exact ih hstep (fun e he => hrange e (List.mem_cons_of_mem _ he)) hd

theorem withinBounds_multiple (h : IsDistribution) (hindex : IsQuantile)
    (hrange : ∀ e ∈ events, e.beta ∈ Icc (-betaMax) betaMax)
    (hd : multiple c rule rho events = .ok d) : WithinBounds rule events d := by
  cases events with
  | nil => cases hd
  | cons first rest =>
    exact (withinBounds_single (hrange first (by simp))).foldlM h hindex
      (fun e he => hrange e (List.mem_cons_of_mem _ he)) hd

/-- By halves: the induction follows the recursion, whose two parts make up the list again. -/
theorem withinBounds_tree (h : IsDistribution) (hindex : IsQuantile)
    (hrange : ∀ e ∈ events, e.beta ∈ Icc (-betaMax) betaMax)
    (hd : tree c rule rho events = .ok d) : WithinBounds rule events d := by
  induction events using tree.induct generalizing d with
  | case1 =>
    rw [tree] at hd
    cases hd
  | case2 e =>
    rw [tree] at hd
    cases hd
    exact withinBounds_single (hrange _ (by simp))
  | case3 first second rest events half ihleft =>
    rename_i ihright
    rw [tree] at hd
    obtain ⟨left, hleft, hd⟩ := bind_eq_ok.mp hd
    obtain ⟨right, hright, hd⟩ := bind_eq_ok.mp hd
    have hl := ihleft (fun e he => hrange e (List.mem_of_mem_take he)) hleft
    have hr := ihright (fun e he => hrange e (List.mem_of_mem_drop he)) hright
    have hall := hl.two h hindex hr hd
    rwa [List.take_append_drop] at hall

/-- Lists of events within the range of indices, whatever their coefficients, are combined within
the bounds of the list, from the left and by halves. -/
theorem list_within_bounds (h : IsDistribution) (hindex : IsQuantile)
    (hrange : ∀ e ∈ events, e.beta ∈ Icc (-betaMax) betaMax)
    (hd : multiple c rule rho events = .ok d ∨ tree c rule rho events = .ok d) :
    d.beta ∈ Icc (-betaMax) betaMax ∧
      (rule = .or → (∀ e ∈ events, d.beta ≤ e.beta) ∧ d.q ≤ (events.map Direction.q).sum) ∧
      (rule = .and → ∀ e ∈ events, e.beta ≤ d.beta) := by
  have hall : WithinBounds rule events d := by
    rcases hd with hd | hd
    · exact withinBounds_multiple h hindex hrange hd
    · exact withinBounds_tree h hindex hrange hd
  exact ⟨hall.range, fun hor => ⟨hall.or_le hor, hall.or_sum hor⟩, hall.and_ge⟩

/-! ## Independent events -/

/-- Events are combined if their combination has a probability, moved or not. -/
theorem exists_two_of_probability (hc : c.validate = .ok ()) {r : ℝ}
    (hcorrelation : correlation a b rho = .ok r)
    (hprobability : ∀ x y, ∃ q, probability c.conditional rule x y r = .ok q) :
    ∃ d, two c rule rho a b = .ok d := by
  have hmoved (beta alphaA alphaB ri : ℝ) :
      ∃ s, sensitivity c rule a b r beta alphaA alphaB ri = .ok s := by
    obtain ⟨q, hq⟩ := hprobability (a.beta + alphaA * c.delta) (b.beta + alphaB * ri * c.delta)
    exact (exists_bind_eq_ok hq).mpr ⟨_, rfl⟩
  obtain ⟨q, hq⟩ := hprobability a.beta b.beta
  obtain ⟨alpha, halpha⟩ := exists_mapM_eq_ok (fun y : ℝ × ℝ × ℝ => hmoved (betaFromQ q) y.1 y.2.1 y.2.2)
    (a.alpha.zip (b.alpha.zip rho))
  refine (exists_bind_eq_ok hc).mpr ((exists_bind_eq_ok hcorrelation).mpr
    ((exists_bind_eq_ok hq).mpr ((exists_bind_eq_ok halpha).mpr ?_)))
  split
  · exact ⟨_, rfl⟩
  · exact ⟨_, rfl⟩

/-- Events that are not correlated are always combined. -/
theorem exists_two (h : IsDistribution) (hc : c.validate = .ok ()) {r : ℝ} (hr : |r| ≤ 1)
    (hzero : |r| < c.conditional.rhoZero) (hcorrelation : correlation a b rho = .ok r) :
    ∃ d, two c rule rho a b = .ok d := by
  refine exists_two_of_probability hc hcorrelation fun x y => ?_
  cases rule with
  | and => exact ⟨_, probability_and.trans (joint_of_uncorrelated h hr hzero)⟩
  | or => exact ⟨_, (probability_or_eq_ok h).mpr ⟨_, joint_of_uncorrelated h hr hzero, rfl⟩⟩

end

/-- An event that depends on the first of two variables. -/
def alongFirst : Direction ℝ := ⟨0, [1, 0]⟩

/-- An event that depends on the second of two variables. -/
def alongSecond : Direction ℝ := ⟨1, [0, 1]⟩

theorem validate_standard : (Config.standard : Config ℝ).validate = .ok () := by
  have hdelta : Scalar.isPositive (Config.standard.delta : ℝ) = true := by
    rw [Scalar.isPositive_eq, decide_eq_true_iff]
    norm_num [Config.standard]
  unfold Config.validate
  rw [hdelta]
  exact Conditional.validate_standard

/-- Two independent events: at least one of them, combined from the left, and both of them, combined
by halves. -/
theorem list_within_bounds_independent : ∃ d e : Direction ℝ,
    multiple .standard .or [1, 1] [alongFirst, alongSecond] = .ok d ∧
      tree .standard .and [1, 1] [alongFirst, alongSecond] = .ok e ∧
      d.beta ≤ 0 ∧ d.q ≤ alongFirst.q + alongSecond.q ∧ 1 ≤ e.beta := by
  have hzero : |(0 : ℝ)| < (Config.standard : Config ℝ).conditional.rhoZero := by
    norm_num [Config.standard, Conditional.Config.standard]
  have hcorrelation : correlation alongFirst alongSecond [1, 1] = .ok 0 := by
    have hcheck : checkLengths alongFirst alongSecond [1, 1] = .ok () := by
      unfold checkLengths alongFirst alongSecond
      simp [Scalar.abs_eq]
    unfold correlation
    rw [hcheck]
    show Except.ok (Scalar.clamp _ _ _) = _
    rw [Scalar.one_eq, Scalar.clamp_eq (by norm_num)]
    simp [Coordinates.sum, alongFirst, alongSecond]
  -- Two events need no search while they are independent; a list of two is one step in both orders.
  have htwo (rule : Rule) : ∃ d, two .standard rule [1, 1] alongFirst alongSecond = .ok d :=
    exists_two SpecialFunctions.isDistribution validate_standard
      (abs_zero.trans_le zero_le_one) hzero hcorrelation
  have hrange : ∀ e ∈ [alongFirst, alongSecond], e.beta ∈ Icc (-betaMax) betaMax := by
    rw [betaMax_eq]
    simp only [List.forall_mem_cons, List.not_mem_nil, false_imp_iff, implies_true, and_true]
    norm_num [alongFirst, alongSecond]
  obtain ⟨d, hd⟩ := htwo .or
  obtain ⟨e, he⟩ := htwo .and
  have hmultiple : multiple .standard .or [1, 1] [alongFirst, alongSecond] = .ok d :=
    (bind_pure _).trans hd
  have htree : tree .standard .and [1, 1] [alongFirst, alongSecond] = .ok e := by
    rw [tree]
    show (do
      let left ← tree Config.standard .and [1, 1] [alongFirst]
      let right ← tree Config.standard .and [1, 1] [alongSecond]
      two .standard .and [1, 1] left right) = _
    rw [tree, tree]
    exact he
  obtain ⟨-, hor, -⟩ := list_within_bounds SpecialFunctions.isDistribution SpecialFunctions.isQuantile
    hrange (.inl hmultiple)
  obtain ⟨-, -, hand⟩ := list_within_bounds SpecialFunctions.isDistribution SpecialFunctions.isQuantile
    hrange (.inr htree)
  refine ⟨d, e, hmultiple, htree, (hor rfl).1 alongFirst (by simp), ?_,
    hand rfl alongSecond (by simp)⟩
  simpa using (hor rfl).2

end FailureProbability.Combination
