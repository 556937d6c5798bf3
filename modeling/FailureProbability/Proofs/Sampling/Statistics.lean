import Mathlib
import FailureProbability.Proofs.Nearest
import FailureProbability.Proofs.Sampling.Stopping

/-!
# The statistics of a run of samples

On exact numbers the weight of a sample is the ratio of the standard-normal density to the density
that it was drawn from (`Density.sample_eq`). What a tally keeps of its samples does not depend on
how the run went (`Tally.IsOf`): the failure probability is the mean of the weights of the failing
samples, the safe ones counting as zero, and its variance is that of a mean. The mean of the squares
is at least the square of the mean, so that the variance is never cut off at zero.

Densities are those of Mathlib, of independent normal variables with their means and variances, and
the weights are held against them coordinate by coordinate. That variances are positive is assumed
of the density; without it there is no density to speak of.

No expectation is taken here. The samples are those of a given stream, and that they come from the
density is a matter of the source. What is shown is that the estimator is the one of importance
sampling, and not how near it is to the probability.
-/

namespace FailureProbability.Sampling

open ProbabilityTheory (gaussianPDFReal gaussianPDFReal_pos)

/-! ## Densities

A sample is a standard-normal vector that was stretched and shifted. The logarithm of its weight is
a sum over the coordinates, and each term is that of the ratio of two normal densities; the factors
of the normal distribution itself cancel, apart from the deviation. -/

/-- The density of independent standard-normal variables. -/
noncomputable def standardPdf (u : List ℝ) : ℝ := (u.map (gaussianPDFReal 0 1)).prod

/-- The density of independent normal variables, each with its mean and variance. -/
noncomputable def normalPdf (moments : List (ℝ × ℝ)) (u : List ℝ) : ℝ :=
  ((u.zip moments).map fun (x, m, v) => gaussianPDFReal m v.toNNReal x).prod

/-- The point that a standard-normal vector stands for. -/
noncomputable def placed (moments : List (ℝ × ℝ)) (eps : List ℝ) : List ℝ :=
  (eps.zip moments).map fun (e, m, v) => m + Real.sqrt v * e

theorem standardPdf_pos (u : List ℝ) : 0 < standardPdf u := by
  refine List.prod_pos fun p hp => ?_
  obtain ⟨x, -, rfl⟩ := List.mem_map.mp hp
  exact gaussianPDFReal_pos 0 1 x one_ne_zero

/-- With mean zero and variance one everywhere the density is the standard-normal one. -/
theorem normalPdf_replicate {n : ℕ} {u : List ℝ} (hu : u.length ≤ n) :
    normalPdf (List.replicate n (0, 1)) u = standardPdf u := by
  induction u generalizing n with
  | nil => rfl
  | cons x u ih =>
    cases n with
    | zero => exact absurd hu (Nat.not_succ_le_zero _)
    | succ n =>
      have hrest := ih (Nat.le_of_succ_le_succ hu)
      unfold normalPdf standardPdf at hrest ⊢
      rw [List.replicate_succ, List.zip_cons_cons, List.map_cons, List.prod_cons, hrest,
        List.map_cons, List.prod_cons]
      dsimp only
      rw [Real.toNNReal_one]

theorem standard_gaussianPDFReal (x : ℝ) :
    gaussianPDFReal 0 1 x = (Real.sqrt (2 * Real.pi))⁻¹ * Real.exp (-(2⁻¹ * x * x)) := by
  have hexponent : -(x - 0) ^ 2 / (2 * ((1 : NNReal) : ℝ)) = -(2⁻¹ * x * x) := by
    rw [NNReal.coe_one]
    ring
  rw [gaussianPDFReal, hexponent, NNReal.coe_one, mul_one]

/-- A normal density at the point that a standard-normal number stands for. -/
theorem gaussianPDFReal_placed (e m : ℝ) {v : ℝ} (hv : 0 < v) :
    gaussianPDFReal m v.toNNReal (m + Real.sqrt v * e) =
      (Real.sqrt (2 * Real.pi))⁻¹ * (Real.sqrt v)⁻¹ * Real.exp (-(2⁻¹ * e * e)) := by
  have hexponent : -(m + Real.sqrt v * e - m) ^ 2 / (2 * v) = -(2⁻¹ * e * e) := by
    rw [add_sub_cancel_left, mul_pow, Real.sq_sqrt hv.le]
    field_simp
  rw [gaussianPDFReal, Real.coe_toNNReal v hv.le, hexponent, Real.sqrt_mul Real.two_pi_pos.le,
    mul_inv]

/-- The ratio of the two densities of one coordinate. -/
theorem exp_eq_ratio (e m : ℝ) {v : ℝ} (hv : 0 < v) :
    Real.exp (2⁻¹ * e * e - 2⁻¹ * (m + Real.sqrt v * e) * (m + Real.sqrt v * e) +
        Real.log (Real.sqrt v)) =
      gaussianPDFReal 0 1 (m + Real.sqrt v * e) /
        gaussianPDFReal m v.toNNReal (m + Real.sqrt v * e) := by
  have hsqrt : 0 < Real.sqrt v := Real.sqrt_pos.mpr hv
  have hpi : 0 < Real.sqrt (2 * Real.pi) := Real.sqrt_pos.mpr Real.two_pi_pos
  rw [gaussianPDFReal_placed e m hv, standard_gaussianPDFReal, Real.exp_add, Real.exp_log hsqrt,
    Real.exp_sub, Real.exp_neg, Real.exp_neg]
  field_simp

section

variable [SpecialFunctions]

/-- The coordinates of a sample, and the sum of the logarithms of their weights. -/
theorem exp_sum_eq_ratio {moments : List (ℝ × ℝ)} (hv : ∀ p ∈ moments, 0 < p.2) (eps : List ℝ) :
    Real.exp ((eps.zip moments).map fun (e, m, v) => (Density.coordinate e m v).2).sum =
      standardPdf (placed moments eps) / normalPdf moments (placed moments eps) := by
  induction eps generalizing moments with
  | nil => simp [standardPdf, normalPdf, placed]
  | cons e eps ih =>
    cases moments with
    | nil => simp [standardPdf, normalPdf, placed]
    | cons p moments =>
      obtain ⟨m, v⟩ := p
      obtain ⟨hfirst, hrest⟩ := List.forall_mem_cons.mp hv
      have hcoordinate : (Density.coordinate e m v).2 =
          2⁻¹ * e * e - 2⁻¹ * (m + Real.sqrt v * e) * (m + Real.sqrt v * e) +
            Real.log (Real.sqrt v) := by
        unfold Density.coordinate
        dsimp only
        rw [Scalar.half_eq]
        rfl
      have hratio := exp_eq_ratio e m hfirst
      rw [← hcoordinate] at hratio
      rw [List.zip_cons_cons, List.map_cons, List.sum_cons, Real.exp_add, ih hrest, hratio]
      unfold standardPdf normalPdf placed
      rw [List.zip_cons_cons, List.map_cons, List.map_cons, List.prod_cons, List.zip_cons_cons,
        List.map_cons, List.prod_cons]
      exact div_mul_div_comm ..

namespace Density

/-- The mean and the variance of each variable. -/
def moments (d : Density ℝ) : List (ℝ × ℝ) := d.offset.zip d.varianceFactor

/-- The ratio of the standard-normal density to the density. -/
noncomputable def ratio (d : Density ℝ) (u : List ℝ) : ℝ := standardPdf u / normalPdf d.moments u

/-- Every variance is above zero. -/
def IsPositive (d : Density ℝ) : Prop := ∀ v ∈ d.varianceFactor, 0 < v

/-- A vector stands for its point, with the ratio of the densities there for a weight. -/
theorem sample_eq {d : Density ℝ} (hd : d.IsPositive) (eps : List ℝ) :
    d.sample eps = (placed d.moments eps, d.ratio (placed d.moments eps)) := by
  have hpositive : ∀ p ∈ d.moments, 0 < p.2 := fun p hp => hd p.2 (List.of_mem_zip hp).2
  unfold sample
  dsimp only
  rw [Coordinates.sum_eq, List.map_map, List.map_map]
  exact Prod.ext rfl (exp_sum_eq_ratio hpositive eps)

/-- The samples of the standard-normal density have no weight to correct for. -/
theorem ratio_standard {n : ℕ} {u : List ℝ} (hu : u.length ≤ n) :
    (standard n : Density ℝ).ratio u = 1 := by
  have hmoments : (standard n : Density ℝ).moments = List.replicate n (0, 1) := by
    unfold moments standard Coordinates.origin
    rw [List.zip_replicate, Nat.min_self, Scalar.zero_eq, Scalar.one_eq]
  rw [ratio, hmoments, normalPdf_replicate hu, div_self (standardPdf_pos u).ne']

end Density

end

/-! ## Means -/

/-- The mean of some numbers and of zeros, all together so many. -/
noncomputable def meanOver (n : ℕ) (ws : List ℝ) : ℝ := ws.sum / n

/-- The variance of the numbers and zeros, taken over all of them. -/
noncomputable def spreadOver (n : ℕ) (ws : List ℝ) : ℝ :=
  meanOver n (ws.map (· ^ 2)) - meanOver n ws ^ 2

/-- The mean square is at least the square of the mean. -/
theorem spreadOver_nonneg {n : ℕ} {ws : List ℝ} (h : ws.length ≤ n) : 0 ≤ spreadOver n ws := by
  have hcauchy : ws.sum ^ 2 ≤ ws.length * (ws.map (· ^ 2)).sum := by
    have hfin := sq_sum_le_card_mul_sum_sq (s := Finset.univ) (f := fun i : Fin ws.length => ws[i.1])
    rwa [Finset.card_univ, Fintype.card_fin, Fin.sum_univ_getElem,
      Fin.sum_univ_fun_getElem ws (· ^ 2)] at hfin
  have hsquares : 0 ≤ (ws.map (· ^ 2)).sum := by
    refine List.sum_nonneg fun x hx => ?_
    obtain ⟨w, -, rfl⟩ := List.mem_map.mp hx
    exact sq_nonneg w
  unfold spreadOver meanOver
  rw [sub_nonneg]
  rcases n.eq_zero_or_pos with rfl | hn
  · rw [Nat.cast_zero, div_zero, div_zero, zero_pow two_ne_zero]
  · have hpos : (0 : ℝ) < n := Nat.cast_pos.mpr hn
    have hlength : (ws.length : ℝ) ≤ n := Nat.cast_le.mpr h
    rw [div_pow, div_le_div_iff₀ (by positivity) hpos]
    calc ws.sum ^ 2 * n
        ≤ n * (ws.map (· ^ 2)).sum * n := by gcongr; exact hcauchy.trans (by gcongr)
      _ = (ws.map (· ^ 2)).sum * n ^ 2 := by ring

/-! ## Tallies

A tally adds its samples one by one, and says of them only sums, counts and nearest points. `IsOf`
says which sums these are, of the list of all samples; it is kept by one more sample at the end of
the list, so that it holds of every tally, however it came about. -/

/-- The failing ones of some samples. -/
noncomputable def failing (samples : List (Sample ℝ)) : List (Sample ℝ) :=
  samples.filter fun s => s.z < 0

/-- The other samples. -/
noncomputable def passing (samples : List (Sample ℝ)) : List (Sample ℝ) :=
  samples.filter fun s => 0 ≤ s.z

section

variable {samples : List (Sample ℝ)} {s : Sample ℝ}

theorem failing_concat_of_neg (h : s.z < 0) : failing (samples ++ [s]) = failing samples ++ [s] := by
  simp [failing, h]

theorem failing_concat_of_nonneg (h : 0 ≤ s.z) : failing (samples ++ [s]) = failing samples := by
  simp [failing, h]

theorem passing_concat_of_neg (h : s.z < 0) : passing (samples ++ [s]) = passing samples := by
  simp [passing, h]

theorem passing_concat_of_nonneg (h : 0 ≤ s.z) :
    passing (samples ++ [s]) = passing samples ++ [s] := by
  simp [passing, h]

end

theorem length_failing_add_length_passing (samples : List (Sample ℝ)) :
    (failing samples).length + (passing samples).length = samples.length := by
  have hpassing : passing samples = samples.filter fun s => !decide (s.z < 0) := by
    refine List.filter_congr fun s _ => ?_
    rw [← decide_not, decide_eq_decide, not_lt]
  rw [hpassing]
  exact (List.length_eq_length_filter_add _).symm

section

variable [SpecialFunctions]

/-- What one side of a tally keeps of its samples. -/
structure Domain.IsOf (samples : List (Sample ℝ)) (d : Domain ℝ) : Prop where
  count : d.count = samples.length
  weight : d.weight = (samples.map (·.weight)).sum
  nearest : d.nearest = Nearest.among (samples.map (·.u))

theorem Domain.isOf_empty : (Domain.empty : Domain ℝ).IsOf [] := ⟨rfl, Scalar.zero_eq, rfl⟩

theorem Domain.IsOf.add {samples : List (Sample ℝ)} {d : Domain ℝ} (h : d.IsOf samples)
    (s : Sample ℝ) : (d.add s.u s.weight).IsOf (samples ++ [s]) := by
  constructor
  · show d.count + 1 = _
    rw [h.count, List.length_append, List.length_singleton]
  · show d.weight + s.weight = _
    rw [h.weight, List.map_append, List.sum_append, List.map_singleton, List.sum_singleton]
  · show Nearest.offer d.nearest (.of s.u) = _
    rw [h.nearest, List.map_append, List.map_singleton, Nearest.among_concat]

/-- What a tally keeps of all samples. -/
structure Tally.IsOf (samples : List (Sample ℝ)) (t : Tally ℝ) : Prop where
  count : t.count = samples.length
  squares : t.squares = ((failing samples).map (·.weight ^ 2)).sum
  failed : t.failed.IsOf (failing samples)
  safe : t.safe.IsOf (passing samples)

theorem Tally.isOf_empty : (Tally.empty : Tally ℝ).IsOf [] :=
  ⟨rfl, Scalar.zero_eq, Domain.isOf_empty, Domain.isOf_empty⟩

/-- One more sample at the end of the list. -/
theorem Tally.IsOf.add {samples : List (Sample ℝ)} {t : Tally ℝ} (h : t.IsOf samples)
    (s : Sample ℝ) : (t.addSample s).IsOf (samples ++ [s]) := by
  have hcount : (t.addSample s).count = (samples ++ [s]).length := by
    rw [List.length_append, List.length_singleton, ← h.count]
    exact t.count_add s.u s.z s.weight
  rcases lt_or_ge s.z 0 with hz | hz
  · have hadd : t.addSample s =
        ⟨t.count + 1, t.squares + s.weight * s.weight, t.failed.add s.u s.weight, t.safe⟩ :=
      if_pos (by rwa [Scalar.zero_eq])
    rw [hadd] at hcount ⊢
    refine ⟨hcount, ?_, ?_, ?_⟩
    · rw [failing_concat_of_neg hz, List.map_append, List.sum_append, ← h.squares,
        List.map_singleton, List.sum_singleton, pow_two]
    · rw [failing_concat_of_neg hz]
      exact h.failed.add s
    · rw [passing_concat_of_neg hz]
      exact h.safe
  · have hadd : t.addSample s = ⟨t.count + 1, t.squares, t.failed, t.safe.add s.u s.weight⟩ :=
      if_neg (by rwa [Scalar.zero_eq, not_lt])
    rw [hadd] at hcount ⊢
    refine ⟨hcount, ?_, ?_, ?_⟩
    · rw [failing_concat_of_nonneg hz]
      exact h.squares
    · rw [failing_concat_of_nonneg hz]
      exact h.failed
    · rw [passing_concat_of_nonneg hz]
      exact h.safe.add s

/-- A tally keeps its samples, added one by one. -/
theorem Tally.isOf_foldl (samples : List (Sample ℝ)) :
    (samples.foldl Tally.addSample .empty).IsOf samples := by
  induction samples using List.reverseRecOn with
  | nil => exact Tally.isOf_empty
  | append_singleton samples s ih =>
    rw [List.foldl_append]
    exact ih.add s

/-! ## The estimator

Here the tally meets the densities: its sums are those of weights, and the weights are ratios. A
safe sample counts as zero in the mean and in the squares, but it counts in their number. Without
weights the variance comes down to that of a number of independent trials. -/

/-- A sample that a standard-normal vector stands for. -/
structure IsSample (m : Model ℝ) (d : Density ℝ) (v : List ℝ) (s : Sample ℝ) : Prop where
  point : s.u = placed d.moments v
  weight : s.weight = d.ratio s.u
  value : m.value s.u = .ok s.z

/-- So do all vectors that were evaluated. -/
theorem Evaluated.isSample {m : Model ℝ} {d : Density ℝ} (hd : d.IsPositive) {vs : List (List ℝ)}
    {samples : List (Sample ℝ)} (h : Evaluated m d vs samples) :
    List.Forall₂ (IsSample m d) vs samples := by
  induction h with
  | nil => exact .nil
  | cons hs hz _ ih =>
    rw [Density.sample_eq hd] at hs
    obtain ⟨hu, hw⟩ := Prod.mk.inj hs
    exact .cons ⟨hu.symm, by rw [← hw, hu], hz⟩ ih

theorem exists_isSample {m : Model ℝ} {d : Density ℝ} {vs : List (List ℝ)}
    {samples : List (Sample ℝ)} (h : List.Forall₂ (IsSample m d) vs samples) :
    ∀ s ∈ samples, ∃ v ∈ vs, IsSample m d v s := by
  induction h with
  | nil => exact fun s hs => absurd hs List.not_mem_nil
  | @cons v s vs samples hfirst _ ih =>
    refine List.forall_mem_cons.mpr ⟨⟨v, List.mem_cons_self, hfirst⟩, fun s hs => ?_⟩
    obtain ⟨v, hv, hsample⟩ := ih s hs
    exact ⟨v, List.mem_cons_of_mem _ hv, hsample⟩

/-- The first one of the points that are nearest to the origin, where there are points. -/
def IsFirstNearest (points : List (List ℝ)) : Option (Nearest ℝ) → Prop
  | none => points = []
  | some p => Nearest.IsFirst points p

/-- The estimator by samples that each stand for the ratio of two densities. -/
structure Tally.Estimates (d : Density ℝ) (samples : List (Sample ℝ)) (t : Tally ℝ) : Prop where
  count : t.count = samples.length
  pf : t.pf = meanOver samples.length ((failing samples).map fun s => d.ratio s.u)
  spread : 0 ≤ spreadOver samples.length ((failing samples).map fun s => d.ratio s.u)
  variance : t.variance =
    spreadOver samples.length ((failing samples).map fun s => d.ratio s.u) / samples.length
  sides : t.failed.count + t.safe.count = samples.length
  failed : t.failed.count = (failing samples).length
  nearestFailed : IsFirstNearest ((failing samples).map (·.u)) t.failed.nearest
  nearestSafe : IsFirstNearest ((passing samples).map (·.u)) t.safe.nearest

theorem Domain.IsOf.isFirstNearest {samples : List (Sample ℝ)} {d : Domain ℝ} (h : d.IsOf samples) :
    IsFirstNearest (samples.map (·.u)) d.nearest := by
  rw [h.nearest]
  rcases Nearest.among_cases (samples.map (·.u)) with ⟨hnone, hpoints⟩ | ⟨p, hsome, hp⟩
  · rw [hnone]
    exact hpoints
  · rw [hsome]
    exact hp

/-- What is kept of samples makes up the estimator. -/
theorem Tally.IsOf.estimates {samples : List (Sample ℝ)} {t : Tally ℝ} (h : t.IsOf samples)
    (hne : samples ≠ []) {d : Density ℝ} (hweight : ∀ s ∈ samples, s.weight = d.ratio s.u) :
    t.Estimates d samples := by
  have hcount : ¬t.count = 0 := by
    rw [h.count, List.length_eq_zero_iff]
    exact hne
  have hweights : (failing samples).map (·.weight) = (failing samples).map fun s => d.ratio s.u :=
    List.map_congr_left fun s hs => hweight s (List.mem_filter.mp hs).1
  have hpf : t.pf = meanOver samples.length ((failing samples).map fun s => d.ratio s.u) := by
    unfold pf meanOver
    rw [if_neg hcount, h.failed.weight, hweights, h.count]
    rfl
  have hspread : 0 ≤ spreadOver samples.length ((failing samples).map fun s => d.ratio s.u) := by
    refine spreadOver_nonneg ?_
    rw [List.length_map]
    exact List.length_filter_le ..
  refine ⟨h.count, hpf, hspread, ?_, ?_, h.failed.count, h.failed.isFirstNearest,
    h.safe.isFirstNearest⟩
  · have hsquares : t.squares / (samples.length : ℝ) - t.pf * t.pf =
        spreadOver samples.length ((failing samples).map fun s => d.ratio s.u) := by
      unfold spreadOver
      rw [← hpf, ← hweights, List.map_map, h.squares, pow_two]
      rfl
    unfold variance
    rw [if_neg hcount, h.count]
    dsimp only
    rw [show (Scalar.ofNat samples.length : ℝ) = samples.length from rfl, hsquares, Scalar.max_eq,
      Scalar.zero_eq, max_eq_left hspread]
  · rw [h.failed.count, h.safe.count, length_failing_add_length_passing]

/-- Without weights the estimator is that of a binomial distribution. -/
theorem Tally.Estimates.binomial {samples : List (Sample ℝ)} {t : Tally ℝ} {d : Density ℝ}
    (h : t.Estimates d samples) (hone : ∀ s ∈ samples, d.ratio s.u = 1) :
    t.pf = t.failed.count / samples.length ∧
      t.variance = t.pf * (1 - t.pf) / samples.length := by
  have hones : (failing samples).map (fun s => d.ratio s.u) =
      List.replicate t.failed.count 1 := by
    rw [h.failed]
    refine List.eq_replicate_iff.mpr ⟨List.length_map .., fun w hw => ?_⟩
    obtain ⟨s, hs, rfl⟩ := List.mem_map.mp hw
    exact hone s (List.mem_filter.mp hs).1
  have hsum : (List.replicate t.failed.count (1 : ℝ)).sum = t.failed.count := by
    rw [List.sum_replicate, nsmul_eq_mul, mul_one]
  have hpf := h.pf
  have hvariance := h.variance
  rw [hones] at hpf hvariance
  unfold spreadOver at hvariance
  rw [List.map_replicate, one_pow, ← hpf] at hvariance
  refine ⟨?_, ?_⟩
  · rw [hpf, meanOver, hsum]
  · rw [hvariance]
    congr 1
    ring

variable {σ : Type} [RandomSource σ ℝ]

/-- **Importance sampling.** Whichever engine has answered on a fresh supply, its tally is the
estimator by the first vectors of the stream: each stands for a sample, which has the ratio of the
standard-normal density to the density of the run as its weight. On the standard density all weights
are one. -/
theorem statistics_are_importance_estimator {m : Model ℝ} {c : Config ℝ} {d : Density ℝ}
    (hd : d.IsPositive) {source : σ} {circular : Bool} {o : Outcome ℝ} {s' : Supply σ ℝ}
    {j j' : Journal ℝ}
    (h : RunWith.exec (sequential m c d) (.fresh source circular) j = (.ok o, s', j') ∨
      RunWith.exec (buffered m c d) (.fresh source circular) j = (.ok o, s', j')) :
    ∃ source' vs samples, RandomSource.Yields m.dimension source vs source' ∧
      List.Forall₂ (IsSample m d) vs samples ∧ 1 ≤ samples.length ∧
      o.tally.Estimates d samples ∧
      (d = .standard m.dimension → (∀ s ∈ samples, s.weight = 1) ∧
        o.tally.pf = o.tally.failed.count / samples.length ∧
        o.tally.variance = o.tally.pf * (1 - o.tally.pf) / samples.length) := by
  obtain ⟨source', vs, samples, rs, hstream, hevaluated, hcourse⟩ :
      ∃ source' vs samples rs, RandomSource.Yields m.dimension source vs source' ∧
        Evaluated m d vs samples ∧ c.SampleCourse m .empty o.tally (some o.status) j.reports
          j'.reports samples rs := by
    rcases h with h | h
    · exact ⟨_, course_of_exec_single (ready_fuel c) (exec_counted_eq_ok.mp h).1⟩
    · exact course_of_exec_rounds (ready_fuel c) (RandomSource.yields_nil.mpr rfl)
        (exec_counted_eq_ok.mp h).1
  -- From here on it does not matter which engine it was.
  have hsamples := hevaluated.isSample hd
  have hlength : 1 ≤ samples.length := by
    obtain ⟨k, -, hk, -⟩ := hcourse.settles.verdict_last
    rw [length_standings] at hk
    omega
  have htally : o.tally.IsOf samples := by
    rw [hcourse.tally]
    exact Tally.isOf_foldl samples
  have hweight : ∀ s ∈ samples, s.weight = d.ratio s.u := by
    intro s hs
    obtain ⟨v, -, hsample⟩ := exists_isSample hsamples s hs
    exact hsample.weight
  have hestimates := htally.estimates (List.length_pos_iff.mp hlength) hweight
  refine ⟨source', vs, samples, hstream, hsamples, hlength, hestimates, fun hstandard => ?_⟩
  have hone : ∀ s ∈ samples, d.ratio s.u = 1 := by
    intro s hs
    obtain ⟨v, hv, hsample⟩ := exists_isSample hsamples s hs
    rw [hstandard]
    refine Density.ratio_standard ?_
    rw [hsample.point, placed, List.length_map, List.length_zip, hstream.length_eq v hv]
    exact Nat.min_le_left ..
  exact ⟨fun s hs => (hweight s hs).trans (hone s hs), hestimates.binomial hone⟩

end

/-! ## Two samples -/

/-- A single variable, and failure to the left of zero. -/
noncomputable def leftOfZero : Model ℝ :=
  ⟨.standardNormals 1, fun d => .ok (d.u.headD 0), 1, .silent⟩

/-- Two samples, no fewer and no more. -/
noncomputable def twoSamples : Config ℝ := ⟨2, 2, 1, 1, 0, .chacha, false, 0⟩

/-- A normal density with mean one and this variance. -/
noncomputable def shifted (variance : ℝ) : Density ℝ := ⟨[1], [variance]⟩

theorem sqrt_four : Real.sqrt 4 = 2 := by
  rw [Real.sqrt_eq_iff_mul_self_eq] <;> norm_num

theorem isPositive_shifted : (shifted 4).IsPositive := by
  intro v hv
  rw [List.mem_singleton.mp hv]
  exact four_pos

theorem placed_shifted (e : ℝ) : placed (shifted 4).moments [e] = [1 + 2 * e] := by
  show [1 + Real.sqrt 4 * e] = _
  rw [sqrt_four]

theorem IsSample.of_shifted {e : ℝ} {s : Sample ℝ} (h : IsSample leftOfZero (shifted 4) [e] s) :
    s.u = [1 + 2 * e] ∧ s.z = 1 + 2 * e := by
  have hu := h.point
  have hz := h.value
  rw [placed_shifted] at hu
  rw [hu] at hz
  exact ⟨hu, (Except.ok.inj hz).symm⟩

theorem ratio_shifted : (shifted 4).ratio [-1] = 2 := by
  have h := exp_eq_ratio (-1) 1 four_pos
  rw [sqrt_four] at h
  have hexponent : (2⁻¹ : ℝ) * -1 * -1 - 2⁻¹ * (1 + 2 * -1) * (1 + 2 * -1) + Real.log 2 =
      Real.log 2 := by ring
  have hpoint : (1 : ℝ) + 2 * -1 = -1 := by norm_num
  rw [hexponent, Real.exp_log two_pos, hpoint] at h
  show gaussianPDFReal 0 1 (-1) * 1 / (gaussianPDFReal 1 (Real.toNNReal 4) (-1) * 1) = 2
  rw [mul_one, mul_one, h]

/-- Nothing stops the run before its second sample, and its budget stops it there. -/
theorem exec_twoSamples : ∃ o s' j',
    RunWith.exec (sequential leftOfZero twoSamples (shifted 4))
      (.fresh (Random.Replay.new [(-1 : ℝ), 1]) false) .empty = (.ok o, s', j') ∧
      o.tally.count = 2 := by
  have hz : ∀ e : ℝ, leftOfZero.value ((shifted 4).sample [e]).1 = .ok (1 + 2 * e) := by
    intro e
    rw [Density.sample_eq isPositive_shifted, placed_shifted]
    rfl
  have hgoes : ∀ (t : Tally ℝ) (j : Journal ℝ), t.count = 1 →
      twoSamples.judged leftOfZero j t = none := by
    intro t j ht
    refine Config.verdict_eq_none_iff.mpr ⟨rfl, ?_, ?_⟩ <;> rw [ht]
    · rfl
    · exact Nat.one_lt_two
  have hfirst : (RandomSource.normals leftOfZero.dimension
      (Random.Replay.new [(-1 : ℝ), 1]) : List ℝ × _).1 = [-1] := rfl
  have hsecond : (RandomSource.normals leftOfZero.dimension
      (RandomSource.normals leftOfZero.dimension (Random.Replay.new [(-1 : ℝ), 1]) :
        List ℝ × _).2 : List ℝ × _).1 = [1] := rfl
  have hcount : ∀ (u u' : List ℝ) (z z' w w' : ℝ),
      ((Tally.empty.add u z w).add u' z' w').count = 2 := by
    intro u u' z z' w w'
    rw [Tally.count_add, Tally.count_add]
    rfl
  have hrun : ∃ r s' j', r.1.count = 2 ∧
      RunWith.exec (single leftOfZero twoSamples (shifted 4) 2 .empty)
        (.fresh (Random.Replay.new [(-1 : ℝ), 1]) false) .empty = (.ok r, s', j') := by
    rw [exec_single_succ hfirst (hz (-1))]
    dsimp only
    rw [hgoes _ _ (Tally.count_add ..)]
    dsimp only
    rw [exec_single_succ hsecond (hz 1)]
    dsimp only
    split
    case h_1 status hstatus =>
      exact ⟨_, _, _, hcount .., rfl⟩
    case h_2 hnone =>
      have hlt := Config.lt_of_judged hnone
      rw [hcount] at hlt
      exact absurd hlt (lt_irrefl 2)
  obtain ⟨⟨t, status⟩, s', j', hcount, hrun⟩ := hrun
  exact ⟨⟨t, status, _⟩, s', j', exec_counted_eq_ok.mpr ⟨hrun, rfl⟩, hcount⟩

/-- A failing sample of weight two and a safe one. -/
theorem statistics_are_importance_estimator_shifted :
    (shifted 4).IsPositive ∧ ∃ o s' j',
      RunWith.exec (sequential leftOfZero twoSamples (shifted 4))
        (.fresh (Random.Replay.new [(-1 : ℝ), 1]) false) .empty = (.ok o, s', j') ∧
        o.tally.pf = 1 ∧ o.tally.variance = 2⁻¹ := by
  obtain ⟨o, s', j', hrun, hcount⟩ := exec_twoSamples
  obtain ⟨source', vs, samples, hstream, hsamples, -, hestimates, -⟩ :=
    statistics_are_importance_estimator isPositive_shifted (.inl hrun)
  have hlength : samples.length = 2 := hestimates.count.symm.trans hcount
  obtain rfl : vs = [[-1], [1]] := by
    have hvs : vs.length = 2 := hsamples.length_eq.trans hlength
    unfold RandomSource.Yields at hstream
    rw [hvs] at hstream
    exact (Prod.mk.inj hstream).1.symm
  obtain ⟨s, rest, hs, hrest, rfl⟩ := List.forall₂_cons_left_iff.mp hsamples
  obtain ⟨t, none, ht, hnone, rfl⟩ := List.forall₂_cons_left_iff.mp hrest
  obtain rfl := List.forall₂_nil_left_iff.mp hnone
  have hfailing : failing [s, t] = [s] := by
    have hneg : s.z < 0 := by rw [hs.of_shifted.2]; norm_num
    have hpos : 0 ≤ t.z := by rw [ht.of_shifted.2]; norm_num
    simp [failing, hneg, hpos]
  have hratio : (shifted 4).ratio s.u = 2 := by
    have hpoint : (1 : ℝ) + 2 * -1 = -1 := by norm_num
    rw [hs.of_shifted.1, hpoint, ratio_shifted]
  have hpf := hestimates.pf
  have hvariance := hestimates.variance
  rw [hfailing, List.map_singleton, hratio] at hpf hvariance
  refine ⟨isPositive_shifted, o, s', j', hrun, ?_, ?_⟩
  · rw [hpf]
    norm_num [meanOver]
  · rw [hvariance]
    norm_num [spreadOver, meanOver]

end FailureProbability.Sampling
