import FailureProbability.Proofs.Correlation.Realisation
import FailureProbability.Proofs.Setup

/-!
# Active coordinates

In a setup the coordinates of variables that are not active are zero. No variable depends on the
coordinate of a substituted one. A variable that is fixed or combined has no correlation, so that it
alone depends on its own coordinate. The active coordinates therefore account for all correlations,
but for that of a fixed or combined variable with itself, to which they contribute nothing.

The exception is part of the result and not a gap in it: such a variable has no standard-normal
coordinate, its row in the map is that of the identity, and its value comes from elsewhere. A model
with one of them shows that the sum is not the variance there.

What is supposed of a setup is only that it was accepted, and of the numbers that they are exact.
-/

namespace FailureProbability

open Finset

section

variable [SpecialFunctions]

/-! ## Sums over some coordinates

A point has coordinates for the active variables only, and the map wants one for every variable.
Looking a coordinate up and taking zero where there is none turns the one kind of sum into the
other. -/

omit [SpecialFunctions] in
theorem sum_map_filter_range (p : ℕ → Bool) (f : ℕ → ℝ) (n : ℕ) :
    (((List.range n).filter p).map f).sum = ∑ k ∈ range n, if p k then f k else 0 := by
  induction n with
  | zero => rfl
  | succ n ih =>
    rw [List.range_succ, List.filter_append, List.map_append, List.sum_append, ih, sum_range_succ]
    congr 1
    by_cases hp : p n = true
    · simp [hp]
    · simp [hp]

omit [SpecialFunctions] in
/-- A sum in which the values of some indices are looked up, and those of others are zero. -/
theorem sum_mul_lookup {n : ℕ} (c : ℕ → ℝ) {given : List (ℕ × ℝ)} (hlt : ∀ a ∈ given, a.1 < n)
    (hnodup : (given.map Prod.fst).Nodup) :
    ∑ k ∈ range n, c k * (given.lookup k).getD 0 = (given.map fun a => c a.1 * a.2).sum := by
  induction given with
  | nil => simp
  | cons a given ih =>
    rw [List.map_cons, List.nodup_cons] at hnodup
    have ha : a.1 ∈ range n := mem_range.mpr (hlt a (by simp))
    have hrest := ih (fun b hb => hlt b (by simp [hb])) hnodup.2
    -- The index of the first entry is none of the others.
    have hnone : given.lookup a.1 = none := by
      rw [List.lookup_eq_none_iff]
      intro b hb
      exact bne_iff_ne.mpr fun heq => hnodup.1 (List.mem_map.mpr ⟨b, hb, heq.symm⟩)
    have hlookup : ∀ k, c k * ((a :: given).lookup k).getD 0 =
        (if k = a.1 then c a.1 * a.2 else 0) + c k * (given.lookup k).getD 0 := by
      intro k
      rw [List.lookup_cons]
      by_cases hk : k = a.1
      · simp [hk, hnone]
      · simp [hk, beq_eq_false_iff_ne.mpr hk]
    simp only [hlookup]
    rw [sum_add_distrib, sum_ite_eq' (range n) a.1, if_pos ha, hrest, List.map_cons, List.sum_cons]

namespace Correlation.Gaussian

/-- A variable that no pair names and the others have nothing to do with each other. -/
theorem coefficient_of_unnamed {n : ℕ} {pairs : List (Pair ℝ)} {g : Gaussian ℝ}
    (h : ofPairs n pairs = .ok g) {d : ℕ} (hd : d < n) (hnames : ∀ p ∈ pairs, p.names d = false) :
    (∀ v, v ≠ d → g.coefficient v d = 0) ∧ ∀ k, k ≠ d → g.coefficient d k = 0 := by
  obtain ⟨-, hunchained, hsubstitutions, -, rows, hfollows⟩ := follows_of_ofPairs h
  have hpartials : ∀ p ∈ kept pairs, p.names d = false := fun p hp => hnames p (mem_kept.mp hp).1
  have hsource : ∀ p ∈ pairs, p.i ≠ d := by
    rintro p hp rfl
    simpa [Pair.names] using hnames p hp
  have hself : ¬Substituted pairs d := by
    rintro ⟨p, hp, -, rfl⟩
    simpa [Pair.names] using hnames p hp
  constructor
  · intro v hv
    by_cases hvn : v < n
    · refine hfollows.coefficient_eq_zero hvn hd hpartials ?_
      rw [hsubstitutions]
      by_cases hvsub : Substituted pairs v
      · obtain ⟨p, hp, hfull, rfl⟩ := hvsub
        rw [followed_direct_of_full hunchained hp hfull]
        exact hsource p hp
      · rw [followed_direct_of_not hvsub]
        exact hv
    · exact coefficient_of_le (by rw [hfollows.dimension]; omega) d
  · intro k hk
    refine hfollows.coefficient_row_eq_zero hd hpartials ?_ hk
    rw [hsubstitutions, followed_direct_of_not hself]

end Correlation.Gaussian

namespace Setup

variable {marginals : List (Marginal ℝ)} {g : Correlation.Gaussian ℝ} {s : Setup ℝ}
  (hs : new marginals (.gaussian g) = .ok s)
include hs

/-! ## Coordinates -/

/-- The correlated coordinates of a point are sums over the active coordinates alone. -/
theorem correlatedU_eq {u : List ℝ} (hu : u.length = s.dimension) :
    s.correlatedU u = (List.range g.dimension).map fun v =>
      ((s.active.zip u).map fun a => g.coefficient v a.1 * a.2).sum := by
  obtain ⟨hsize, -, -, -, rfl⟩ := new_eq_ok_iff.mp hs
  have hsize : g.dimension = marginals.length := hsize
  let active := (List.range marginals.length).filter (isActive marginals (.gaussian g))
  have hgiven : (active.zip u).map Prod.fst = active := List.map_fst_zip hu.ge
  have hlt : ∀ a ∈ active.zip u, a.1 < g.dimension := by
    intro a ha
    have hmem := List.mem_filter.mp (hgiven ▸ List.mem_map_of_mem ha : a.1 ∈ active)
    rw [hsize]
    exact List.mem_range.mp hmem.1
  have hnodup : ((active.zip u).map Prod.fst).Nodup := by
    rw [hgiven]
    exact List.nodup_range.filter _
  -- A row times the coordinates with zeros for all that is not active.
  refine List.ext_getElem (by simp [correlatedU, Correlation.correlate, Correlation.map?,
    Correlation.Gaussian.correlate, Correlation.Gaussian.dimension]) fun v hv hv' => ?_
  have hv : v < g.rows.length := by simpa [Correlation.Gaussian.dimension] using hv'
  rw [List.getElem_map, List.getElem_range, ← sum_mul_lookup _ hlt hnodup]
  have hrow : (correlatedU ⟨marginals, .gaussian g, active⟩ u)[v] =
      Coordinates.dot g.rows[v] (spread ⟨marginals, .gaussian g, active⟩ u) := by
    simp [correlatedU, Correlation.correlate, Correlation.map?, Correlation.Gaussian.correlate]
  have hspread : (spread ⟨marginals, .gaussian g, active⟩ u).length ≤ g.dimension := by
    simp [spread, hsize]
  refine hrow.trans ((Coordinates.dot_eq_sum_range _ hspread).trans ?_)
  refine sum_congr rfl fun k hk => ?_
  have hk' : k < marginals.length := hsize ▸ mem_range.mp hk
  have hcoefficient : g.coefficient v k = g.rows[v].getD k 0 := by
    rw [Correlation.Gaussian.coefficient, List.getD_eq_getElem _ _ hv, Scalar.zero_eq]
  have hvalue : (spread ⟨marginals, .gaussian g, active⟩ u).getD k 0 =
      ((active.zip u).lookup k).getD 0 := by
    rw [List.getD_eq_getElem _ _ (by simpa [spread] using hk')]
    simp [spread]
  rw [hcoefficient, hvalue]

/-! ## Products

The sum over the active coordinates and that over all of them differ by the terms of the other
coordinates. Such a coordinate is that of a dependent variable, whose column is zero, or it belongs
to a variable that no pair names, on which only this variable itself depends. -/

theorem sum_active (f : ℕ → ℝ) :
    (s.active.map f).sum =
      ∑ k ∈ range g.dimension, if isActive marginals (.gaussian g) k then f k else 0 := by
  obtain ⟨hsize, -, -, -, rfl⟩ := new_eq_ok_iff.mp hs
  have hsize : g.dimension = marginals.length := hsize
  rw [hsize]
  exact sum_map_filter_range _ f marginals.length

variable {n : ℕ} {pairs : List (Correlation.Pair ℝ)}
  (h : Correlation.Gaussian.ofPairs n pairs = .ok g)
include h

/-- A variable that is not stochastic is named by no pair. -/
theorem names_of_not_stochastic {v : ℕ} (hv : v < n)
    (hfixed : marginals[v]?.any Marginal.isStochastic = false) :
    ∀ p ∈ pairs, p.names v = false := by
  obtain ⟨-, -, -, hpairs, rows, hfollows⟩ := Correlation.Gaussian.follows_of_ofPairs h
  obtain ⟨hsize, -⟩ := new_eq_ok_iff.mp hs
  have hsize : g.dimension = marginals.length := hsize
  have hlt : v < marginals.length := by
    rw [← hsize, hfollows.dimension]
    exact hv
  have hget : marginals[v]? = some marginals[v] := List.getElem?_eq_getElem hlt
  have hcorrelated := isCorrelated_of_new hs hget (by simpa [hget] using hfixed)
  have hany : (g.pairs.any (·.names v)) = false := hcorrelated
  intro p hp
  rw [hpairs] at hany
  simpa using List.any_eq_false.mp hany p hp

/-- The active coordinates make the correlations of two variables, and that of a stochastic variable
with itself. -/
theorem sum_active_eq_covariance {v w : ℕ}
    (hvw : v ≠ w ∨ marginals[v]?.any Marginal.isStochastic = true) :
    (s.active.map fun k => g.coefficient v k * g.coefficient w k).sum = g.covariance v w := by
  obtain ⟨-, -, -, -, rows, hfollows⟩ := Correlation.Gaussian.follows_of_ofPairs h
  have hrealises := Correlation.Gaussian.realises_of_ofPairs h
  rw [sum_active hs]
  refine sum_congr rfl fun k hk => ?_
  by_cases hactive : isActive marginals (.gaussian g) k = true
  · rw [if_pos hactive]
  · rw [if_neg hactive]
    by_cases hsub : g.isFullyCorrelated k = true
    · -- The column of a dependent variable is zero.
      rw [hrealises.column k ((hrealises.substituted k).mp hsub) v, zero_mul]
    · -- A variable that is not stochastic is on its own.
      have hfixed : marginals[k]?.any Marginal.isStochastic = false := by
        unfold isActive at hactive
        have hsub' : (Correlation.gaussian g).isFullyCorrelated k = false :=
          Bool.eq_false_iff.mpr hsub
        rw [hsub', Bool.not_false, Bool.and_true] at hactive
        simpa using hactive
      have hkn : k < n := hfollows.dimension ▸ mem_range.mp hk
      obtain ⟨hcolumn, -⟩ := Correlation.Gaussian.coefficient_of_unnamed h hkn
        (names_of_not_stochastic hs h hkn hfixed)
      by_cases hv : v = k
      · have hw : w ≠ k := by
          rintro rfl
          rcases hvw with hne | hstochastic
          · exact hne hv
          · rw [hv, hfixed] at hstochastic
            cases hstochastic
        rw [hcolumn w hw, mul_zero]
      · rw [hcolumn v hv, zero_mul]

/-- They contribute nothing to a variable that is fixed or combined. -/
theorem sum_active_of_not_stochastic {v : ℕ} (hv : v < n)
    (hfixed : marginals[v]?.any Marginal.isStochastic = false) :
    (s.active.map fun k => g.coefficient v k * g.coefficient v k).sum = 0 := by
  obtain ⟨-, hrow⟩ := Correlation.Gaussian.coefficient_of_unnamed h hv
    (names_of_not_stochastic hs h hv hfixed)
  rw [sum_active hs]
  refine sum_eq_zero fun k _ => ?_
  by_cases hactive : isActive marginals (.gaussian g) k = true
  · have hk : k ≠ v := by
      rintro rfl
      simp [isActive, hfixed] at hactive
    rw [if_pos hactive, hrow k hk, zero_mul]
  · rw [if_neg hactive]

end Setup

/-! ## The direct map -/

namespace Correlation.Gaussian

/-- A list of full pairs leaves no correlations. -/
theorem isReduced_one {n : ℕ} {pairs : List (Pair ℝ)} (h : ∀ p ∈ pairs, p.isFull = true) :
    IsReduced pairs (1 : Matrix (Fin n) (Fin n) ℝ) := by
  constructor
  · exact fun v => Matrix.one_apply_eq v
  · intro v w _ _ _ p hp hpartial
    rw [h p hp] at hpartial
    cases hpartial
  · exact fun v w hvw _ => Matrix.one_apply_ne hvw

/-- The direct map realises the correlations that are asked for. In every setup the correlated
coordinates are sums over the active ones, which give the same correlations, but for the variance of
a variable that is fixed or combined, to which they contribute nothing. A list that is in order and
has no chain is refused if and only if its reduced matrix is not positive definite. -/
theorem direct_map_realises_correlations {n : ℕ} {pairs : List (Pair ℝ)} :
    (∀ g, ofPairs n pairs = .ok g →
      g.Realises n pairs ∧
      ∀ marginals s, Setup.new marginals (.gaussian g) = .ok s →
        (∀ u, u.length = s.dimension → s.correlatedU u = (List.range n).map fun v =>
          ((s.active.zip u).map fun a => g.coefficient v a.1 * a.2).sum) ∧
        (∀ v w, v < n → w < n → v ≠ w ∨ marginals[v]?.any Marginal.isStochastic = true →
          (s.active.map fun k => g.coefficient v k * g.coefficient w k).sum = g.covariance v w) ∧
        (∀ v < n, marginals[v]?.any Marginal.isStochastic = false →
          (s.active.map fun k => g.coefficient v k * g.coefficient v k).sum = 0)) ∧
    (Pair.checkAll n [] pairs = .ok () →
      (∀ d, ofPairs n pairs ≠ .error (.invalid (.fullChain d))) →
      ∀ R : Matrix (Fin n) (Fin n) ℝ, IsReduced pairs R →
        (ofPairs n pairs = .error (.breakdown .indefiniteCorrelation) ↔ ¬R.PosDef)) := by
  constructor
  · intro g h
    refine ⟨realises_of_ofPairs h, fun marginals s hs => ⟨fun u hu => ?_, ?_, ?_⟩⟩
    · obtain ⟨-, -, -, -, rows, hfollows⟩ := follows_of_ofPairs h
      rw [Setup.correlatedU_eq hs hu, hfollows.dimension]
    · exact fun v w _ _ hvw => Setup.sum_active_eq_covariance hs h hvw
    · exact fun v hv hfixed => Setup.sum_active_of_not_stochastic hs h hv hfixed
  · exact fun hcheck hchain R hR => ofPairs_eq_breakdown_iff hcheck hchain hR

end Correlation.Gaussian

end

namespace Correlation.Gaussian

/-- The variance of the second variable, which is fixed, is one, but the active coordinates
contribute nothing to it. -/
theorem direct_map_misses_fixed_variable : ∃ (g : Gaussian ℝ) (s : Setup ℝ),
    ofPairs 2 [] = .ok g ∧
      Setup.new [.standardNormal, .deterministic 2] (.gaussian g) = .ok s ∧
      (s.active.map fun k => g.coefficient 1 k * g.coefficient 1 k).sum ≠ g.covariance 1 1 := by
  have hcheck : Pair.checkAll 2 [] ([] : List (Pair ℝ)) = .ok () := rfl
  have hunchained : Unchained ([] : List (Pair ℝ)) := unchained_of_partials (by simp)
  obtain ⟨g, hg⟩ := (exists_ofPairs_iff hcheck (ne_fullChain_of_unchained hcheck hunchained)
    (isReduced_one (by simp))).mpr .one
  obtain ⟨-, -, hsubstitutions, hpairs, rows, hfollows⟩ := follows_of_ofPairs hg
  have hfree : ∀ i, (Correlation.gaussian g).isCorrelated i = false := by
    intro i
    have hany : (Correlation.gaussian g).isCorrelated i = g.pairs.any (·.names i) := rfl
    rw [hany, hpairs]
    rfl
  have hself : (Correlation.gaussian g).isFullyCorrelated 0 = false := by
    have hany : (Correlation.gaussian g).isFullyCorrelated 0 =
      g.substitutions.any (·.dependent == 0) := rfl
    rw [hany, hsubstitutions]
    rfl
  have hexist : Setup.OperandsExist [Marginal.standardNormal, .deterministic (2 : ℝ)] :=
    Setup.operandsExist_of_forall_none (by simp [Marginal.operands, Marginal.standardNormal])
  have hactive : Setup.isActive [.standardNormal, .deterministic 2] (.gaussian g) 0 = true := by
    unfold Setup.isActive
    rw [hself]
    rfl
  have hsize : (Correlation.gaussian g).dimension =
      [Marginal.standardNormal, .deterministic (2 : ℝ)].length := hfollows.dimension
  obtain ⟨s, hs⟩ := Setup.exists_new hsize hexist (fun i _ _ _ => hfree i) rfl (by decide) hactive
  refine ⟨g, s, hg, hs, ?_⟩
  rw [Setup.sum_active_of_not_stochastic hs hg (by decide) rfl,
    (realises_of_ofPairs hg).variance 1 (by decide)]
  exact zero_ne_one

/-- The second variable is the negative of the first. -/
def opposite : List (Pair ℝ) := [⟨0, 1, -1⟩]

theorem isFull_opposite : ∀ p ∈ opposite, p.isFull = true := by
  intro p hp
  obtain rfl : p = ⟨0, 1, -1⟩ := by simpa [opposite] using hp
  exact Pair.isFull_of_abs_eq_one (by simp)

theorem unchained_opposite : Unchained opposite := by
  have hone : ∀ p ∈ opposite, p = ⟨0, 1, -1⟩ := fun p hp => by simpa [opposite] using hp
  constructor
  · rintro p hp - ⟨q, hq, -, hqp⟩
    rw [hone p hp, hone q hq] at hqp
    cases hqp
  · intro p hp _ q hq _ _
    rw [hone p hp, hone q hq]

theorem checkAll_opposite : Pair.checkAll 2 [] opposite = .ok () := by
  refine Pair.checkAll_of_valid ⟨?_, ?_, ?_⟩ ?_ <;> simp [opposite]

/-- Three variables, of which any two are nearly opposite, which cannot be. -/
noncomputable def contrary : List (Pair ℝ) :=
  [⟨0, 1, -(3 * 4⁻¹)⟩, ⟨0, 2, -(3 * 4⁻¹)⟩, ⟨1, 2, -(3 * 4⁻¹)⟩]

theorem rho_contrary : ∀ p ∈ contrary, p.rho = -(3 * 4⁻¹) := by
  simp [contrary]

theorem isFull_contrary : ∀ p ∈ contrary, p.isFull = false := by
  intro p hp
  rw [Pair.isFull_eq_false_iff, rho_contrary p hp]
  norm_num [abs_of_nonneg]

theorem checkAll_contrary : Pair.checkAll 3 [] contrary = .ok () := by
  refine Pair.checkAll_of_valid ⟨?_, ?_, ?_⟩ fun p hp => ?_
  · simp [contrary]
  · simp [contrary]
  · simp [contrary, Pair.key]
  · rw [rho_contrary p hp]
    norm_num [abs_of_nonneg]

/-- The matrix of the three coefficients. -/
noncomputable def contraryMatrix : Matrix (Fin 3) (Fin 3) ℝ :=
  Matrix.of fun v w => if v = w then 1 else -(3 * 4⁻¹)

/-- It is the matrix that the list asks for. -/
theorem isReduced_contrary : IsReduced contrary contraryMatrix := by
  have hfree : ∀ v, ¬Substituted contrary v := by
    rintro v ⟨p, hp, hfull, -⟩
    rw [isFull_contrary p hp] at hfull
    cases hfull
  constructor
  · intro v
    simp [contraryMatrix]
  · intro v w hvw _ _ p hp _ _
    rw [rho_contrary p hp]
    simp [contraryMatrix, hvw]
  · intro v w hvw hnone
    -- Any two of the variables are named by a pair.
    obtain ⟨p, hp, hnames⟩ : ∃ p ∈ contrary, (p.names v && p.names w) = true := by
      fin_cases v <;> fin_cases w <;> simp [contrary, Pair.names] at hvw ⊢
    rcases hnone p hp (isFull_contrary p hp) hnames with hsub | hsub
    · exact absurd hsub (hfree _)
    · exact absurd hsub (hfree _)

theorem not_posDef_contrary : ¬contraryMatrix.PosDef := by
  intro h
  have hpos := h.dotProduct_mulVec_pos (x := fun _ => 1) fun hzero =>
    one_ne_zero (congrFun hzero 0)
  simp +decide only [contraryMatrix, Matrix.mulVec, dotProduct, Fin.sum_univ_three,
    Matrix.of_apply, if_true, if_false, star_trivial, one_mul, mul_one] at hpos
  norm_num at hpos

/-- An accepted list with a setup over it, and one that is refused. -/
theorem direct_map_realises_correlations_opposite : ∃ (g : Gaussian ℝ) (s : Setup ℝ),
    ofPairs 2 opposite = .ok g ∧
      Setup.new [.standardNormal, .standardNormal] (.gaussian g) = .ok s ∧
      g.Realises 2 opposite ∧
      (s.active.map fun k => g.coefficient 0 k * g.coefficient 1 k).sum = g.covariance 0 1 ∧
      ofPairs 3 contrary = .error (.breakdown .indefiniteCorrelation) := by
  -- The list has no partial pair, so that its reduced matrix is the identity.
  obtain ⟨g, hg⟩ := (exists_ofPairs_iff checkAll_opposite
    (ne_fullChain_of_unchained checkAll_opposite unchained_opposite)
    (isReduced_one isFull_opposite)).mpr .one
  have hexist : Setup.OperandsExist [(.standardNormal : Marginal ℝ), .standardNormal] :=
    Setup.operandsExist_of_forall_none (by simp [Marginal.operands, Marginal.standardNormal])
  have hstochastic : ∀ (i : ℕ) m, [(.standardNormal : Marginal ℝ), .standardNormal][i]? = some m →
      m.isStochastic = false → (Correlation.gaussian g).isCorrelated i = false := by
    intro i m hm hfixed
    have hnormal : m = .standardNormal := by simpa using List.mem_of_getElem? hm
    rw [hnormal] at hfixed
    cases hfixed
  obtain ⟨-, -, hsubstitutions, -, rows, hfollows⟩ := follows_of_ofPairs hg
  have hrealises := realises_of_ofPairs hg
  -- The first variable is none that copies another one, so that the setup has an active variable.
  have hself : (Correlation.gaussian g).isFullyCorrelated 0 = false := by
    refine Bool.eq_false_iff.mpr fun hfull => ?_
    obtain ⟨p, hp, -, hp0⟩ := (hrealises.substituted 0).mp hfull
    obtain rfl : p = ⟨0, 1, -1⟩ := by simpa [opposite] using hp
    cases hp0
  have hactive : Setup.isActive [.standardNormal, .standardNormal] (.gaussian g) 0 = true := by
    unfold Setup.isActive
    rw [hself]
    rfl
  have hsize : (Correlation.gaussian g).dimension =
      [(.standardNormal : Marginal ℝ), .standardNormal].length := hfollows.dimension
  obtain ⟨s, hs⟩ := Setup.exists_new hsize hexist hstochastic rfl (by decide) hactive
  obtain ⟨hrealised, hsetups⟩ := direct_map_realises_correlations.1 g hg
  obtain ⟨-, hproducts, -⟩ := hsetups _ s hs
  refine ⟨g, s, hg, hs, hrealised, hproducts 0 1 (by decide) (by decide) (.inl (by decide)), ?_⟩
  exact (direct_map_realises_correlations.2 checkAll_contrary
    (ne_fullChain_of_unchained checkAll_contrary (unchained_of_partials isFull_contrary)) _
    isReduced_contrary).mpr not_posDef_contrary

end Correlation.Gaussian

end FailureProbability
