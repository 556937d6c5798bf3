import FailureProbability.Proofs.Correlation.Assembly
import FailureProbability.Proofs.Correlation.Cholesky

/-!
# Correlation maps

A map that is put together from partial correlations and substitutions has the row of the factor for
a variable that is kept, and that of its source up to the sign for one that is substituted
(`followed`). The inner products of its rows, which are the correlations of the variables that it
makes, are therefore the entries of the matrix of partial correlations at the variables that are
followed.

Both maps are put together in the same way, and so all that is assumed of the partial correlations
and the substitutions is what both have in common (`Compatible`): variables that exist, no two pairs
on the same variables, and no partial correlation on a variable that is substituted. `Follows` is
what the theorems on the direct and on the robust map start from. Neither of them looks at the
product or at the factor again.

Arithmetic is exact here. The rows are computed by a sum over all variables, most of which have a
weight of zero, and such a sum has one term only where adding zero changes nothing.
-/

namespace FailureProbability

open Finset

variable [SpecialFunctions]

/-! ## Signs -/

namespace Sign

omit [SpecialFunctions] in
theorem mul_mul_mul_comm (s t r q : Sign) : s * t * (r * q) = s * r * (t * q) := by
  rw [mul_assoc, mul_assoc, ← mul_assoc t, mul_comm t r, mul_assoc r]

theorem apply_apply (s t : Sign) (x : ℝ) : s.apply (t.apply x) = (s * t).apply x := by
  cases s <;> cases t <;> first | rfl | exact neg_neg x

theorem apply_mul_apply (s t : Sign) (x y : ℝ) :
    s.apply x * t.apply y = (s * t).apply (x * y) := by
  cases s <;> cases t
  · rfl
  · exact mul_neg x y
  · exact neg_mul x y
  · exact neg_mul_neg x y

@[simp] theorem apply_zero (s : Sign) : s.apply (0 : ℝ) = 0 := by
  cases s
  · rfl
  · exact neg_zero

theorem apply_eq_zero {s : Sign} {x : ℝ} : s.apply x = 0 ↔ x = 0 := by
  cases s
  · rfl
  · exact neg_eq_zero

theorem toNumber_mul (s : Sign) (x : ℝ) : s.toNumber * x = s.apply x := by
  cases s
  · exact (congrArg (· * x) Scalar.one_eq).trans (one_mul x)
  · exact (congrArg (fun y => -y * x) Scalar.one_eq).trans (neg_one_mul x)

theorem abs_apply (s : Sign) (x : ℝ) : |s.apply x| = |x| := by
  cases s
  · rfl
  · exact abs_neg x

theorem apply_sum (s : Sign) (f : ℕ → ℝ) (n : ℕ) :
    s.apply (∑ k ∈ range n, f k) = ∑ k ∈ range n, s.apply (f k) := by
  cases s
  · rfl
  · exact (sum_neg_distrib ..).symm

end Sign

namespace Correlation

namespace Gaussian

/-! ## Entries -/

theorem entry_self (partials : List (Pair ℝ)) (i : ℕ) : entry partials i i = 1 := by
  simp [entry]

theorem entry_comm (partials : List (Pair ℝ)) (i j : ℕ) :
    entry partials i j = entry partials j i := by
  unfold entry
  simp only [eq_comm (a := i) (b := j), Bool.and_comm]

/-- The first pair that names both variables counts. -/
theorem entry_of_find? {partials : List (Pair ℝ)} {i j : ℕ} {p : Pair ℝ} (hij : i ≠ j)
    (h : partials.find? (fun p => p.names i && p.names j) = some p) :
    entry partials i j = p.rho := by
  rw [entry, if_neg hij, h]

theorem entry_eq_zero {partials : List (Pair ℝ)} {i j : ℕ} (hij : i ≠ j)
    (h : ∀ p ∈ partials, ¬((p.names i && p.names j) = true)) : entry partials i j = 0 := by
  rw [entry, if_neg hij, List.find?_eq_none.mpr h]
  exact Scalar.zero_eq

/-! ## Maps -/

/-- The correlation of two variables of the map. -/
noncomputable def covariance (g : Gaussian ℝ) (v w : ℕ) : ℝ :=
  ∑ k ∈ range g.dimension, g.coefficient v k * g.coefficient w k

/-- A map over `n` variables with the rows of a factor. -/
structure Follows (g : Gaussian ℝ) (n : ℕ) (partials : List (Pair ℝ))
    (rows : List (List ℝ)) : Prop where
  dimension : g.dimension = n
  factor : Cholesky.IsFactor (entry partials) rows
  length : rows.length = n
  coefficient : ∀ v < n, ∀ k, g.coefficient v k =
    (followed g.substitutions v).2.apply
      (Cholesky.coefficient rows (followed g.substitutions v).1 k)

/-- The zeros to the right of the diagonal change no entry. -/
theorem getD_fill (n : ℕ) (rows : List (List ℝ)) (i k : ℕ) :
    ((Cholesky.fill n rows).getD i []).getD k 0 = Cholesky.coefficient rows i k := by
  have hrow : ∀ (row : List ℝ) (m : ℕ), (row ++ List.replicate m 0).getD k 0 = row.getD k 0 := by
    intro row m
    by_cases hk : k < row.length
    · exact List.getD_append _ _ _ _ hk
    · rw [List.getD_append_right _ _ _ _ (by omega), List.getD_eq_default row 0 (by omega)]
      by_cases hm : k - row.length < m <;> simp [hm]
  unfold Cholesky.fill Cholesky.coefficient
  rw [Scalar.zero_eq]
  by_cases hi : i < rows.length
  · rw [List.getD_eq_getElem (rows.map _) [] (by simpa using hi), List.getD_eq_getElem rows [] hi,
      List.getElem_map, hrow]
  · rw [List.getD_eq_default rows [] (by omega),
      List.getD_eq_default (rows.map _) [] (by simpa using hi)]

/-- The rows of a factor of `n` rows are filled up to their full length. -/
theorem length_of_mem_fill {a : ℕ → ℕ → ℝ} {rows : List (List ℝ)} (h : Cholesky.IsFactor a rows) :
    ∀ row ∈ Cholesky.fill rows.length rows, row.length ≤ rows.length := by
  intro row hrow
  obtain ⟨row, hmem, rfl⟩ := List.mem_map.mp hrow
  obtain ⟨i, hi, rfl⟩ := List.mem_iff_getElem.mp hmem
  have hlength := h.length i hi
  rw [List.getD_eq_getElem _ _ hi] at hlength
  rw [List.length_append, List.length_replicate]
  omega

section

variable {n : ℕ} {pairs partials : List (Pair ℝ)} {substitutions : List Substitution}
  (hcompatible : Compatible n partials substitutions)
include hcompatible

/-- A row of the product is the row of the variable that is followed, with its sign: the other rows
have a weight of zero. Nothing is asked of the rows but their number and that none is too long. -/
theorem getD_mulRows_copying {rows : List (List ℝ)} (hrows : rows.length = n)
    (hlength : ∀ row ∈ rows, row.length ≤ n) {v : ℕ} (hv : v < n) (k : ℕ) :
    (((copying n substitutions).mulRows rows).getD v []).getD k 0 =
      (followed substitutions v).2.apply
        ((rows.getD (followed substitutions v).1 []).getD k 0) := by
  have hsource : (followed substitutions v).1 ∈ range n := by
    unfold followed
    cases hfind : substitutions.find? (·.dependent == v) with
    | none => exact mem_range.mpr hv
    | some s => exact mem_range.mpr (hcompatible.inside s (List.mem_of_find?_eq_some hfind)).2
  rw [Table.getD_mulRows _ hrows hlength hv, sum_eq_single_of_mem _ hsource]
  · rw [get_copying hcompatible hv (mem_range.mp hsource), if_pos rfl]
    exact Sign.toNumber_mul ..
  · intro i hi hne
    rw [get_copying hcompatible hv (mem_range.mp hi), if_neg hne, Scalar.zero_eq, zero_mul]

theorem get_reduced_comm (i j : ℕ) :
    (reduced n partials substitutions).get i j = (reduced n partials substitutions).get j i := by
  by_cases hij : i < n ∧ j < n
  · rw [get_reduced hcompatible hij.1 hij.2, get_reduced hcompatible hij.2 hij.1, entry_comm]
  · rw [Table.get_eq_zero _ (by omega), Table.get_eq_zero _ (by omega)]

/-- Cutting off the substituted variables changes no entry, since no pair is left on them. -/
theorem matrix_reduced : Cholesky.matrix (reduced n partials substitutions).get n =
    Cholesky.matrix (entry partials) n := by
  ext v w
  exact get_reduced hcompatible v.isLt w.isLt

/-- A map that was put together follows a factor of the partial correlations. -/
theorem follows_of_assemble {g : Gaussian ℝ}
    (h : assemble n pairs partials substitutions = .ok g) :
    g.substitutions = substitutions ∧ g.pairs = pairs ∧ ∃ rows, g.Follows n partials rows := by
  unfold assemble at h
  cases hfactor : Cholesky.factor? (reduced n partials substitutions).get n with
  | none =>
    rw [hfactor] at h
    cases h
  | some rows =>
    rw [hfactor] at h
    obtain ⟨hlength, hrows⟩ := Cholesky.isFactor_of_factor? hfactor
    cases h
    -- The factor is of the matrix that was cut down; it has the entries of the pairs everywhere.
    subst hlength
    refine ⟨rfl, rfl, rows, ?_, ?_, rfl, ?_⟩
    · simp [dimension]
    · refine ⟨hrows.length, hrows.diagonal, fun i hi j hj => ?_⟩
      rw [hrows.product i hi j hj, get_reduced hcompatible hi (hj.trans_lt hi)]
    · intro v hv k
      have hproduct := getD_mulRows_copying hcompatible (Cholesky.length_fill ..)
        (length_of_mem_fill hrows) hv k
      rw [getD_fill] at hproduct
      simpa only [coefficient, Scalar.zero_eq] using hproduct

/-- Partial correlations make a map if and only if their matrix is positive definite. There is no
tolerance in this: an exact factor exists even of a matrix that is nearly singular. -/
theorem exists_assemble_iff_posDef :
    (∃ g, assemble n pairs partials substitutions = .ok g) ↔
      (Cholesky.matrix (entry partials) n).PosDef := by
  rw [← matrix_reduced hcompatible,
    ← Cholesky.exists_factor?_iff_posDef (get_reduced_comm hcompatible)]
  unfold assemble
  cases Cholesky.factor? (reduced n partials substitutions).get n with
  | none => simp
  | some rows => simp

/-- Nothing else goes wrong: a matrix that is not positive definite is the only reason to refuse. -/
theorem assemble_eq_breakdown_iff :
    assemble n pairs partials substitutions = .error (.breakdown .indefiniteCorrelation) ↔
      ¬(Cholesky.matrix (entry partials) n).PosDef := by
  rw [← matrix_reduced hcompatible,
    ← Cholesky.exists_factor?_iff_posDef (get_reduced_comm hcompatible)]
  unfold assemble
  cases Cholesky.factor? (reduced n partials substitutions).get n with
  | none => simp
  | some rows => simp

end

namespace Follows

variable {g : Gaussian ℝ} {n : ℕ} {partials : List (Pair ℝ)} {rows : List (List ℝ)}
  (h : g.Follows n partials rows)
include h

/-- The correlation of two variables is that of the variables that they follow, up to the sign. -/
theorem covariance_eq {v w : ℕ} (hv : v < n) (hw : w < n)
    (hsource : (followed g.substitutions v).1 < n) (hsource' : (followed g.substitutions w).1 < n) :
    g.covariance v w = ((followed g.substitutions v).2 * (followed g.substitutions w).2).apply
      (entry partials (followed g.substitutions v).1 (followed g.substitutions w).1) := by
  have hproduct := h.factor.sum_product (entry_comm partials) (hsource.trans_eq h.length.symm)
    (hsource'.trans_eq h.length.symm)
  rw [← hproduct, covariance, Sign.apply_sum, h.dimension, h.length]
  refine sum_congr rfl fun k _ => ?_
  rw [h.coefficient v hv, h.coefficient w hw, Sign.apply_mul_apply]

/-- No variable depends on the coordinate of another one that none follows and that has no
correlation with others. -/
theorem coefficient_eq_zero {v d : ℕ} (hv : v < n) (hd : d < n)
    (hpartials : ∀ p ∈ partials, p.names d = false)
    (hfollowed : (followed g.substitutions v).1 ≠ d) : g.coefficient v d = 0 := by
  have hrow : ∀ j, j ≠ d → entry partials d j = 0 := by
    intro j hj
    exact entry_eq_zero (Ne.symm hj) fun p hp => by simp [hpartials p hp]
  rw [h.coefficient v hv, Sign.apply_eq_zero]
  exact h.factor.column_of_diagonal (entry_comm partials) (hd.trans_eq h.length.symm) hrow
    hfollowed

/-- Such a variable depends on its own coordinate alone if it is kept. -/
theorem coefficient_row_eq_zero {d k : ℕ} (hd : d < n)
    (hpartials : ∀ p ∈ partials, p.names d = false)
    (hfollowed : (followed g.substitutions d).1 = d) (hk : k ≠ d) : g.coefficient d k = 0 := by
  have hrow : ∀ j, j ≠ d → entry partials d j = 0 := by
    intro j hj
    exact entry_eq_zero (Ne.symm hj) fun p hp => by simp [hpartials p hp]
  rw [h.coefficient d hd, Sign.apply_eq_zero, hfollowed]
  exact h.factor.row_of_diagonal (entry_comm partials) (hd.trans_eq h.length.symm) hrow hk

end Follows

end Gaussian

end Correlation

end FailureProbability
