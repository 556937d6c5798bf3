import FailureProbability.Correlation.Cholesky
import FailureProbability.Proofs.Coordinates
import Mathlib.Algebra.Order.Star.Real
import Mathlib.LinearAlgebra.Matrix.Block
import Mathlib.LinearAlgebra.Matrix.PosDef

/-!
# The exact Cholesky factor

On exact numbers the rows that are found form a lower triangular matrix with a diagonal above zero,
whose product with its transpose is the given matrix (`IsFactor`). They are found if and only if the
matrix is positive definite: the pivot of a row is a value of the quadratic form of the matrix.

The rows stay lists and the entries a function of two indices. Matrices of Mathlib come in where
positive definiteness does, by way of `matrix` and `lower`; that the entries are symmetric is
supposed there and nowhere before.

One direction needs no more than the product: a factor makes its matrix positive definite. The other
goes row by row. When all rows above are a factor, the next pivot is what the quadratic form gives
at one point, and so it is above zero (`IsFactor.pivot_pos`).
-/

namespace FailureProbability

open Finset Matrix

variable [SpecialFunctions]

/-! ## Rows

A row is found from left to right by forward substitution in the rows above, and ends with its
pivot. No matrix is needed to say what its entries solve, and no symmetry: only the lower half of
the entries is ever read. -/

namespace Cholesky

open Coordinates

/-- What is left of an entry after the columns before it. -/
theorem remainder_eq (value : ℝ) (row found : List ℝ) :
    remainder value row found = value - dot row found := by
  induction row generalizing value found with
  | nil => simp [remainder, dot_nil_left]
  | cons x row ih =>
    cases found with
    | nil => simp [remainder, dot_nil_right]
    | cons y found =>
      have hstep : remainder value (x :: row) (y :: found) =
          remainder (value + -x * y) row found := rfl
      rw [hstep, ih, dot_cons]
      ring

omit [SpecialFunctions] in
/-- A row that ends in a column. -/
theorem exists_eq_append {row : List ℝ} {n : ℕ} (h : row.length = n + 1) :
    ∃ init last, row = init ++ [last] ∧ init.length = n ∧ row.getD n 0 = last := by
  have hne : row ≠ [] := List.ne_nil_of_length_eq_add_one h
  obtain ⟨init, last, rfl⟩ := (List.eq_nil_or_concat' row).resolve_left hne
  have hinit : init.length = n := by simpa using h
  refine ⟨init, last, rfl, hinit, ?_⟩
  rw [List.getD_append_right _ _ _ _ hinit.le, hinit]
  simp

/-- Forward substitution: the entries that are found solve the equations of the rows above. -/
theorem exists_entries (value : ℕ → ℝ) (rest : List (List ℝ)) (found : List ℝ)
    (hlength : ∀ i (h : i < rest.length), rest[i].length = found.length + i + 1)
    (hdiagonal : ∀ i (h : i < rest.length), rest[i].getD (found.length + i) 0 ≠ 0) :
    ∃ more, entries value rest found = found ++ more ∧ more.length = rest.length ∧
      ∀ i (h : i < rest.length), dot rest[i] (found ++ more) = value (found.length + i) := by
  induction rest generalizing found with
  | nil => exact ⟨[], by simp [entries], rfl, fun i h => absurd h (by simp)⟩
  | cons row rest ih =>
    obtain ⟨init, last, rfl, hinit, hlast⟩ := exists_eq_append (hlength 0 (by simp))
    have hne : last ≠ 0 := hlast ▸ hdiagonal 0 (by simp)
    -- The first equation has one unknown left, and its solution goes into all others.
    let x := (value found.length - dot init found) / last
    have hx : entries value ((init ++ [last]) :: rest) found =
        entries value rest (found ++ [x]) := by
      have hdot : dot (init ++ [last]) found = dot init found := dot_append_left hinit.ge _
      rw [entries, remainder_eq, hdot, List.getLastD_concat]
    have hshift : ∀ i, (found ++ [x]).length + i = found.length + (i + 1) := fun i => by
      simp only [List.length_append, List.length_singleton]
      omega
    obtain ⟨more, hmore, hcount, hsolves⟩ := ih (found ++ [x])
      (fun i h => by
        rw [hshift]
        exact hlength (i + 1) (by simpa using h))
      (fun i h => by
        rw [hshift]
        exact hdiagonal (i + 1) (by simpa using h))
    refine ⟨x :: more, by rw [hx, hmore]; simp, by simp [hcount], ?_⟩
    intro i h
    cases i with
    | zero =>
      have hhead : dot (init ++ [last]) (found ++ x :: more) = value found.length := by
        rw [dot_append hinit, dot_cons, dot_nil_left]
        simp only [x]
        field_simp
        ring
      exact hhead
    | succ i =>
      have htail := hsolves i (by simpa using h)
      rw [hshift, List.append_assoc] at htail
      exact htail

/-! ## Factors -/

/-- The entry of a list of rows, zero beyond the end of its row. -/
noncomputable def coefficient (rows : List (List ℝ)) (i j : ℕ) : ℝ := (rows.getD i []).getD j 0

/-- The rows end at a diagonal above zero, and their inner products are the entries of the lower
half of a matrix. -/
structure IsFactor (a : ℕ → ℕ → ℝ) (rows : List (List ℝ)) : Prop where
  length : ∀ i < rows.length, (rows.getD i []).length = i + 1
  diagonal : ∀ i < rows.length, 0 < coefficient rows i i
  product : ∀ i < rows.length, ∀ j ≤ i, dot (rows.getD i []) (rows.getD j []) = a i j

/-- The entries to the left of a new diagonal entry. -/
theorem IsFactor.exists_left {a : ℕ → ℕ → ℝ} {rows : List (List ℝ)} (h : IsFactor a rows)
    (value : ℕ → ℝ) :
    ∃ left, entries value rows [] = left ∧ left.length = rows.length ∧
      ∀ i < rows.length, dot (rows.getD i []) left = value i := by
  have hget : ∀ i (hi : i < rows.length), rows[i] = rows.getD i [] := fun i hi =>
    (List.getD_eq_getElem _ _ hi).symm
  obtain ⟨left, hleft, hcount, hsolves⟩ := exists_entries value rows []
    (fun i hi => by
      rw [hget, h.length i hi]
      simp)
    (fun i hi => by
      rw [hget, List.length_nil, Nat.zero_add]
      exact (h.diagonal i hi).ne')
  refine ⟨left, hleft, hcount, fun i hi => ?_⟩
  rw [← hget i hi]
  simpa using hsolves i hi

/-- A factor grows by a row whose pivot is above zero. -/
theorem IsFactor.snoc {a : ℕ → ℕ → ℝ} {rows : List (List ℝ)} (h : IsFactor a rows)
    {left : List ℝ} (hlength : left.length = rows.length)
    (hsolves : ∀ i < rows.length, dot (rows.getD i []) left = a rows.length i)
    (hpivot : 0 < a rows.length rows.length - dot left left) :
    IsFactor a
      (rows ++ [left ++ [Real.sqrt (a rows.length rows.length - dot left left)]]) := by
  generalize hd : Real.sqrt (a rows.length rows.length - dot left left) = d
  have hpos : 0 < d := hd ▸ Real.sqrt_pos.mpr hpivot
  have hsquare : d * d = a rows.length rows.length - dot left left := by
    rw [← hd, Real.mul_self_sqrt hpivot.le]
  have hnew : (rows ++ [left ++ [d]]).getD rows.length [] = left ++ [d] := by
    rw [List.getD_append_right _ _ _ _ le_rfl]
    simp
  have hold : ∀ i < rows.length, (rows ++ [left ++ [d]]).getD i [] = rows.getD i [] := fun i hi =>
    List.getD_append _ _ _ _ hi
  have hcases : ∀ i < (rows ++ [left ++ [d]]).length, i < rows.length ∨ i = rows.length := by
    intro i hi
    rw [List.length_append, List.length_singleton] at hi
    omega
  -- Each condition is one of an old row or of the new one.
  constructor
  · intro i hi
    rcases hcases i hi with hi | rfl
    · rw [hold i hi, h.length i hi]
    · rw [hnew, List.length_append, List.length_singleton, hlength]
  · intro i hi
    rcases hcases i hi with hi | rfl
    · rw [coefficient, hold i hi]
      exact h.diagonal i hi
    · rw [coefficient, hnew, List.getD_append_right _ _ _ _ hlength.le, hlength]
      simpa using hpos
  · intro i hi j hj
    rcases hcases i hi with hi | rfl
    · rw [hold i hi, hold j (by omega)]
      exact h.product i hi j hj
    · rw [hnew]
      rcases hj.lt_or_eq with hj | rfl
      · have hrow := h.length j hj
        rw [hold j hj, dot_append_left (by omega), dot_comm]
        exact hsolves j hj
      · rw [hnew, dot_append rfl, dot_cons, dot_nil_left, hsquare]
        ring

/-- The rows that are found are a factor. -/
theorem isFactor_of_factor? {a : ℕ → ℕ → ℝ} {n : ℕ} {rows : List (List ℝ)}
    (h : factor? a n = some rows) : rows.length = n ∧ IsFactor a rows := by
  induction n generalizing rows with
  | zero =>
    cases h
    exact ⟨rfl, by simp, by simp, by simp⟩
  | succ n ih =>
    obtain ⟨above, habove, h⟩ := Option.bind_eq_some_iff.mp h
    obtain ⟨row, hrow, h⟩ := Option.bind_eq_some_iff.mp h
    cases h
    obtain ⟨rfl, hfactor⟩ := ih habove
    obtain ⟨left, hleft, hlength, hsolves⟩ := hfactor.exists_left (a above.length)
    unfold nextRow? at hrow
    dsimp only at hrow
    rw [hleft, remainder_eq] at hrow
    by_cases hpivot : 0 < a above.length above.length - dot left left
    · rw [if_pos (by simpa using hpivot)] at hrow
      cases hrow
      exact ⟨by simp, hfactor.snoc hlength hsolves hpivot⟩
    · rw [if_neg (by simpa using hpivot)] at hrow
      cases hrow

/-! ## Matrices

That a matrix with a factor is positive definite is read off the product. For the converse the
least value of the quadratic form is wanted where the last coordinate is one: it is taken at the
solution for the rows above, which exists because these have a factor, and it is the next pivot. -/

/-- The matrix with given entries. -/
def matrix (a : ℕ → ℕ → ℝ) (n : ℕ) : Matrix (Fin n) (Fin n) ℝ := Matrix.of fun i j => a i j

/-- The rows as a lower triangular matrix. -/
noncomputable def lower (rows : List (List ℝ)) : Matrix (Fin rows.length) (Fin rows.length) ℝ :=
  matrix (coefficient rows) rows.length

namespace IsFactor

variable {a : ℕ → ℕ → ℝ} {rows : List (List ℝ)} (h : IsFactor a rows)
include h

/-- There is nothing above the diagonal. -/
theorem coefficient_eq_zero {i j : ℕ} (hij : i < j) : coefficient rows i j = 0 := by
  have hshort : (rows.getD i []).length ≤ j := by
    by_cases hi : i < rows.length
    · rw [h.length i hi]
      omega
    · rw [List.getD_eq_default _ _ (by omega)]
      exact Nat.zero_le j
  exact List.getD_eq_default _ _ hshort

/-- The products of rows are the entries of a symmetric matrix. -/
theorem sum_product (hsymm : ∀ i j, a i j = a j i) {i j : ℕ} (hi : i < rows.length)
    (hj : j < rows.length) :
    ∑ k ∈ range rows.length, coefficient rows i k * coefficient rows j k = a i j := by
  wlog hij : j ≤ i generalizing i j
  · rw [hsymm, ← this hj hi (by omega)]
    exact sum_congr rfl fun k _ => mul_comm ..
  · rw [← h.product i hi j hij]
    refine (dot_eq_sum_range _ ?_).symm
    rw [h.length j hj]
    omega

/-- A row of the matrix that is zero off the diagonal is one of the factor. -/
theorem row_of_diagonal (hsymm : ∀ i j, a i j = a j i) {d : ℕ} (hd : d < rows.length)
    (hrow : ∀ j, j ≠ d → a d j = 0) {k : ℕ} (hk : k ≠ d) : coefficient rows d k = 0 := by
  induction k using Nat.strong_induction_on with
  | _ k ih =>
    rcases Nat.lt_or_gt_of_ne hk with hlt | hgt
    · have hproduct := h.sum_product hsymm hd (hlt.trans hd)
      have hrest : ∀ l ∈ range rows.length, l ≠ k →
          coefficient rows d l * coefficient rows k l = 0 := by
        intro l _ hl
        rcases Nat.lt_or_gt_of_ne hl with hl | hl
        · rw [ih l hl (by omega), zero_mul]
        · rw [h.coefficient_eq_zero hl, mul_zero]
      rw [hrow k hk, sum_eq_single_of_mem k (mem_range.mpr (hlt.trans hd)) hrest] at hproduct
      exact (mul_eq_zero.mp hproduct).resolve_right (h.diagonal k (hlt.trans hd)).ne'
    · exact h.coefficient_eq_zero hgt

/-- So is the column. -/
theorem column_of_diagonal (hsymm : ∀ i j, a i j = a j i) {d : ℕ} (hd : d < rows.length)
    (hrow : ∀ j, j ≠ d → a d j = 0) {i : ℕ} (hi : i ≠ d) : coefficient rows i d = 0 := by
  by_cases hlt : i < rows.length
  · have hproduct := h.sum_product hsymm hlt hd
    have hrest : ∀ l ∈ range rows.length, l ≠ d →
        coefficient rows i l * coefficient rows d l = 0 := by
      intro l _ hl
      rw [h.row_of_diagonal hsymm hd hrow hl, mul_zero]
    rw [hsymm, hrow i hi, sum_eq_single_of_mem d (mem_range.mpr hd) hrest] at hproduct
    exact (mul_eq_zero.mp hproduct).resolve_right (h.diagonal d hd).ne'
  · have hnone : rows.getD i [] = [] := List.getD_eq_default _ _ (by omega)
    rw [coefficient, hnone]
    rfl

theorem lower_mul_transpose (hsymm : ∀ i j, a i j = a j i) :
    lower rows * (lower rows)ᵀ = matrix a rows.length := by
  ext i j
  have hsum := h.sum_product hsymm i.isLt j.isLt
  rw [sum_range] at hsum
  exact hsum

theorem isUnit_lower : IsUnit (lower rows) := by
  have hdet : (lower rows).det = ∏ i, lower rows i i := by
    refine det_of_isLowerTriangular _ fun i j hij => ?_
    exact h.coefficient_eq_zero hij
  rw [isUnit_iff_isUnit_det, hdet, isUnit_iff_ne_zero]
  exact prod_ne_zero_iff.mpr fun i _ => (h.diagonal i i.isLt).ne'

theorem posDef (hsymm : ∀ i j, a i j = a j i) : (matrix a rows.length).PosDef := by
  rw [← h.lower_mul_transpose hsymm]
  have hinjective : Function.Injective (lower rows).vecMul :=
    vecMul_injective_of_isUnit h.isUnit_lower
  simpa using PosDef.mul_conjTranspose_self (lower rows) hinjective

end IsFactor

omit [SpecialFunctions] in
/-- The quadratic form of a symmetric matrix at a point with one more coordinate, which is one. -/
theorem dotProduct_snoc {a : ℕ → ℕ → ℝ} (hsymm : ∀ i j, a i j = a j i) {n : ℕ} (y : Fin n → ℝ) :
    (Fin.snoc y 1 : Fin (n + 1) → ℝ) ⬝ᵥ (matrix a (n + 1) *ᵥ (Fin.snoc y 1 : Fin (n + 1) → ℝ)) =
      y ⬝ᵥ (matrix a n *ᵥ y) + 2 * (y ⬝ᵥ fun i => a n i) + a n n := by
  have hrow : ∀ i : Fin (n + 1), (matrix a (n + 1) *ᵥ (Fin.snoc y 1 : Fin (n + 1) → ℝ)) i =
      (∑ j : Fin n, a i j * y j) + a i n := by
    intro i
    rw [mulVec, dotProduct, Fin.sum_univ_castSucc]
    simp [matrix]
  have hcross : ∑ j : Fin n, a n j * y j = y ⬝ᵥ fun i => a n i :=
    sum_congr rfl fun j _ => mul_comm ..
  rw [dotProduct, Fin.sum_univ_castSucc]
  simp only [hrow, Fin.snoc_castSucc, Fin.snoc_last, Fin.val_castSucc, Fin.val_last, one_mul,
    mul_add, sum_add_distrib, hcross]
  have hform : ∑ i : Fin n, y i * ∑ j : Fin n, a i j * y j = y ⬝ᵥ (matrix a n *ᵥ y) := rfl
  have hlast : ∑ i : Fin n, y i * a i n = y ⬝ᵥ fun i => a n i :=
    sum_congr rfl fun i _ => by rw [hsymm]
  rw [hform, hlast]
  ring

/-- The pivot of a row is the least value of the quadratic form where the last coordinate is one. -/
theorem IsFactor.pivot_pos {a : ℕ → ℕ → ℝ} {rows : List (List ℝ)} (h : IsFactor a rows)
    (hsymm : ∀ i j, a i j = a j i) {left : List ℝ} (hlength : left.length = rows.length)
    (hsolves : ∀ i < rows.length, dot (rows.getD i []) left = a rows.length i)
    (hpos : (matrix a (rows.length + 1)).PosDef) :
    0 < a rows.length rows.length - dot left left := by
  let l : Fin rows.length → ℝ := fun i => left.getD i 0
  have hl : lower rows *ᵥ l = fun i : Fin rows.length => a rows.length i := by
    funext i
    rw [← hsolves i i.isLt, dot_eq_sum_range _ hlength.le, sum_range]
    rfl
  have hdot : dot left left = l ⬝ᵥ l := by
    rw [dot_eq_sum_range _ hlength.le, sum_range]
    rfl
  -- At this point the part of the form that the rows above make up cancels against the new row.
  obtain ⟨y, hy⟩ : ∃ y, (lower rows)ᵀ *ᵥ y = -l :=
    mulVec_surjective_iff_isUnit.mpr ((isUnit_transpose _).mpr h.isUnit_lower) (-l)
  have hne : (Fin.snoc y 1 : Fin (rows.length + 1) → ℝ) ≠ 0 := by
    intro hzero
    have hlast := congrFun hzero (Fin.last _)
    rw [Fin.snoc_last] at hlast
    exact one_ne_zero hlast
  have hvalue := hpos.dotProduct_mulVec_pos hne
  rw [star_trivial, dotProduct_snoc hsymm, ← h.lower_mul_transpose hsymm, ← hl] at hvalue
  have hform : y ⬝ᵥ ((lower rows * (lower rows)ᵀ) *ᵥ y) = l ⬝ᵥ l := by
    rw [← mulVec_mulVec, dotProduct_mulVec, ← mulVec_transpose, hy, neg_dotProduct_neg]
  have hcross : y ⬝ᵥ (lower rows *ᵥ l) = -(l ⬝ᵥ l) := by
    rw [dotProduct_mulVec, ← mulVec_transpose, hy, neg_dotProduct]
  rw [hform, hcross] at hvalue
  linarith

omit [SpecialFunctions] in
theorem posDef_of_succ {a : ℕ → ℕ → ℝ} {n : ℕ} (h : (matrix a (n + 1)).PosDef) :
    (matrix a n).PosDef :=
  h.submatrix (Fin.castSucc_injective n)

/-- A positive definite matrix has a factor. -/
theorem exists_factor? {a : ℕ → ℕ → ℝ} (hsymm : ∀ i j, a i j = a j i) {n : ℕ}
    (h : (matrix a n).PosDef) : ∃ rows, factor? a n = some rows := by
  induction n with
  | zero => exact ⟨[], rfl⟩
  | succ n ih =>
    obtain ⟨above, habove⟩ := ih (posDef_of_succ h)
    obtain ⟨rfl, hfactor⟩ := isFactor_of_factor? habove
    obtain ⟨left, hleft, hlength, hsolves⟩ := hfactor.exists_left (a above.length)
    have hpivot := hfactor.pivot_pos hsymm hlength hsolves h
    rw [factor?, habove]
    refine ⟨above ++ [left ++ [Real.sqrt (a above.length above.length - dot left left)]], ?_⟩
    have hrow : nextRow? (a above.length) above =
        some (left ++ [Real.sqrt (a above.length above.length - dot left left)]) := by
      unfold nextRow?
      dsimp only
      rw [hleft, remainder_eq, if_pos (by simpa using hpivot)]
      rfl
    simp [hrow]

/-- There is a factor if and only if the matrix is positive definite. -/
theorem exists_factor?_iff_posDef {a : ℕ → ℕ → ℝ} (hsymm : ∀ i j, a i j = a j i) {n : ℕ} :
    (∃ rows, factor? a n = some rows) ↔ (matrix a n).PosDef := by
  constructor
  · rintro ⟨rows, hrows⟩
    obtain ⟨rfl, hfactor⟩ := isFactor_of_factor? hrows
    exact hfactor.posDef hsymm
  · exact exists_factor? hsymm

end Cholesky

end FailureProbability
