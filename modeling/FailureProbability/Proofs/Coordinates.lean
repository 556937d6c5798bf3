import FailureProbability.Coordinates
import FailureProbability.Scalar.Exact
import Mathlib.Algebra.BigOperators.Intervals
import Mathlib.Data.List.GetD
import Mathlib.Tactic.Ring

/-!
# Exact points

On exact numbers sums and inner products are those of the coordinates, whatever their order, and the
length of a vector is the root of its product with itself.

Points stay lists here. Coordinates are read with zero for those that are missing, so that a sum may
run over any range that covers the list; this is how lists of different lengths are compared, and
how rows of a matrix become sums over its columns.
-/

namespace FailureProbability.Coordinates

open Finset

variable [SpecialFunctions]

/-! ## Inner products

Points are lists, and the shorter of two lists decides how far an inner product goes. On exact
numbers it is a sum over any range that covers one of them, which is the form in which sums are
rearranged. -/

theorem sum_eq (xs : List ℝ) : sum xs = xs.sum := by
  have hzero : (-(@OfNat.ofNat ℝ 0 (Scalar.instOfNat 0)) : ℝ) = 0 := by simp
  rw [List.sum_eq_foldl]
  exact congrArg (fun x => xs.foldl (fun a b => a + b) x) hzero

theorem dot_nil_right (a : List ℝ) : dot a [] = 0 := by
  simp [dot, sum_eq]

theorem dot_nil_left (b : List ℝ) : dot [] b = 0 := by
  simp [dot, sum_eq]

theorem dot_cons (x y : ℝ) (a b : List ℝ) : dot (x :: a) (y :: b) = x * y + dot a b := by
  rw [dot, dot, sum_eq, sum_eq, List.zipWith_cons_cons, List.sum_cons]

/-- The inner product runs over the coordinates, those beyond the shorter list being zero. -/
theorem dot_eq_sum_range (a : List ℝ) {b : List ℝ} {n : ℕ} (hb : b.length ≤ n) :
    dot a b = ∑ k ∈ range n, a.getD k 0 * b.getD k 0 := by
  induction b generalizing a n with
  | nil => simp [dot_nil_right]
  | cons y b ih =>
    cases a with
    | nil => simp [dot_nil_left]
    | cons x a =>
      obtain ⟨m, rfl⟩ : ∃ m, n = m + 1 := ⟨n - 1, by simp at hb; omega⟩
      rw [dot_cons, ih a (by simpa using hb), sum_range_succ', add_comm]
      rfl

theorem dot_comm (a b : List ℝ) : dot a b = dot b a := by
  have hleft : a.length ≤ max a.length b.length := le_max_left ..
  have hright : b.length ≤ max a.length b.length := le_max_right ..
  rw [dot_eq_sum_range a hright, dot_eq_sum_range b hleft]
  exact sum_congr rfl fun k _ => mul_comm ..

theorem dot_append {a b : List ℝ} (h : a.length = b.length) (c d : List ℝ) :
    dot (a ++ c) (b ++ d) = dot a b + dot c d := by
  induction a generalizing b with
  | nil =>
    obtain rfl : b = [] := List.length_eq_zero_iff.mp h.symm
    simp [dot_nil_left]
  | cons x a ih =>
    cases b with
    | nil => simp at h
    | cons y b =>
      rw [List.cons_append, List.cons_append, dot_cons, dot_cons, ih (by simpa using h), add_assoc]

/-- What lies beyond the shorter list does not count. -/
theorem dot_append_left {a b : List ℝ} (h : b.length ≤ a.length) (c : List ℝ) :
    dot (a ++ c) b = dot a b := by
  rw [dot_eq_sum_range _ h, dot_eq_sum_range _ h]
  refine sum_congr rfl fun k hk => ?_
  rw [List.getD_append _ _ _ _ (mem_range.mp hk)]

theorem dot_scale (factor : ℝ) (a b : List ℝ) : dot a (scale factor b) = factor * dot a b := by
  induction a generalizing b with
  | nil => simp [dot_nil_left]
  | cons x a ih =>
    cases b with
    | nil => simp [scale, dot_nil_right]
    | cons y b =>
      have hscale : scale factor (y :: b) = factor * y :: scale factor b := rfl
      rw [hscale, dot_cons, dot_cons, ih]
      ring

theorem scale_dot (factor : ℝ) (a b : List ℝ) : dot (scale factor a) b = factor * dot a b := by
  rw [dot_comm, dot_scale, dot_comm]

theorem divide_eq_scale (v : List ℝ) (divisor : ℝ) : divide v divisor = scale divisor⁻¹ v := by
  simp only [divide, scale, div_eq_inv_mul]

/-- A step in one coordinate. -/
theorem dot_modify (a : List ℝ) {b : List ℝ} {i : ℕ} (hi : i < b.length) (step : ℝ) :
    dot a (b.modify i (· + step)) = dot a b + a.getD i 0 * step := by
  induction b generalizing a i with
  | nil => exact absurd hi (Nat.not_lt_zero i)
  | cons y b ih =>
    cases a with
    | nil => simp [dot_nil_left]
    | cons x a =>
      cases i with
      | zero =>
        rw [List.modify_zero_cons, dot_cons, dot_cons, List.getD_cons_zero]
        ring
      | succ i =>
        rw [List.modify_succ_cons, dot_cons, dot_cons, ih a (Nat.lt_of_succ_lt_succ hi),
          List.getD_cons_succ]
        ring

/-! ## Weighted sums of points -/

/-- Adding a multiple of a point adds that of each coordinate. -/
theorem getD_addScaled (weight : ℝ) {sums u : List ℝ} (h : u.length ≤ sums.length) (k : ℕ) :
    (addScaled weight sums u).getD k 0 = sums.getD k 0 + weight * u.getD k 0 := by
  induction sums generalizing u k with
  | nil =>
    obtain rfl : u = [] := List.length_eq_zero_iff.mp (Nat.le_zero.mp h)
    simp [addScaled]
  | cons s sums ih =>
    cases u with
    | nil => simp [addScaled]
    | cons x u =>
      cases k with
      | zero => rfl
      | succ k => exact ih (Nat.le_of_succ_le_succ h) k

/-- A coordinate of a weighted sum is the inner product of the weights and of this coordinate of the
points. -/
theorem getD_foldl_addScaled (weights : List ℝ) {points : List (List ℝ)} {sums : List ℝ}
    (h : ∀ u ∈ points, u.length ≤ sums.length) (k : ℕ) :
    ((weights.zip points).foldl (fun sums p => addScaled p.1 sums p.2) sums).getD k 0 =
      sums.getD k 0 + dot weights (points.map fun u => u.getD k 0) := by
  induction points generalizing weights sums with
  | nil => simp [dot_nil_right]
  | cons u points ih =>
    cases weights with
    | nil => simp [dot_nil_left]
    | cons w weights =>
      obtain ⟨hu, hpoints⟩ := List.forall_mem_cons.mp h
      rw [List.zip_cons_cons, List.foldl_cons, List.map_cons, dot_cons,
        ih weights (fun v hv => (hpoints v hv).trans_eq (length_addScaled ..).symm),
        getD_addScaled w hu, add_assoc]

/-! ## Lengths -/

theorem norm_eq_sqrt_dot (v : List ℝ) : norm v = Real.sqrt (dot v v) := by
  have hsquares : v.map (fun x => x * x) = List.zipWith (· * ·) v v := by simp
  rw [norm, hsquares]
  rfl

theorem dot_self_nonneg (v : List ℝ) : 0 ≤ dot v v := by
  rw [dot_eq_sum_range v le_rfl]
  exact sum_nonneg fun k _ => mul_self_nonneg _

theorem norm_mul_self (v : List ℝ) : norm v * norm v = dot v v := by
  rw [norm_eq_sqrt_dot]
  exact Real.mul_self_sqrt (dot_self_nonneg v)

theorem norm_nonneg (v : List ℝ) : 0 ≤ norm v := by
  rw [norm_eq_sqrt_dot]
  exact Real.sqrt_nonneg _

/-- The origin is the point without a length. -/
theorem norm_eq_zero_iff {v : List ℝ} : norm v = 0 ↔ v = origin v.length := by
  rw [norm_eq_sqrt_dot, Real.sqrt_eq_zero (dot_self_nonneg v), origin, Scalar.zero_eq]
  induction v with
  | nil => exact iff_of_true (dot_nil_left []) rfl
  | cons x v ih =>
    rw [dot_cons, add_eq_zero_iff_of_nonneg (mul_self_nonneg x) (dot_self_nonneg v), ih,
      mul_self_eq_zero, List.length_cons, List.replicate_succ, List.cons.injEq]

theorem norm_scale (factor : ℝ) (v : List ℝ) : norm (scale factor v) = |factor| * norm v := by
  rw [norm_eq_sqrt_dot, norm_eq_sqrt_dot, scale_dot, dot_scale, ← mul_assoc,
    Real.sqrt_mul (mul_self_nonneg factor), Real.sqrt_mul_self_eq_abs]

end FailureProbability.Coordinates
