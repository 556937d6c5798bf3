import FailureProbability.Correlation.Table
import FailureProbability.Proofs.Coordinates

/-!
# What a table holds

A table is read entry by entry: after each way to write into it, every entry inside is one of those
that were there before or what was written (`get_set`). Entries outside the table read as zero, and
of writing there nothing is said: the lemmas on writing ask for indices inside, which the pairs of
an accepted list have.

On exact numbers an entry of a product is the inner product of a row of weights and a column. The
rows that are weighted may be shorter than the table is wide, as those of a triangular factor are
before the zeros to the right of the diagonal are filled in; what is not there counts as zero.
-/

namespace FailureProbability.Correlation.Table

variable {α : Type} [Scalar α] {n : Nat}

/-! ## Entries -/

theorem get_identity {i j : Nat} (hi : i < n) (hj : j < n) :
    (identity n : Table α n).get i j = if i = j then 1 else 0 := by
  simp [get, identity, hi, hj]

theorem get_eq_zero (t : Table α n) {i j : Nat} (h : n ≤ i ∨ n ≤ j) : t.get i j = 0 := by
  unfold get
  by_cases hi : i < t.rows.length
  · have hj : n ≤ j := h.resolve_left (Nat.not_le_of_lt (t.length_rows ▸ hi))
    rw [List.getD_eq_getElem _ _ hi]
    exact List.getD_eq_default _ _ ((t.length_row _ (List.getElem_mem hi)).trans_le hj)
  · rw [List.getD_eq_default _ _ (Nat.le_of_not_lt hi)]
    rfl

/-- A write changes one entry. -/
theorem get_set (t : Table α n) {i j : Nat} (hi : i < n) (hj : j < n) (x : α) (v w : Nat) :
    (t.set i j x).get v w = if v = i ∧ w = j then x else t.get v w := by
  unfold get set
  dsimp only
  by_cases hv : v = i
  · subst hv
    have hv' : v < t.rows.length := by rwa [t.length_rows]
    have hrow : j < t.rows[v].length := by rwa [t.length_row _ (List.getElem_mem hv')]
    by_cases hw : w = j
    · subst hw
      simp [List.getD_eq_getElem?_getD, hv', hrow]
    · simp [List.getD_eq_getElem?_getD, hv', hw, Ne.symm hw]
  · simp [List.getD_eq_getElem?_getD, hv, Ne.symm hv]

theorem get_setBoth (t : Table α n) {i j : Nat} (hi : i < n) (hj : j < n) (x : α) (v w : Nat) :
    (t.setBoth i j x).get v w =
      if (v = i ∧ w = j) ∨ (v = j ∧ w = i) then x else t.get v w := by
  rw [setBoth, get_set _ hj hi, get_set _ hi hj]
  by_cases hback : v = j ∧ w = i
  · rw [if_pos hback, if_pos (.inr hback)]
  · simp only [if_neg hback, or_iff_left hback]

/-! ## Isolated variables -/

/-- Cutting a variable off from some others makes zero of the entries of the variable and those
others, on both sides of the diagonal. -/
theorem get_foldl_isolate {v : Nat} (hv : v < n) {ks : List Nat} (hks : ∀ k ∈ ks, k < n)
    (t : Table α n) (i j : Nat) :
    (ks.foldl (fun t k => if k = v then t else t.setBoth v k 0) t).get i j =
      if i ≠ j ∧ ((i = v ∧ j ∈ ks) ∨ (j = v ∧ i ∈ ks)) then 0 else t.get i j := by
  induction ks generalizing t with
  | nil => simp
  | cons k ks ih =>
    obtain ⟨hk, hks⟩ := List.forall_mem_cons.mp hks
    rw [List.foldl_cons, ih hks]
    -- What the first of the writes does; all others come after it and write the same value.
    have hstep : (if k = v then t else t.setBoth v k 0).get i j =
        if i ≠ j ∧ ((i = v ∧ j = k) ∨ (j = v ∧ i = k)) then 0 else t.get i j := by
      by_cases hkv : k = v
      · rw [if_pos hkv, if_neg (by omega)]
      · rw [if_neg hkv, get_setBoth _ hv hk]
        congr 1
        rw [eq_iff_iff]
        omega
    rw [hstep]
    by_cases hin : i ≠ j ∧ ((i = v ∧ j ∈ ks) ∨ (j = v ∧ i ∈ ks))
    · rw [if_pos hin, if_pos]
      exact hin.imp_right fun h => h.imp (·.imp_right (List.mem_cons_of_mem _))
        (·.imp_right (List.mem_cons_of_mem _))
    · rw [if_neg hin]
      congr 1
      rw [eq_iff_iff, List.mem_cons, List.mem_cons]
      tauto

/-- A variable that is cut off keeps its place on the diagonal alone. -/
theorem get_isolate (t : Table α n) {v i j : Nat} (hv : v < n) (hi : i < n) (hj : j < n) :
    (t.isolate v).get i j = if i ≠ j ∧ (i = v ∨ j = v) then 0 else t.get i j := by
  rw [isolate, get_foldl_isolate hv (fun k hk => List.mem_range.mp hk)]
  simp only [List.mem_range, hi, hj, and_true]

/-! ## Products -/

section

open Finset

variable [SpecialFunctions]

/-- An entry of the product is the sum of the entries of its column, with the weights of its row. -/
theorem getD_mulRows (t : Table ℝ n) {rows : List (List ℝ)} (hrows : rows.length = n)
    (hlength : ∀ row ∈ rows, row.length ≤ n) {v : ℕ} (hv : v < n) (k : ℕ) :
    ((t.mulRows rows).getD v []).getD k 0 =
      ∑ i ∈ range n, t.get v i * (rows.getD i []).getD k 0 := by
  have hv' : v < t.rows.length := by rwa [t.length_rows]
  have hcolumn : ∀ i, (rows.map fun row => row.getD k 0).getD i 0 = (rows.getD i []).getD k 0 :=
    fun i => List.getD_map rows [] fun row : List ℝ => row.getD k 0
  have hrow : (t.mulRows rows).getD v [] = (t.rows[v].zip rows).foldl
      (fun sums p => Coordinates.addScaled p.1 sums p.2) (Coordinates.origin n) := by
    rw [mulRows, List.getD_eq_getElem _ _ (by rwa [List.length_map]), List.getElem_map]
  have horigin : (Coordinates.origin n : List ℝ).getD k 0 = 0 := by
    by_cases hk : k < n <;> simp [Coordinates.origin, hk]
  rw [hrow, Coordinates.getD_foldl_addScaled _ (by simpa using hlength), horigin, zero_add,
    Coordinates.dot_eq_sum_range _ (by rw [List.length_map, hrows])]
  refine sum_congr rfl fun i _ => ?_
  rw [hcolumn, get, List.getD_eq_getElem t.rows [] hv', Scalar.zero_eq]

end

end FailureProbability.Correlation.Table
