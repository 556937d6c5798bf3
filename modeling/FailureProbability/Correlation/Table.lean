import FailureProbability.Coordinates

/-!
# Square tables of numbers

A matrix of correlations is written entry by entry into a square table: it begins as the identity,
coefficients are put at both of their places, and variables are cut off from all others. Reading and
writing keep to the table; an entry outside it is zero, and what is written there is lost. The size
is part of a table, so that no operation has to be told it and none can change it.

A product takes the rows of its second factor as weights would: each row of the product is a sum of
rows, begun with zeros. A row that a weight of one copies is therefore added to zeros, and loses the
signs of its own zeros; a row with all weights zero but one is a copy only where a zero times any
number is zero.

Only what the maps of correlations need is here. Other operations on matrices, and what such a table
means as a matrix, are left to the proofs.
-/

namespace FailureProbability

namespace Correlation

structure Table (α : Type) (n : Nat) where
  rows : List (List α)
  length_rows : rows.length = n
  length_row : ∀ row ∈ rows, row.length = n

namespace Table

variable {α : Type} [Scalar α] {n : Nat}

def get (t : Table α n) (i j : Nat) : α := (t.rows.getD i []).getD j 0

def identity (n : Nat) : Table α n where
  rows := (List.range n).map fun i => (List.range n).map fun j => if i = j then 1 else 0
  length_rows := by simp
  length_row := by simp

omit [Scalar α] in
theorem length_row_modify {rows : List (List α)} (h : ∀ row ∈ rows, row.length = n) (i j : Nat)
    (x : α) : ∀ row ∈ rows.modify i (·.set j x), row.length = n := by
  intro row hrow
  obtain ⟨k, hk, rfl⟩ := List.mem_iff_getElem.mp hrow
  rw [List.length_modify] at hk
  rw [List.getElem_modify]
  split
  · rw [List.length_set]
    exact h _ (List.getElem_mem hk)
  · exact h _ (List.getElem_mem hk)

/-- The table with `x` in row `i` and column `j`. -/
def set (t : Table α n) (i j : Nat) (x : α) : Table α n where
  rows := t.rows.modify i (·.set j x)
  length_rows := by rw [List.length_modify, t.length_rows]
  length_row := length_row_modify t.length_row i j x

/-- The table with `x` in row `i` and column `j`, and in row `j` and column `i`. -/
def setBoth (t : Table α n) (i j : Nat) (x : α) : Table α n := (t.set i j x).set j i x

/-- The table with zeros in row `v` and in column `v`, the diagonal apart. -/
def isolate (t : Table α n) (v : Nat) : Table α n :=
  (List.range n).foldl (fun t k => if k = v then t else t.setBoth v k 0) t

/-- The rows of the product with a matrix that is given by its rows: each is a sum of those rows,
with the entries of a row of the table as weights. -/
def mulRows (t : Table α n) (rows : List (List α)) : List (List α) :=
  t.rows.map fun weights =>
    (weights.zip rows).foldl (fun sums p => Coordinates.addScaled p.1 sums p.2) (Coordinates.origin n)

@[simp] theorem length_mulRows (t : Table α n) (rows : List (List α)) :
    (t.mulRows rows).length = n := by
  rw [mulRows, List.length_map, t.length_rows]

end Table

end Correlation

end FailureProbability
