import FailureProbability.Scalar

/-!
# The Cholesky factor

The lower triangular factor of a symmetric matrix, row by row. A row holds its entries up to the
diagonal one, so that row `i` has `i + 1` entries. There is no factor unless every pivot is above
zero.

A matrix is given by the function of its entries, of which only those up to the diagonal are read:
that it is symmetric is not checked, and a matrix that is not is taken for the one that agrees with
its lower half. There is no exchange of rows, and no tolerance for a pivot. Numbers that are not
finite need no test of their own, since a pivot that is not a number is not above zero.
-/

namespace FailureProbability

namespace Cholesky

variable {α : Type} [Scalar α]

/-- What is left of a matrix entry once the products of the entries found so far are taken off. -/
def remainder (value : α) (row entries : List α) : α :=
  (row.zip entries).foldl (fun rest p => rest + -p.1 * p.2) value

/-- The entries of a row, from those found so far and the rows above that are still to be used;
`value j` is the matrix entry of column `j`. -/
def entries (value : Nat → α) : List (List α) → List α → List α
  | [], found => found
  | row :: rest, found =>
    entries value rest
      (found ++ [remainder (value found.length) row found / row.getLastD 1])

/-- The row below the rows given, if its pivot is above zero. -/
def nextRow? (value : Nat → α) (above : List (List α)) : Option (List α) :=
  let left := entries value above []
  let pivot := remainder (value above.length) left left
  if 0 < pivot then some (left ++ [Scalar.sqrt pivot]) else none

/-- The factor of the `n`-dimensional matrix with the entries `value i j`. -/
def factor? (value : Nat → Nat → α) : Nat → Option (List (List α))
  | 0 => some []
  | n + 1 => do
    let above ← factor? value n
    let row ← nextRow? (value n) above
    return above ++ [row]

/-- The rows of a factor with the zeros to the right of the diagonal. -/
def fill (n : Nat) (rows : List (List α)) : List (List α) :=
  rows.map fun row => row ++ List.replicate (n - row.length) 0

@[simp] theorem length_fill (n : Nat) (rows : List (List α)) : (fill n rows).length = rows.length :=
  List.length_map ..

end Cholesky

end FailureProbability
