import FailureProbability.Correlation.Pair

/-!
# Forests of copies

Full correlations split the variables into groups whose members are copies of each other up to a
sign. A group is kept as a tree: every variable has a parent in its group and a sign relative to it,
and the lowest variable of the group is the root, which is its own parent. Two groups are joined by
the roots alone, so that a variable may be many steps away from its root. A search for the root
shortens the way: all variables that it passes become children of the root, with the signs that they
have relative to it.

A parent is never above its child (`descends`), which is why every search comes to an end. That is
part of a forest, and whatever changes one has to keep it. There is no union by rank: which of two
roots becomes the other's child is a matter of the variables and not of the trees, because the
lowest variable of a group is to be its root.

Searching changes a forest and walking does not. Pairs are recorded and dependent variables are
listed by searches; the partial pairs are moved by walks, since the forest is complete by then. What
the trees have to do with the pairs that they are built from, and why the searches do not change
what they find, is left to the proofs.
-/

namespace FailureProbability

namespace Correlation

/-- The parent of each variable, and its sign relative to the parent. -/
structure Forest where
  parents : List Nat
  signs : List Sign
  length_signs : signs.length = parents.length
  descends : ∀ v, parents.getD v v ≤ v

namespace Forest

variable {α : Type}

def size (f : Forest) : Nat := f.parents.length

/-- The parent of a variable; a variable outside the forest is on its own. -/
def parent (f : Forest) (v : Nat) : Nat := f.parents.getD v v

def sign (f : Forest) (v : Nat) : Sign := f.signs.getD v .plus

theorem parent_le (f : Forest) (v : Nat) : f.parent v ≤ v := f.descends v

theorem parent_lt (f : Forest) {v : Nat} (h : ¬f.parent v = v) : f.parent v < v :=
  Nat.lt_of_le_of_ne (f.parent_le v) h

theorem getD_range_self (n v : Nat) : (List.range n).getD v v = v := by
  by_cases h : v < n
  · simp [h]
  · simp [List.getElem?_eq_none (l := List.range n) (by simpa using h)]

/-- Every variable on its own. -/
def singletons (n : Nat) : Forest :=
  ⟨List.range n, List.replicate n .plus, by simp, fun v => Nat.le_of_eq (getD_range_self n v)⟩

theorem getD_set_le {parents : List Nat} (h : ∀ v, parents.getD v v ≤ v) {child parent : Nat}
    (hle : parent ≤ child) (v : Nat) : (parents.set child parent).getD v v ≤ v := by
  rw [List.getD_eq_getElem?_getD, List.getElem?_set]
  split
  case isTrue heq =>
    subst heq
    split
    · exact hle
    · exact Nat.le_refl _
  case isFalse => exact h v

/-- Gives a variable another parent, and a sign relative to that one. -/
def attach (f : Forest) (child parent : Nat) (sign : Sign) (h : parent ≤ child) : Forest :=
  ⟨f.parents.set child parent, f.signs.set child sign, by simp [f.length_signs],
    getD_set_le f.descends h⟩

/-! ## Roots -/

/-- What a search finds: the root of a variable and the sign of the variable relative to it, and
what has become of the forest. -/
structure Found (v : Nat) where
  root : Nat
  sign : Sign
  forest : Forest
  le : root ≤ v

/-- Searches the root of a variable. On the way back, every variable that was passed becomes a child
of the root. -/
def find (f : Forest) (v : Nat) : Found v :=
  if h : f.parent v = v then ⟨v, .plus, f, Nat.le_refl v⟩
  else
    have := f.parent_lt h
    let above := f.find (f.parent v)
    have hle : above.root ≤ v := Nat.le_trans above.le (f.parent_le v)
    let sign := above.forest.sign v * above.sign
    ⟨above.root, sign, above.forest.attach v above.root sign hle, hle⟩
termination_by v

/-- Walks from a variable to its root and collects the signs on the way; the forest stays. -/
def walk (f : Forest) (v : Nat) (sign : Sign) : Nat × Sign :=
  if h : f.parent v = v then (v, sign)
  else
    have := f.parent_lt h
    f.walk (f.parent v) (sign * f.sign v)
termination_by v

/-- The root of a variable, and the sign of the variable relative to it. -/
def look (f : Forest) (v : Nat) : Nat × Sign := f.walk v .plus

/-! ## Pairs -/

/-- Records that variable `x` is variable `y` with the given sign. Of the two roots, the larger one
becomes a child of the other. -/
def union (f : Forest) (x y : Nat) (sign : Sign) : Except (Error α) Forest :=
  let a := f.find x
  let b := a.forest.find y
  let relative := a.sign * sign * b.sign
  if a.root = b.root then
    if relative = .plus then .ok b.forest else .error (.invalid (.contradictingSigns x y))
  else if h : b.root < a.root then
    .ok (b.forest.attach a.root b.root relative (Nat.le_of_lt h))
  else .ok (b.forest.attach b.root a.root relative (Nat.le_of_not_lt h))

/-- The forest of a list of full pairs. -/
def ofPairs [Scalar α] (n : Nat) (full : List (Pair α)) : Except (Error α) Forest :=
  full.foldlM (fun f p => f.union p.j p.i p.sign) (singletons n)

end Forest

end Correlation

end FailureProbability
