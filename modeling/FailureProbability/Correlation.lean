import FailureProbability.Correlation.Cholesky
import FailureProbability.Correlation.Forest
import FailureProbability.Correlation.Table

/-!
# Correlation

A correlation maps independent standard-normal coordinates to correlated ones by a linear map. The
map is the Cholesky factor of the matrix of the partial correlations, where a variable that copies
another one has the row of its source.

There are two ways to build it from a list of pairs. The direct one lets the second variable of a
full pair copy the first and refuses chains of such pairs. The robust one resolves chains: it finds
the group of every variable in a forest, lets every member follow the lowest one, and moves partial
correlations of the others onto it. Both end in the same product of a matrix that copies rows and
the factor (`Gaussian.assemble`).

A list is checked as a whole before anything is built from it (`Pair.checkAll`), and a map keeps the
list that it was built from. What a full pair says is kept in any map; a partial pair may be lost,
in the direct map when it names a variable that copies another one, and in the robust one when its
variables belong to one group or when the roots have a coefficient already.

No matrix is repaired here. A list whose matrix is not positive definite is refused, and the error
does not tell which pair is the culprit.
-/

namespace FailureProbability

namespace Correlation

/-- Variable `dependent` is variable `source` with a sign. -/
structure Substitution where
  dependent : Nat
  source : Nat
  sign : Sign
  deriving Repr, BEq, DecidableEq

structure Gaussian (α : Type) where
  /-- Each correlated coordinate as a combination of the independent ones. -/
  rows : List (List α)
  substitutions : List Substitution
  /-- The pairs that the map was built from. -/
  pairs : List (Pair α)
  deriving Repr, BEq

namespace Gaussian

variable {α : Type} [Scalar α]

/-- The matrix of partial correlations: the identity with each coefficient at both of its places,
and with zeros for all dependent variables. -/
def reduced (n : Nat) (partials : List (Pair α)) (substitutions : List Substitution) : Table α n :=
  let given := partials.foldl (fun t p => t.setBoth p.i p.j p.rho) (.identity n)
  substitutions.foldl (fun t s => t.isolate s.dependent) given

/-- The matrix that copies variables: the row of a dependent one has the sign at its source, and the
others are those of the identity. -/
def copying (n : Nat) (substitutions : List Substitution) : Table α n :=
  substitutions.foldl
    (fun t s => (t.set s.dependent s.dependent 0).set s.dependent s.source s.sign.toNumber)
    (.identity n)

/-- The map with the given partial correlations and substitutions over `n` variables. The copies are
made by a product, so that each variable depends on the coordinates that its source depends on. -/
def assemble (n : Nat) (pairs partials : List (Pair α)) (substitutions : List Substitution) :
    Except (Error α) (Gaussian α) :=
  match Cholesky.factor? (reduced n partials substitutions).get n with
  | none => .error (.breakdown .indefiniteCorrelation)
  | some factor =>
    .ok ⟨(copying n substitutions).mulRows (Cholesky.fill n factor), substitutions, pairs⟩

/-- The dependent variable of a full pair is its second one. -/
def direct (pairs : List (Pair α)) : List Substitution :=
  (Pair.fulls pairs).map fun p => ⟨p.j, p.i, p.sign⟩

/-- A variable that copies two others, or that is copied itself. -/
def chained (substitutions : List Substitution) (v : Nat) : Bool :=
  decide (1 < (substitutions.filter (·.dependent == v)).length) ||
    substitutions.any (·.source == v)

/-- The direct map. Partial correlations of a variable that copies another one are dropped. -/
def ofPairs (n : Nat) (pairs : List (Pair α)) : Except (Error α) (Gaussian α) := do
  Pair.checkAll n [] pairs
  let substitutions := direct pairs
  match substitutions.find? fun s => chained substitutions s.dependent with
  | some s => throw (.invalid (.fullChain s.dependent))
  | none =>
    let free (p : Pair α) : Bool := !substitutions.any fun s => p.names s.dependent
    assemble n pairs ((Pair.partials pairs).filter free) substitutions

/-- The variables that follow their root, and the forest after the roots of all were searched. -/
def followers : List Nat → Forest → List Substitution × Forest
  | [], f => ([], f)
  | v :: rest, f =>
    let found := f.find v
    let (others, f) := followers rest found.forest
    (if found.root = v then others else ⟨v, found.root, found.sign⟩ :: others, f)

/-- A partial pair moved onto the roots of its variables, which are looked up. A pair inside a group
is dropped; so is a pair that has to move although the coefficient of the roots is given. -/
def moved? (look : Nat → Nat × Sign) (given : List (Nat × Nat)) (p : Pair α) : Option (Pair α) :=
  let (ri, si) := look p.i
  let (rj, sj) := look p.j
  let onRoots : Pair α := ⟨ri, rj, (si * sj).apply p.rho⟩
  if ri = rj then none
  -- A pair that stays where it is keeps its coefficient.
  else if (ri ≠ p.i ∨ rj ≠ p.j) ∧ given.contains onRoots.key = true then none
  else some onRoots

/-- Of several pairs with the same two variables, the first. -/
def firstOfEach : List (Nat × Nat) → List (Pair α) → List (Pair α)
  | _, [] => []
  | seen, p :: rest =>
    if seen.contains p.key then firstOfEach seen rest
    else p :: firstOfEach (p.key :: seen) rest

/-- The robust map. The full pairs make a forest; the variables follow their roots, and the partial
pairs are moved onto them. -/
def ofChains (n : Nat) (pairs : List (Pair α)) : Except (Error α) (Gaussian α) := do
  Pair.checkAll n [] pairs
  let forest ← Forest.ofPairs n (Pair.fulls pairs)
  let (substitutions, forest) := followers (List.range n) forest
  let given := Pair.partials pairs
  let onRoots := given.filterMap (moved? forest.look (given.map Pair.key))
  assemble n pairs (firstOfEach [] onRoots) substitutions

def dimension (g : Gaussian α) : Nat := g.rows.length

/-- The number of variables that keep a coordinate of their own. -/
def independentCount (g : Gaussian α) : Nat := g.dimension - g.substitutions.length

def isFullyCorrelated (g : Gaussian α) (v : Nat) : Bool :=
  g.substitutions.any (·.dependent == v)

def isCorrelated (g : Gaussian α) (v : Nat) : Bool := g.pairs.any (·.names v)

/-- The coefficient of independent coordinate `j` in correlated coordinate `i`. -/
def coefficient (g : Gaussian α) (i j : Nat) : α := (g.rows.getD i []).getD j 0

def correlate (g : Gaussian α) (u : List α) : List α := g.rows.map fun row => Coordinates.dot row u

end Gaussian

end Correlation

/-- How the variables of a problem depend on each other. -/
inductive Correlation (α : Type) where
  /-- Not at all, among so many variables. -/
  | identity (n : Nat)
  /-- By a map that refuses chains of full correlations. -/
  | gaussian (map : Correlation.Gaussian α)
  | robust (map : Correlation.Gaussian α)
  deriving Repr, BEq

namespace Correlation

variable {α : Type} [Scalar α]

def ofPairs (n : Nat) (pairs : List (Pair α)) : Except (Error α) (Correlation α) :=
  gaussian <$> Gaussian.ofPairs n pairs

def ofChains (n : Nat) (pairs : List (Pair α)) : Except (Error α) (Correlation α) :=
  robust <$> Gaussian.ofChains n pairs

def map? : Correlation α → Option (Gaussian α)
  | identity _ => none
  | gaussian g => some g
  | robust g => some g

def name : Correlation α → String
  | identity _ => "identity"
  | gaussian _ => "gaussian"
  | robust _ => "gaussian_robust"

def dimension : Correlation α → Nat
  | identity n => n
  | gaussian g => g.dimension
  | robust g => g.dimension

/-- The number of variables that keep a coordinate of their own. -/
def independentCount : Correlation α → Nat
  | identity n => n
  | gaussian g => g.independentCount
  | robust g => g.independentCount

def isFullyCorrelated (c : Correlation α) (v : Nat) : Bool :=
  c.map?.any (·.isFullyCorrelated v)

def isCorrelated (c : Correlation α) (v : Nat) : Bool := c.map?.any (·.isCorrelated v)

/-- The correlated coordinates of independent ones. -/
def correlate (c : Correlation α) (u : List α) : List α :=
  match c.map? with
  | none => u
  | some g => g.correlate u

end Correlation

end FailureProbability
