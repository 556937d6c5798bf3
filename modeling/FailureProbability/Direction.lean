import FailureProbability.Coordinates
import FailureProbability.Normal

/-!
# Reliability index and direction

A failure event is summarised by its reliability index `beta` and influence coefficients `alpha`.
Near the design point the limit state reads `σ · (beta + alpha · u)`, so failure is the half-space
`-alpha · u > beta` and the design point is `-beta · alpha`.

The coefficients are of length one wherever a direction is made from a point, up to rounding, but
that is no part of a direction: one that is read from a text may have any coefficients. Where there
is nothing to make a direction from, as at the origin, all variables have equal weight
(`isotropic`); without any variable the coefficients are none.
-/

namespace FailureProbability

structure Direction (α : Type) where
  beta : α
  alpha : List α
  deriving Repr, BEq

namespace Direction

variable {α : Type} [Scalar α]

/-- Equal weight in every variable, where nothing is known of the failure domain. -/
def isotropic (n : Nat) (beta : α) : Direction α :=
  ⟨beta, List.replicate n (if n = 0 then 0 else 1 / Scalar.sqrt (Scalar.ofNat n))⟩

/-- The event whose design point is `u`. -/
def ofDesignPoint (u : List α) : Direction α :=
  let beta := Coordinates.norm u
  if beta == 0 then isotropic u.length 0 else ⟨beta, u.map fun x => -x / beta⟩

/-- The direction of a point of the limit state with a reliability index found elsewhere. The
design point lies on the ray through the point. -/
def ofPointAndBeta (point : List α) (beta : α) : Direction α :=
  let r := Coordinates.norm point
  if r == 0 || !Scalar.isFinite r then isotropic point.length beta
  else
    let sign : α := if beta < 0 then 1 else -1
    ⟨beta, point.map fun x => sign * x / r⟩

def p (d : Direction α) : α := (Normal.pqFromBeta d.beta).1

def q (d : Direction α) : α := (Normal.pqFromBeta d.beta).2

/-- The design point `-beta · alpha`. -/
def designPoint (d : Direction α) : List α := Coordinates.scale (-d.beta) d.alpha

/-- The same direction with another reliability index. -/
def withBeta (d : Direction α) (beta : α) : Direction α := { d with beta := beta }

/-- The coefficients brought to length one; a vector without a length stays. -/
def normalized (d : Direction α) : Direction α :=
  let n := Coordinates.norm d.alpha
  if 0 < n ∧ Scalar.isFinite n = true then { d with alpha := Coordinates.divide d.alpha n } else d

/-! ## Dimensions -/

@[simp] theorem length_designPoint (d : Direction α) : d.designPoint.length = d.alpha.length := by
  simp [designPoint]

@[simp] theorem length_isotropic (n : Nat) (beta : α) : (isotropic n beta).alpha.length = n := by
  simp [isotropic]

@[simp] theorem length_ofPointAndBeta (point : List α) (beta : α) :
    (ofPointAndBeta point beta).alpha.length = point.length := by
  simp only [ofPointAndBeta]
  split <;> simp

/-- The index is the one given, whatever the point. -/
@[simp] theorem beta_ofPointAndBeta (point : List α) (beta : α) :
    (ofPointAndBeta point beta).beta = beta := by
  simp only [ofPointAndBeta]
  split <;> simp [isotropic]

/-- Bringing the coefficients to length one leaves the index. -/
@[simp] theorem beta_normalized (d : Direction α) : d.normalized.beta = d.beta := by
  simp only [normalized]
  split <;> rfl

end Direction

end FailureProbability
