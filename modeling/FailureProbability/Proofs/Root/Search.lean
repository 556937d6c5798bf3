import FailureProbability.Proofs.Contract
import FailureProbability.Root.Ray

/-!
# The work of root searches

A search counts the values that it asks for. When each value takes one evaluation, the count is the
number of evaluations that the search took, in any kind of computation that has contracts. A search
fails only where a value does: the bracket that it refines is that of a crossing, so that its ends
have opposite signs (`March.IsSound`).

Arithmetic is left open, and may round. `March.IsSound` is no more than what the test for a crossing
has said of two points, so that it holds of numbers whose signs are hard to tell as well. Which
values are asked for is not said here.
-/

namespace FailureProbability.Root

variable {α : Type} [Scalar α] {M : Type → Type} [Monad M] (C : Contract M)

namespace March

/-- The points of a crossing have values of opposite sign. -/
def IsSound (s : March α) : Prop := ∀ p q, s.crossing? = some (p, q) → p.crosses q = true

/-- A march that has crossed has done so between two points with a change of sign. -/
theorem isSound_observe {s : March α} (h : s.IsSound) (r : Point α) : (s.observe r).IsSound := by
  intro p q hpq
  cases s with
  | level last =>
    simp only [observe] at hpq
    split at hpq <;> cases hpq
  | onSide last =>
    simp only [observe] at hpq
    split at hpq
    · rename_i hcross
      cases hpq
      exact hcross
    · cases hpq
  | crossed before after last =>
    cases hpq
    exact h _ _ rfl

theorem isSound_ofPoints (points : List (Point α)) : (ofPoints points).IsSound := by
  unfold ofPoints
  suffices h : ∀ s : March α, s.IsSound → (points.foldl observe s).IsSound from
    h (level none) fun p q hpq => by cases hpq
  induction points with
  | nil => exact fun s hs => hs
  | cons p points ih => exact fun s hs => ih _ (isSound_observe hs p)

variable {f : α → M α} (hf : ∀ x, C.Holds (f x) fun _ k => k = 1)
include hf

/-- A march counts the values that it asks for. -/
theorem holds_advance (step maxX : α) (budget spent : Nat) {s : March α} (hs : s.IsSound) :
    C.Holds (advance step maxX f budget spent s) fun w k =>
      w.evaluations = spent + k ∧ w.state.IsSound := by
  induction budget generalizing spent s with
  | zero => exact C.of_pure ⟨rfl, hs⟩
  | succ budget ih =>
    unfold advance
    cases s.proposal? step maxX with
    | none => exact C.of_pure ⟨rfl, hs⟩
    | some x =>
      refine C.of_bind (hf x) fun z k hk => ?_
      subst hk
      have hrest := ih (spent + 1) (isSound_observe hs ⟨x, z⟩)
      simpa only [Nat.add_assoc] using hrest

theorem holds_interpolate (budget : Nat) (w : Walk α) :
    C.Holds (interpolate budget w f) fun w' k => w'.evaluations = w.evaluations + k := by
  unfold interpolate
  split
  · exact C.of_pure rfl
  · refine C.ite (fun _ => C.of_pure rfl) fun _ => ?_
    refine C.of_bind (hf _) fun z k hk => ?_
    exact C.of_pure (by rw [hk])

/-- A linear loop counts the values of its march, and one more where it interpolates. -/
theorem holds_solve (choice : Choice) (step maxX : α) (budget : Nat) {s : March α}
    (hs : s.IsSound) :
    C.Holds (solve choice step maxX budget s f) fun r k => r.evaluations = k := by
  unfold solve
  refine C.of_bind (holds_advance C hf step maxX budget 0 hs) fun w k hw => ?_
  have hcount := hw.1
  refine C.ite (fun _ => ?_) fun _ => ?_
  · refine C.of_bind (holds_interpolate C hf budget w) fun w' l hw' => ?_
    exact C.of_pure (by dsimp only; omega)
  · -- Without an interpolation the walk is handed on as it is.
    refine C.of_bind (C.of_pure (P := fun w' l => w' = w ∧ l = 0) ⟨rfl, rfl⟩) fun w' l hw' => ?_
    obtain ⟨rfl, rfl⟩ := hw'
    exact C.of_pure (by dsimp only; omega)

end March

namespace Bracket

variable {f : α → M α} (hf : ∀ x, C.Holds (f x) fun _ k => k = 1)
include hf

/-- A refinement counts the values that it asks for. -/
theorem holds_narrow (method : Method) (tolerance : α) (budget spent : Nat) (s : Bracket α) :
    C.Holds (narrow method tolerance f budget spent s) fun r k => r.evaluations = spent + k := by
  induction budget generalizing spent s with
  | zero => exact C.of_pure rfl
  | succ budget ih =>
    unfold narrow
    refine C.ite (fun _ => C.of_pure rfl) fun _ => ?_
    refine C.of_bind (hf _) fun z k hk => ?_
    subst hk
    have hrest := ih (spent + 1) (s.observe method ⟨s.proposal method, z⟩)
    simpa only [Nat.add_assoc] using hrest

end Bracket

namespace Ray

/-- A bracket of a crossing is never refused. -/
theorem new_of_crosses {p q : Point α} (h : p.crosses q = true) :
    Bracket.new p q = .ok ⟨p, q, p.z, none⟩ := by
  unfold Bracket.new
  rw [if_pos h]

/-- A ray search counts the values that it asks for, and fails only where a value does. -/
theorem holds_find (C : Contract (ExceptT (Error α) M)) {f : α → ExceptT (Error α) M α}
    (hf : ∀ x, C.Holds (f x) fun _ k => k = 1) (ray : Ray α) (z0 : α) :
    C.Holds (ray.find z0 f) fun r k => r.evaluations = k := by
  have hstart : (March.ofPoints [⟨0, z0⟩] : March α).IsSound := March.isSound_ofPoints _
  unfold find
  cases ray.method with
  | linearLoop choice => exact March.holds_solve C hf choice ray.step ray.maxLength ray.budget hstart
  | robust refinement =>
    refine C.of_bind (March.holds_advance C hf ray.step ray.maxLength ray.budget 0 hstart)
      fun w k hw => ?_
    obtain ⟨hcount, hsound⟩ := hw
    cases hcross : w.state.crossing? with
    | none => exact C.of_pure (by dsimp only; omega)
    | some crossing =>
      obtain ⟨p, q⟩ := crossing
      dsimp only
      -- The march only ends at a crossing, so that the bracket is never refused.
      rw [new_of_crosses (hsound p q hcross)]
      refine C.of_bind (C.of_pure (P := fun b l => b = ⟨p, q, p.z, none⟩ ∧ l = 0) ⟨rfl, rfl⟩)
        fun b l hb => ?_
      refine C.of_bind (Bracket.holds_narrow C hf refinement ray.tolerance
        (ray.budget - w.evaluations) 0 b) fun r n hr => ?_
      exact C.of_pure (by dsimp only; omega)

end Ray

end FailureProbability.Root
