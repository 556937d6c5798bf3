import FailureProbability.Proofs.Form.Trials

/-!
# Searches that begin where one has converged

A trial converges at the very point whose gradient has passed both tests; neither the relaxation nor
the points before it have a part in them (`ConvergesAt`). So a search that begins at the point of a
converged estimate has no further to go: it ends there at once and finds the same again.

The same means the same: no arithmetic is assumed, and gradients are taken at the same point with
the same step. The monitor must let both searches go on, as one that stops the second at its only
point would make another status of it. A search that has not converged is no fixed point; it begins
again with the whole relaxation.
-/

namespace FailureProbability.Form

variable {α : Type} [Scalar α] {m : Model α} {c : Config α}

/-- The limit state has a tangent plane at a point, and both residuals are within their
tolerances. -/
structure ConvergesAt (m : Model α) (c : Config α) (u : List α) (g : Gradient α) : Prop where
  gradient : m.gradientAt u c.du = .ok g
  plane : ¬IsFlat g
  residuals : HasConverged c g u

/-! ## Where a search has converged -/

/-- A trial that ends in success has converged at the point that it has come to. -/
theorem Course.convergesAt {relaxation : α} {remaining steps : Nat} {t : Trial α} {j j' : Journal α}
    {us : List (List α)} {b : Ending α} (h : Course m c relaxation remaining steps t j us b j')
    (hstatus : b.status = .success) :
    us ≠ [] ∧ ∃ g, ConvergesAt m c b.u g ∧ b.direction = plane g b.u := by
  induction h with
  | exhausted => cases hstatus
  | flat => cases hstatus
  | stopped => cases hstatus
  | @converged _ _ _ _ g hg hplane _ hconverged =>
    exact ⟨List.cons_ne_nil _ _, g, ⟨hg, hplane, hconverged⟩, rfl⟩
  | goes _ _ _ _ _ ih => exact ⟨List.cons_ne_nil _ _, (ih hstatus).2⟩

/-- What a converged estimate tells of its point, whichever trial has found it. -/
structure Tells (m : Model α) (c : Config α) (g : Gradient α) (e : Estimate α) : Prop where
  converges : ConvergesAt m c e.u g
  direction : e.direction = plane g e.u
  values : m.x e.u = .ok e.x
  method : e.method = name

/-- Whatever was tried before it, the trial that has converged tells all of the estimate. -/
theorem exists_tells_of_success {start : List α} {e : Estimate α} {j j' : Journal α}
    (h : (estimateFrom c start m).exec j = (.ok e, j')) (hstatus : e.status = .success) :
    0 < c.maxIterations ∧ ∃ g, Tells m c g e := by
  obtain ⟨-, n, -, es, js, -, -, htries, rfl, -⟩ := tries_of_exec h
  obtain ⟨us, b, x, hcourse, hx, hlast⟩ := course_of_exec_trial (htries.ran n le_rfl)
  have hsuccess : (es n).status = .success := hstatus
  rw [hlast] at hsuccess
  obtain ⟨hvisited, g, hconverges, hdirection⟩ := hcourse.convergesAt hsuccess
  have hpoints := (List.length_pos_iff.mpr hvisited).trans_le hcourse.length_le
  refine ⟨hpoints, g, ?_, ?_, ?_, ?_⟩ <;> simp only [lastOf, hlast]
  · exact hconverges
  · exact hdirection
  · exact hx

/-! ## The search from there -/

section

variable (hproceed : ∀ before p, m.monitor before p = .proceed)
include hproceed

/-- A trial that begins where one converges ends there with its first point. -/
theorem course_of_convergesAt {u : List α} {g : Gradient α} (h : ConvergesAt m c u g)
    (hpoints : 0 < c.maxIterations) (relaxation : α) (j : Journal α) :
    Course m c relaxation c.maxIterations 0 ⟨u, [], none⟩ j [u] ⟨.success, plane g u, u⟩
      (noted m c 1 g u j) := by
  obtain ⟨remaining, hremaining⟩ := Nat.exists_eq_add_one.mpr hpoints
  rw [hremaining]
  exact .converged (t := ⟨u, [], none⟩) h.gradient h.plane (hproceed _ _) h.residuals

/-- The first trial ends at its first point, and so it is the last one. -/
theorem exec_estimateFrom_of_tells {e : Estimate α} {g : Gradient α} (h : Tells m c g e)
    (hstatus : e.status = .success) (hpoints : 0 < c.maxIterations) (j : Journal α) :
    (estimateFrom c e.u m).exec j =
      (.ok { e with steps := 1, evaluations := 2 * m.dimension + 1 }, noted m c 1 g e.u j) := by
  have hcourse := course_of_convergesAt hproceed h.converges hpoints c.relaxation j
  have htrial : (trial m c e.u c.relaxation).exec j =
      (.ok { e with steps := 1, evaluations := 2 * m.dimension + 1 }, noted m c 1 g e.u j) := by
    rw [trial, exec_iterate_of_course hcourse, Ending.estimate, h.values, ← h.direction, ← hstatus,
      ← h.method, List.length_singleton, Nat.mul_one, Nat.zero_add, Nat.zero_add]
    rfl
  have hended : e.status ≠ .noConvergence := by rw [hstatus]; decide
  have hstart : e.u.length = m.dimension := Model.length_of_gradientAt h.converges.gradient
  unfold estimateFrom
  rw [if_neg (not_not.mpr hstart), exec_trials_of_ended htrial hended]
  dsimp only
  rw [Nat.zero_add, Nat.zero_add]

/-- **Restarts.** A search that has converged, from a given start or from that of its settings and
after however many trials, can be repeated from its own point: it converges there with its first
point, at the cost of one gradient, and its estimate is the same in all but what it counts. -/
theorem restart_is_fixed_point {e : Estimate α} {j j' : Journal α}
    (h : (estimate c m).exec j = (.ok e, j') ∨
      ∃ start, (estimateFrom c start m).exec j = (.ok e, j'))
    (hstatus : e.status = .success) (j₁ : Journal α) :
    ∃ j₂, (estimateFrom c e.u m).exec j₁ =
        (.ok { e with steps := 1, evaluations := 2 * m.dimension + 1 }, j₂) ∧
      j₂.evaluations = j₁.evaluations + (2 * m.dimension + 1) := by
  have hsearch : 0 < c.maxIterations ∧ ∃ g, Tells m c g e := by
    rcases h with h | ⟨start, h⟩
    · obtain ⟨start, j₀, -, h⟩ := Run.exec_bind_eq_ok.mp h
      obtain ⟨e₀, j₀', h, hcounted⟩ := Run.exec_bind_eq_ok.mp h
      cases hcounted
      -- The evaluations of the start are added to the estimate and change nothing else of it.
      obtain ⟨hpoints, g, he⟩ := exists_tells_of_success h hstatus
      exact ⟨hpoints, g, he.converges, he.direction, he.values, he.method⟩
    · exact exists_tells_of_success h hstatus
  obtain ⟨hpoints, g, he⟩ := hsearch
  exact ⟨_, exec_estimateFrom_of_tells hproceed he hstatus hpoints j₁, evaluations_noted ..⟩

end

open Estimator.Tree (belowMinusOne fullSteps) in
/-- A search that took two points needs only the second one when it begins there. -/
theorem restart_is_fixed_point_fullSteps :
    (∀ before p, belowMinusOne.monitor before p = .proceed) ∧ ∃ e j' j₂,
      (estimate fullSteps belowMinusOne).exec .empty = (.ok e, j') ∧ e.status = .success ∧
        e.steps = 2 ∧ (estimateFrom fullSteps e.u belowMinusOne).exec j' =
          (.ok { e with steps := 1, evaluations := 3 }, j₂) ∧ j₂.evaluations = 9 := by
  have hproceed : ∀ before p, belowMinusOne.monitor before p = .proceed := fun _ _ => rfl
  have hrun : (((estimate fullSteps belowMinusOne).exec .empty).1.toOption.map fun e =>
      (e.status, e.steps)) = some (.success, 2) ∧
        ((estimate fullSteps belowMinusOne).exec .empty).2.evaluations = 6 := by decide +kernel
  rcases h : (estimate fullSteps belowMinusOne).exec .empty with ⟨err | e, j'⟩
  · rw [h] at hrun
    cases hrun.1
  · rw [h] at hrun
    obtain ⟨hstatus, hsteps⟩ := Prod.mk.inj (Option.some.inj hrun.1)
    obtain ⟨j₂, hrestart, hspent⟩ := restart_is_fixed_point hproceed (.inl h) hstatus j'
    refine ⟨hproceed, e, j', j₂, rfl, hstatus, hsteps, hrestart, ?_⟩
    rw [hspent, hrun.2]
    rfl

end FailureProbability.Form
