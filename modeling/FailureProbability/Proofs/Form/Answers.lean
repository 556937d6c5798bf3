import Mathlib
import FailureProbability.Proofs.Coherence
import FailureProbability.Proofs.Form.Extrapolation

/-!
# Searches that answer

On exact numbers there is nothing for the first-order method to fail by. Where the limit state has a
value at every point of an accepted setup, a trial keeps to points of that dimension, the one that
it puts together after its last step included (`Course.length_ending`). So there are physical values
wherever it ends, and every search answers (`exists_estimateFrom`); what it may miss is convergence
only, which the estimate tells.

With numbers that round the same search could fail: a value may overflow, and a gradient with it.
The setup is assumed to be accepted because a point has physical values then, and the limit state to
have a value at every point of the right dimension, whatever this value is. A search that may visit
no point at all would have nothing to end with, but such settings are refused.
-/

namespace FailureProbability

theorem Model.length_slope_of_gradientAt {α : Type} [Scalar α] {m : Model α} {u : List α} {du : α}
    {g : Gradient α} (hg : m.gradientAt u du = .ok g) : g.slope.length = u.length :=
  Runs.ensures_iff.mp (m.ensures_gradient u du) .empty g _
    ((m.computes_gradient u du g .empty _).mpr ⟨hg, rfl⟩)

namespace Form

variable [SpecialFunctions]

/-! ## Dimensions -/

/-- The direction that is put together has as many coordinates as the points. -/
theorem length_extrapolate {n : ℕ} {visits : List (Visit ℝ)} {last : Option (Direction ℝ)}
    (hvisits : visits ≠ []) (hlength : ∀ v ∈ visits, v.1.length = n)
    (hlast : ∀ d ∈ last, d.alpha.length = n) : (extrapolate visits last).alpha.length = n := by
  unfold extrapolate
  dsimp only
  rw [meanPoint_eq hvisits hlength]
  split
  · rw [List.length_map, length_centroid]
  · cases last with
    | none => exact (Direction.length_isotropic ..).trans (length_centroid ..)
    | some d => exact hlast d rfl

/-- A trial in a space of so many coordinates, with all that it remembers. -/
structure Trial.InSpace (n : ℕ) (t : Trial ℝ) : Prop where
  point : t.u.length = n
  visits : ∀ v ∈ t.visits, v.1.length = n
  last : ∀ d ∈ t.last, d.alpha.length = n

/-- A step stays in the space of the point it is taken from. -/
theorem Trial.InSpace.next {n : ℕ} {t : Trial ℝ} (ht : t.InSpace n) {g : Gradient ℝ}
    (hg : g.slope.length = t.u.length) (relaxation : ℝ) : (t.next relaxation g).InSpace n := by
  have hplane : (plane g t.u).alpha.length = t.u.length := length_tangent hg _
  refine ⟨(length_relax relaxation hplane).trans ht.point, fun v hv => ?_, fun d hd => ?_⟩
  · rcases List.mem_append.mp hv with hv | hv
    · refine ht.visits v ?_
      split at hv
      · exact List.mem_of_mem_drop hv
      · exact hv
    · obtain rfl := List.mem_singleton.mp hv
      exact ht.point
  · obtain rfl := Option.some.inj hd
    exact hplane.trans ht.point

variable {m : Model ℝ} {c : Config ℝ} {relaxation : ℝ}

/-- A trial that visits a point, or has visited one, ends in the same space. -/
theorem Course.length_ending {remaining steps : ℕ} {t : Trial ℝ} {j j' : Journal ℝ}
    {us : List (List ℝ)} {b : Ending ℝ} (h : Course m c relaxation remaining steps t j us b j')
    (ht : t.InSpace m.dimension) (hpoints : remaining = 0 → t.visits ≠ []) :
    b.u.length = m.dimension := by
  induction h with
  | exhausted =>
    exact (Direction.length_designPoint _).trans
      (length_extrapolate (hpoints rfl) ht.visits ht.last)
  | flat => exact ht.point
  | stopped => exact ht.point
  | converged => exact ht.point
  | goes hg _ _ _ _ ih =>
    exact ih (ht.next (Model.length_slope_of_gradientAt hg) relaxation) fun _ =>
      List.append_ne_nil_of_right_ne_nil _ (List.cons_ne_nil _ _)

/-! ## Answers -/

section

variable {v : List ℝ → ℝ} (hv : m.HasValues v) (hsetup : m.setup.Accepted) (hpoints : c.maxIterations ≠ 0)
  {start : List ℝ} (hstart : start.length = m.dimension)
include hv hsetup hpoints hstart

/-- A trial has a course, and its ending an estimate. -/
theorem exists_trial (relaxation : ℝ) (j : Journal ℝ) :
    ∃ e j', (trial m c start relaxation).exec j = (.ok e, j') := by
  have hnext (t : Trial ℝ) (g : Gradient ℝ) (ht : t.u.length = m.dimension)
      (hg : m.gradientAt t.u c.du = .ok g) : (t.next relaxation g).u.length = m.dimension :=
    (length_relax relaxation (length_tangent (Model.length_slope_of_gradientAt hg) _)).trans ht
  obtain ⟨us, b, j', hcourse⟩ := exists_course (P := fun u => u.length = m.dimension)
    (fun u hu => ⟨_, Model.gradientAt_eq hv hu c.du⟩) hnext c.maxIterations 0
    (t := ⟨start, [], none⟩) hstart j
  have hspace : (⟨start, [], none⟩ : Trial ℝ).InSpace m.dimension :=
    ⟨hstart, fun v hv => absurd hv List.not_mem_nil, nofun⟩
  obtain ⟨x, hx⟩ := Model.exists_x hsetup (hcourse.length_ending hspace fun hnone => absurd hnone hpoints)
  have hestimate : b.estimate m (0 + us.length) (0 + (2 * m.dimension + 1) * us.length) = .ok _ :=
    bind_eq_ok.mpr ⟨x, hx, rfl⟩
  exact ⟨_, j', (exec_iterate_of_course hcourse 0).trans (by rw [hestimate])⟩

/-- However many trials are left, the search answers. -/
theorem exists_trials (left steps evaluations : ℕ) (relaxation : ℝ) (j : Journal ℝ) :
    ∃ e j', (trials m c start left steps evaluations relaxation).exec j = (.ok e, j') := by
  induction left generalizing steps evaluations relaxation j with
  | zero =>
    obtain ⟨e, j', htrial⟩ := exists_trial hv hsetup hpoints hstart relaxation j
    rw [trials, Run.exec_bind_ok htrial]
    exact ⟨_, j', rfl⟩
  | succ left ih =>
    obtain ⟨e, j₁, htrial⟩ := exists_trial hv hsetup hpoints hstart relaxation j
    rw [trials, Run.exec_bind_ok htrial]
    dsimp only
    split
    · exact ⟨_, j₁, rfl⟩
    · exact ih ..

/-- A search from a point of the model answers. -/
theorem exists_estimateFrom (j : Journal ℝ) :
    ∃ e j', (estimateFrom c start m).exec j = (.ok e, j') := by
  unfold estimateFrom
  rw [if_neg (not_not.mpr hstart)]
  exact exists_trials hv hsetup hpoints hstart _ _ _ _ _

end

end Form

end FailureProbability
