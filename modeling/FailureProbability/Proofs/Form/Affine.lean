import Mathlib
import FailureProbability.Proofs.Form.Trials
import FailureProbability.Proofs.Setup.Exchange

/-!
# Affine limit states

The tangent plane of an affine limit state is the limit state itself, at every point. So all planes
of a search have one direction, that of the slope, and one reliability index, the distance of the
limit state from the origin in the length of the slope; and every step of a trial goes the same
share of the way to one design point. A full step ends there.

Affine is meant in the coordinates of the search (`Model.IsAffine`), where the setup plays no part.
The slope must not be shorter than the length below which the method takes a gradient for zero.
Numbers are exact, and no point is too far away for the differences to be exact.

Searches may be stopped by any monitor, at any report, and what is said of reports and directions
holds for them as well. Physical values are wanted for an estimate, and so the existence of one
needs a setup that was accepted; the other statements are about searches that have answered.
-/

namespace FailureProbability

open Coordinates (dot norm)

namespace Form

section

variable [SpecialFunctions]

/-! ## The direction of an affine limit state

The plane through the zeros of the limit state is the same at every point, and so are its distance
from the origin and the direction of its nearest point. A step of a trial then is an affine map
with this nearest point as its fixed point. -/

theorem gradientFloor_pos : (0 : ℝ) < gradientFloor := by
  show (0 : ℝ) < OfScientific.ofScientific 1 true 10
  norm_num

/-- The direction of the limit state with this value at the origin and this slope. -/
noncomputable def affineDirection (offset : ℝ) (slope : List ℝ) : Direction ℝ :=
  ⟨offset / norm slope, Coordinates.divide slope (norm slope)⟩

variable {offset : ℝ} {slope : List ℝ}

theorem length_designPoint_affine :
    (affineDirection offset slope).designPoint.length = slope.length := by
  rw [Direction.length_designPoint]
  exact Coordinates.length_divide ..

/-- The design point lies on the limit state. -/
theorem value_designPoint (hslope : norm slope ≠ 0) :
    offset + dot slope (affineDirection offset slope).designPoint = 0 := by
  unfold affineDirection Direction.designPoint
  rw [Coordinates.divide_eq_scale, Coordinates.dot_scale, Coordinates.dot_scale,
    ← Coordinates.norm_mul_self]
  field_simp
  ring

/-- The design point lies at the distance of the reliability index. -/
theorem dot_designPoint (hslope : norm slope ≠ 0) :
    dot (affineDirection offset slope).designPoint (affineDirection offset slope).designPoint =
      (affineDirection offset slope).beta * (affineDirection offset slope).beta := by
  unfold affineDirection Direction.designPoint
  rw [Coordinates.divide_eq_scale, Coordinates.scale_dot, Coordinates.scale_dot,
    Coordinates.dot_scale, Coordinates.dot_scale, ← Coordinates.norm_mul_self]
  field_simp

/-- The share of the way that is left after a step. -/
def Approaches (relaxation : ℝ) (target u v : List ℝ) : Prop :=
  List.zipWith (· - ·) v target =
    Coordinates.scale (1 - relaxation) (List.zipWith (· - ·) u target)

/-- A step goes to a mean of the point and the design point, weighted with the relaxation. -/
theorem approaches_relax (relaxation : ℝ) (u : List ℝ) (d : Direction ℝ) :
    Approaches relaxation d.designPoint u (relax relaxation u d) := by
  unfold Approaches relax
  rw [Scalar.one_eq]
  generalize d.designPoint = target
  induction u generalizing target with
  | nil => rfl
  | cons x u ih =>
    cases target with
    | nil => rfl
    | cons y target =>
      have hfirst : (1 - relaxation) * x + relaxation * y - y = (1 - relaxation) * (x - y) := by ring
      rw [List.zipWith_cons_cons, List.zipWith_cons_cons, List.zipWith_cons_cons, ih, hfirst]
      rfl

/-- A full step leads to the design point. -/
theorem relax_one {u : List ℝ} {d : Direction ℝ} (h : u.length = d.designPoint.length) :
    relax 1 u d = d.designPoint := by
  unfold relax
  rw [Scalar.one_eq]
  revert h
  generalize d.designPoint = target
  induction u generalizing target with
  | nil => exact fun h => (List.length_eq_zero_iff.mp h.symm).symm
  | cons x u ih =>
    cases target with
    | nil => exact fun h => absurd h (Nat.succ_ne_zero _)
    | cons y target =>
      intro h
      rw [List.zipWith_cons_cons, ih target (Nat.succ.inj h), sub_self, zero_mul, one_mul, zero_add]

/-! ## Every point of a trial

At every point the gradient is the slope, and the plane that it gives has the direction of the
limit state. So a trial may only differ from another one in its points, and those approach the
design point by the same share at every step, whether the trial converges or not. -/

section

variable {m : Model ℝ} {c : Config ℝ} (hm : m.IsAffine offset slope) (hdu : c.du ≠ 0)
include hm hdu

/-- Every gradient is the slope, and its value is that of the point. -/
theorem gradient_eq {u : List ℝ} {g : Gradient ℝ} (hg : m.gradientAt u c.du = .ok g) :
    g.slope = slope ∧ g.z = offset + dot slope u := by
  rw [hm.gradientAt_eq (Model.length_of_gradientAt hg) hdu] at hg
  cases hg
  exact ⟨rfl, rfl⟩

/-- All tangent planes have one direction. -/
theorem plane_eq {u : List ℝ} {g : Gradient ℝ} (hg : m.gradientAt u c.du = .ok g) :
    plane g u = affineDirection offset slope := by
  obtain ⟨hslope, hz⟩ := gradient_eq hm hdu hg
  unfold plane tangent affineDirection
  rw [hslope, hz, add_sub_cancel_right]

variable {relaxation : ℝ} {remaining steps : ℕ} {t : Trial ℝ} {j j' : Journal ℝ}

theorem adds_noted {g : Gradient ℝ} (hg : m.gradientAt t.u c.du = .ok g) :
    j.Adds (fun r => r.progress.beta = offset / norm slope) (noted m c steps g t.u j) := by
  refine .trans (Journal.adds_of_reports_eq (j.reports_spend (2 * m.dimension + 1)))
    (Journal.adds_record ?_)
  show (plane g t.u).beta = offset / norm slope
  rw [plane_eq hm hdu hg]
  rfl

variable {us : List (List ℝ)} {b : Ending ℝ}

/-- All reports of a trial tell the same reliability index. -/
theorem Course.adds (h : Course m c relaxation remaining steps t j us b j') :
    j.Adds (fun r => r.progress.beta = offset / norm slope) j' := by
  induction h with
  | exhausted => exact Journal.adds_of_reports_eq rfl
  | flat => exact Journal.adds_of_reports_eq (Journal.reports_spend ..)
  | stopped hg => exact adds_noted hm hdu hg
  | converged hg => exact adds_noted hm hdu hg
  | goes hg _ _ _ _ ih => exact (adds_noted hm hdu hg).trans ih

/-- Wherever a trial ends at a tangent plane, it has found the direction. -/
theorem Course.direction_eq (h : Course m c relaxation remaining steps t j us b j')
    (hstatus : b.status ≠ .noConvergence) :
    b.direction = affineDirection offset slope := by
  induction h with
  | exhausted => exact absurd rfl hstatus
  | flat => exact absurd rfl hstatus
  | stopped hg => exact plane_eq hm hdu hg
  | converged hg => exact plane_eq hm hdu hg
  | goes _ _ _ _ _ ih => exact ih hstatus

/-- From point to point the distance from the design point shrinks by the same factor. -/
theorem Course.isChain (h : Course m c relaxation remaining steps t j us b j') :
    us.IsChain (Approaches relaxation (affineDirection offset slope).designPoint) := by
  induction h with
  | exhausted => exact .nil
  | flat => exact .singleton _
  | stopped => exact .singleton _
  | converged => exact .singleton _
  | @goes remaining steps t j j' g us b hg _ _ _ hrest ih =>
    refine ih.cons fun v hv => ?_
    rw [hrest.eq_of_head? hv, ← plane_eq hm hdu hg]
    exact approaches_relax relaxation t.u (plane g t.u)

/-- A trial never leaves the points at which there is a gradient. -/
theorem exists_course_affine (relaxation : ℝ) (remaining steps : ℕ) {t : Trial ℝ}
    (ht : t.u.length = m.dimension) (j : Journal ℝ) :
    ∃ us b j', Course m c relaxation remaining steps t j us b j' := by
  refine exists_course (P := fun u => u.length = m.dimension) (fun u hu => ?_)
    (fun t g ht hg => ?_) remaining steps ht j
  · exact ⟨_, hm.gradientAt_eq hu hdu⟩
  · show (relax relaxation t.u (plane g t.u)).length = m.dimension
    rw [plane_eq hm hdu hg, relax, List.length_zipWith, length_designPoint_affine, hm.length_slope,
      ht, Nat.min_self]

end

/-! ## All trials -/

section

variable {m : Model ℝ} {c : Config ℝ} (hm : m.IsAffine offset slope) (hdu : c.du ≠ 0)
include hm hdu

theorem reports_trial {start : List ℝ} (hstart : start.length = m.dimension) (relaxation : ℝ) :
    Run.Reports (trial m c start relaxation) fun r => r.progress.beta = offset / norm slope := by
  intro j
  obtain ⟨us, b, j', hcourse⟩ :=
    exists_course_affine hm hdu relaxation c.maxIterations 0 (t := ⟨start, [], none⟩) hstart j
  rw [trial, exec_iterate_of_course hcourse]
  exact hcourse.adds hm hdu

/-- All reports of a search tell the same reliability index. -/
theorem reports_estimateFrom (start : List ℝ) :
    Run.Reports (estimateFrom c start m) fun r => r.progress.beta = offset / norm slope := by
  have htrials : start.length = m.dimension → ∀ left steps evaluations relaxation,
      Run.Reports (trials m c start left steps evaluations relaxation) fun r =>
        r.progress.beta = offset / norm slope := by
    intro hstart left
    induction left with
    | zero =>
      exact fun _ _ relaxation => (reports_trial hm hdu hstart relaxation).bind fun e =>
        Run.reports_pure _
    | succ left ih =>
      refine fun _ _ relaxation => (reports_trial hm hdu hstart relaxation).bind fun e => ?_
      dsimp only
      split
      · exact Run.reports_pure _
      · exact ih _ _ _
  unfold estimateFrom
  split
  case isTrue => exact Run.reports_throw _
  case isFalse hstart => exact htrials (not_not.mp hstart) _ _ _ _

/-- Wherever a search ends at a tangent plane, it has found the direction. -/
theorem direction_of_exec {start : List ℝ} {e : Estimate ℝ} {j j' : Journal ℝ}
    (h : (estimateFrom c start m).exec j = (.ok e, j')) (hstatus : e.status ≠ .noConvergence) :
    e.direction = affineDirection offset slope := by
  obtain ⟨-, n, -, es, js, -, -, htries, rfl, -⟩ := tries_of_exec h
  obtain ⟨us, b, x, hcourse, -, hes⟩ := course_of_exec_trial (htries.ran n le_rfl)
  have hended : (es n).status ≠ .noConvergence := hstatus
  show (es n).direction = affineDirection offset slope
  rw [hes] at hended ⊢
  exact hcourse.direction_eq hm hdu hended

end

/-! ## Full steps

A full step leads to the design point at once, and there both residuals are zero. A search that
nobody stops is therefore at its end after two points at most. One is enough if it has started
close to the design point. -/

theorem validate_tolerances {c : Config ℝ} (hc : c.validate = .ok ()) :
    0 < c.epsBeta ∧ 0 < c.epsZ ∧ 0 < c.du := by
  obtain ⟨-, -, ⟨hbeta, hz, hdu⟩, -⟩ := Config.validate_iff.mp hc
  rw [Scalar.isPositive_eq, decide_eq_true_iff] at hbeta hz hdu
  exact ⟨hbeta, hz, hdu⟩

section

variable {m : Model ℝ} {c : Config ℝ} (hm : m.IsAffine offset slope)
  (hfloor : gradientFloor ≤ norm slope) (hc : c.validate = .ok ())
include hm hfloor hc

theorem not_isFlat {u : List ℝ} {g : Gradient ℝ} (hg : m.gradientAt u c.du = .ok g) :
    ¬IsFlat g := by
  unfold IsFlat
  rw [(gradient_eq hm (validate_tolerances hc).2.2.ne' hg).1]
  exact not_lt.mpr hfloor

/-- At the design point both residuals are zero. -/
theorem hasConverged_designPoint {g : Gradient ℝ}
    (hg : m.gradientAt (affineDirection offset slope).designPoint c.du = .ok g) :
    HasConverged c g (affineDirection offset slope).designPoint := by
  obtain ⟨hbeta, hz, hdu⟩ := validate_tolerances hc
  have hslope : norm slope ≠ 0 := (gradientFloor_pos.trans_le hfloor).ne'
  unfold HasConverged zResidual betaResidual
  rw [plane_eq hm hdu.ne' hg, (gradient_eq hm hdu.ne' hg).2, value_designPoint hslope,
    dot_designPoint hslope, sub_self, zero_div, Scalar.abs_eq, abs_zero, zero_div]
  exact ⟨hz, hbeta⟩

/-- The monitor has answered the last report with the order to stop. -/
def WasStopped (m : Model ℝ) (j : Journal ℝ) : Prop :=
  ∃ r earlier, j.reports = r :: earlier ∧ m.monitor earlier r.progress = .abort

omit hm hfloor hc in
theorem wasStopped_noted {g : Gradient ℝ} {u : List ℝ} {steps : ℕ} {j : Journal ℝ}
    (h : m.answer j (progressAt c steps g u) = .abort) : WasStopped m (noted m c steps g u j) :=
  ⟨_, j.reports, congrArg _ (j.reports_spend _), h⟩

omit hm hfloor hc in
/-- A point at which a trial that goes on has converged is the last one. -/
theorem course_of_last {t : Trial ℝ} {g : Gradient ℝ} (hg : m.gradientAt t.u c.du = .ok g)
    (hplane : ¬IsFlat g) {j : Journal ℝ} {steps : ℕ}
    (hlast : m.answer j (progressAt c (steps + 1) g t.u) = .proceed → HasConverged c g t.u)
    (relaxation : ℝ) (remaining : ℕ) :
    ∃ b j', Course m c relaxation (remaining + 1) steps t j [t.u] b j' ∧ b.u = t.u ∧
      (b.status = .success ∨ b.status = .abortedByUser ∧ WasStopped m j') := by
  cases hanswer : m.answer j (progressAt c (steps + 1) g t.u) with
  | proceed => exact ⟨_, _, .converged hg hplane hanswer (hlast hanswer), rfl, .inl rfl⟩
  | abort =>
    exact ⟨_, _, .stopped hg hplane hanswer, rfl, .inr ⟨rfl, wasStopped_noted hanswer⟩⟩

/-- A trial with full steps comes to its end at its first or second point. -/
theorem course_of_full_steps (remaining steps : ℕ) {t : Trial ℝ} (ht : t.u.length = m.dimension)
    (j : Journal ℝ) :
    ∃ us b j', Course m c 1 (remaining + 2) steps t j us b j' ∧ us.length ≤ 2 ∧
      b.u.length = m.dimension ∧
      (b.status = .success ∨ b.status = .abortedByUser ∧ WasStopped m j') := by
  have hdu := (validate_tolerances hc).2.2.ne'
  obtain ⟨g, hg⟩ : ∃ g, m.gradientAt t.u c.du = .ok g := ⟨_, hm.gradientAt_eq ht hdu⟩
  have hplane := not_isFlat hm hfloor hc hg
  by_cases hlast : m.answer j (progressAt c (steps + 1) g t.u) = .proceed → HasConverged c g t.u
  · obtain ⟨b, j', hcourse, hu, hcompleted⟩ := course_of_last hg hplane hlast 1 (remaining + 1)
    exact ⟨_, b, j', hcourse, Nat.le_succ 1, hu ▸ ht, hcompleted⟩
  · obtain ⟨hanswer, hnot⟩ := Classical.not_imp.mp hlast
    have hlength : (affineDirection offset slope).designPoint.length = m.dimension :=
      length_designPoint_affine.trans hm.length_slope
    have hnext : (t.next 1 g).u = (affineDirection offset slope).designPoint := by
      show relax 1 t.u (plane g t.u) = _
      rw [plane_eq hm hdu hg]
      exact relax_one (ht.trans hlength.symm)
    have hg' := hm.gradientAt_eq (hnext ▸ hlength) hdu
    have hconverged := hasConverged_designPoint hm hfloor hc (hnext ▸ hg')
    obtain ⟨b, j', hcourse, hu, hcompleted⟩ := course_of_last hg' (not_isFlat hm hfloor hc hg')
      (fun _ => hnext.symm ▸ hconverged) 1 remaining
    exact ⟨_, b, j', .goes hg hplane hanswer hnot hcourse, le_rfl, by rw [hu, hnext, hlength],
      hcompleted⟩

/-- With two points to visit, a search with full steps answers and takes no more of them. -/
theorem exists_completed (hone : c.relaxation = 1) (hpoints : 2 ≤ c.maxIterations)
    (hsetup : m.setup.Reached) {start : List ℝ} (hstart : start.length = m.dimension)
    (j : Journal ℝ) :
    ∃ e j', (estimateFrom c start m).exec j = (.ok e, j') ∧ e.steps ≤ 2 ∧
      (e.status = .success ∨ e.status = .abortedByUser ∧ WasStopped m j') := by
  obtain ⟨k, hk⟩ : ∃ k, c.maxIterations = k + 2 := ⟨_, (Nat.sub_add_cancel hpoints).symm⟩
  obtain ⟨us, b, j', hcourse, hlength, hu, hcompleted⟩ :=
    course_of_full_steps hm hfloor hc k 0 (t := ⟨start, [], none⟩) hstart j
  obtain ⟨x, hx⟩ := Model.exists_x hsetup.settled.accepted hu
  have htrial : (trial m c start c.relaxation).exec j =
      (b.estimate m (0 + us.length) (0 + (2 * m.dimension + 1) * us.length), j') := by
    rw [trial, hk, hone]
    exact exec_iterate_of_course hcourse 0
  have hestimate : b.estimate m (0 + us.length) (0 + (2 * m.dimension + 1) * us.length) = .ok _ :=
    bind_eq_ok.mpr ⟨x, hx, rfl⟩
  rw [hestimate] at htrial
  have hended : b.status ≠ .noConvergence := by
    rcases hcompleted with hstatus | ⟨hstatus, -⟩ <;> rw [hstatus] <;> decide
  unfold estimateFrom
  rw [if_neg (not_not.mpr hstart), exec_trials_of_ended htrial hended]
  exact ⟨_, j', rfl, by dsimp only; omega, hcompleted⟩

end

/-- **Affine limit states.** On an affine limit state that is not too flat the first-order method is
exact: every report tells the reliability index of the limit state, and every search that has not
run out of points, whether it has converged or was stopped, its direction. Every step of a trial
leaves the same share of the way to the design point, and with full steps a search that nobody stops
has converged at its second point at the latest. -/
theorem affine_limit_state_is_exact {m : Model ℝ} (hm : m.IsAffine offset slope)
    (hfloor : gradientFloor ≤ norm slope) {c : Config ℝ} (hc : c.validate = .ok ()) :
    (∀ (start : List ℝ) (j : Journal ℝ), ∃ reports,
      ((estimateFrom c start m).exec j).2.reports = reports ++ j.reports ∧
        ∀ r ∈ reports, r.progress.beta = offset / norm slope) ∧
    (∀ (start : List ℝ) (e : Estimate ℝ) (j j' : Journal ℝ),
      (estimateFrom c start m).exec j = (.ok e, j') →
      e.status = .success ∨ e.status = .abortedByUser →
      e.direction.beta = offset / norm slope ∧
        e.direction.alpha = Coordinates.divide slope (norm slope)) ∧
    (∀ (start : List ℝ), start.length = m.dimension → ∀ (relaxation : ℝ) (j : Journal ℝ),
      ∃ us b j', Course m c relaxation c.maxIterations 0 ⟨start, [], none⟩ j us b j' ∧
        (trial m c start relaxation).exec j =
          (b.estimate m us.length ((2 * m.dimension + 1) * us.length), j') ∧
        (∀ u ∈ us.head?, u = start) ∧ (∀ u ∈ us, u.length = m.dimension) ∧
        us.IsChain (Approaches relaxation (affineDirection offset slope).designPoint)) ∧
    (c.relaxation = 1 → 2 ≤ c.maxIterations → m.setup.Reached →
      ∀ start : List ℝ, start.length = m.dimension → ∀ j : Journal ℝ,
      ∃ e j', (estimateFrom c start m).exec j = (.ok e, j') ∧ e.steps ≤ 2 ∧
        (e.status = .success ∨ e.status = .abortedByUser ∧ WasStopped m j')) := by
  have hdu := (validate_tolerances hc).2.2.ne'
  refine ⟨reports_estimateFrom hm hdu, ?results, ?points, ?fullSteps⟩
  case results =>
    intro start e j j' h hstatus
    have hended : e.status ≠ .noConvergence := by
      rcases hstatus with hstatus | hstatus <;> rw [hstatus] <;> decide
    rw [direction_of_exec hm hdu h hended]
    exact ⟨rfl, rfl⟩
  case points =>
    intro start hstart relaxation j
    obtain ⟨us, b, j', hcourse⟩ :=
      exists_course_affine hm hdu relaxation c.maxIterations 0 (t := ⟨start, [], none⟩) hstart j
    have hexec := exec_iterate_of_course hcourse 0
    rw [Nat.zero_add, Nat.zero_add] at hexec
    exact ⟨us, b, j', hcourse, hexec, fun u hu => hcourse.eq_of_head? hu, hcourse.length_of_mem,
      hcourse.isChain hm hdu⟩
  case fullSteps =>
    intro hone hpoints hsetup start hstart j
    exact exists_completed hm hfloor hc hone hpoints hsetup hstart j

end

/-! ## A plane -/

/-- Independent standard-normal variables with an affine limit state. They are their own
coordinates, so that the limit state may be given by its slope. -/
noncomputable def planeModel (offset : ℝ) (slope : List ℝ) : Model ℝ :=
  ⟨.standardNormals slope.length, fun d => .ok (offset + dot slope d.u), 1, .silent⟩

/-- Full steps, and two points at most. -/
noncomputable def twoFullSteps : Config ℝ := ⟨2, 1, 1, 1, 1, 1, .zero⟩

theorem norm_three_four : norm ([3, 4] : List ℝ) = 5 := by
  rw [Coordinates.norm_eq_sqrt_dot, Coordinates.dot_cons, Coordinates.dot_cons,
    Coordinates.dot_nil_left]
  norm_num

/-- A plane at distance one: two full steps find its index and its direction. -/
theorem affine_limit_state_is_exact_plane :
    (planeModel 5 [3, 4]).IsAffine 5 [3, 4] ∧ gradientFloor ≤ norm ([3, 4] : List ℝ) ∧
      twoFullSteps.validate = .ok () ∧ ∃ e j',
        (estimateFrom twoFullSteps [7, 7] (planeModel 5 [3, 4])).exec .empty = (.ok e, j') ∧
          e.status = .success ∧ e.steps ≤ 2 ∧ e.direction.beta = 1 := by
  have haffine : (planeModel 5 [3, 4]).IsAffine 5 [3, 4] := ⟨rfl, fun _ _ => rfl⟩
  have hfloor : gradientFloor ≤ norm ([3, 4] : List ℝ) := by
    rw [norm_three_four]
    show OfScientific.ofScientific 1 true 10 ≤ (5 : ℝ)
    norm_num
  have hpositive : ∀ x : ℝ, 0 < x → Scalar.isPositive x = true := fun x hx => by
    rw [Scalar.isPositive_eq, decide_eq_true hx]
  have hrelaxation : (0 : ℝ) < twoFullSteps.relaxation ∧ twoFullSteps.relaxation ≤ 1 :=
    ⟨one_pos, le_rfl⟩
  have hvalid : twoFullSteps.validate = .ok () := by
    refine Config.validate_iff.mpr ⟨two_ne_zero, ?_, ⟨hpositive 1 one_pos, hpositive 1 one_pos,
      hpositive 1 one_pos⟩, one_ne_zero⟩
    rwa [Scalar.zero_eq, Scalar.one_eq]
  have hreached : (planeModel 5 [3, 4]).setup.Reached :=
    .new (show Setup.new [.standardNormal, .standardNormal] (.identity 2) = .ok _ from rfl)
  obtain ⟨-, hresults, -, hfull⟩ := affine_limit_state_is_exact haffine hfloor hvalid
  obtain ⟨e, j', hexec, hsteps, hended⟩ := hfull rfl le_rfl hreached [7, 7] rfl .empty
  have hstatus : e.status = .success := by
    rcases hended with hstatus | ⟨-, r, earlier, -, hstopped⟩
    · exact hstatus
    · cases hstopped
  have hbeta := (hresults [7, 7] e .empty j' hexec (.inl hstatus)).1
  rw [norm_three_four, div_self (by norm_num)] at hbeta
  exact ⟨haffine, hfloor, hvalid, e, j', hexec, hstatus, hsteps, hbeta⟩

end Form

end FailureProbability
