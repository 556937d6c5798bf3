import FailureProbability.Proofs.Cancellation.Sampling
import FailureProbability.Proofs.Directional
import FailureProbability.Proofs.Grid

/-!
# Cancellation of single methods

After an order to stop a method has nothing left but the physical values of its design point, which
exist if the point has as many coordinates as the model has. A search for the design point is at a
point that has just been evaluated; tallies keep points of the model only.

What is supposed of the setup is that it was accepted: then every point of the model has physical
values, whatever the marginals do there. Nothing is supposed of the limit state. It may fail at any
point, which is an error of the run only as long as there was no order to stop.
-/

namespace FailureProbability

variable {α : Type} [Scalar α]

/-! ## The first-order method

A trial reports at every point that has a tangent plane, before it asks whether it has converged.
An order to stop therefore finds it at a point whose plane is known, and the estimate is made of
this point without another evaluation. The loop over the trials looks at the status first. -/

namespace Start

/-- Where a search starts is found without a report, also when a ray is searched for it. -/
theorem silent_find (s : Start α) (m : Model α) : Runs.Silent (s.find m) fun _ => True := by
  unfold find
  cases s with
  | zero => exact Runs.silent_pure trivial
  | one => exact Runs.silent_pure trivial
  | given u =>
    dsimp only
    by_cases h : u.length ≠ m.dimension ∨ Coordinates.allFinite u = false
    · rw [if_pos h]
      exact Runs.silent_throw _ _
    · rw [if_neg h]
      exact Runs.silent_pure trivial
  | raySearch direction step maxLength =>
    refine Runs.silent_bind (Runs.silent_ofExcept _) fun ray _ => ?_
    refine Runs.silent_bind (m.silent_z _) fun z0 _ => ?_
    have hsearch := Root.Ray.holds_find (Runs.silent (Run α))
      (f := fun r => m.z (Coordinates.scale r ray))
      (fun r => (m.silent_z _).mono fun _ _ => ⟨1, rfl⟩)
      { Root.Ray.standard with step := step, maxLength := maxLength } z0
    refine Runs.silent_bind hsearch fun search _ => ?_
    exact Runs.silent_pure trivial

end Start

namespace Form

variable {m : Model α}

theorem silent_finish (status : Status) (d : Direction α) (u : List α) (steps evaluations : Nat) :
    Runs.Silent (finish m status d u steps evaluations) fun e => e.status = status := by
  refine Runs.silent_bind (Runs.silent_ofExcept _) fun x _ => ?_
  exact Runs.silent_pure rfl

/-- A trial that comes to its end was not told to stop. -/
theorem heeds_finish {status : Status} (hstatus : status ≠ .abortedByUser) (d : Direction α)
    (u : List α) (steps evaluations : Nat) :
    Runs.Heeds (finish m status d u steps evaluations) fun order e => e.Obeys order := by
  refine (silent_finish status d u steps evaluations).heeds.mono ?_
  rintro order e ⟨rfl, he⟩
  exact Estimate.obeys_proceed (he ▸ hstatus)

variable (hm : m.setup.Accepted)
include hm

theorem ends_finish (d : Direction α) {u : List α} (hu : u.length = m.dimension)
    (steps evaluations : Nat) :
    Runs.Ends (finish m .abortedByUser d u steps evaluations) fun e => e.Obeys .abort := by
  refine Runs.ends_bind (Runs.ends_ofExcept (m.exists_x hm hu) fun x hx => hx) fun x _ => ?_
  exact Runs.ends_pure (Estimate.obeys_abort rfl)

/-- A trial that is told to stop ends at the point where it is. -/
theorem heeds_iterate (c : Config α) (relaxation : α) (remaining steps evaluations : Nat)
    (t : Trial α) :
    Runs.Heeds (iterate m c relaxation remaining steps evaluations t) fun order e =>
      e.Obeys order := by
  induction remaining generalizing steps evaluations t with
  | zero => exact heeds_finish (by decide) _ _ _ _
  | succ remaining ih =>
    unfold iterate
    refine (m.silent_gradient t.u c.du).heeds_bind fun g hu => ?_
    dsimp only
    by_cases hflat : Coordinates.norm g.slope < gradientFloor
    · rw [if_pos hflat]
      exact heeds_finish (by decide) _ _ _ _
    · rw [if_neg hflat]
      refine Runs.heeds_bind (m.heeds_report _) (fun stop hstop => ?_) fun stop hstop => ?_
      · have hno : ¬stop = true := by simp [hstop]
        rw [if_neg hno]
        split
        · exact heeds_finish (by decide) _ _ _ _
        · exact ih _ _ _
      · -- The gradient was known, so that the point is one of the model.
        rw [if_pos (hstop.mpr rfl)]
        exact ends_finish hm _ hu _ _

theorem heeds_trial (c : Config α) (start : List α) (relaxation : α) :
    Runs.Heeds (trial m c start relaxation) fun order e => e.Obeys order :=
  heeds_iterate hm c relaxation c.maxIterations 0 0 ⟨start, [], none⟩

/-- A trial that was told to stop is the last one. -/
theorem heeds_trials (c : Config α) (start : List α) (left steps evaluations : Nat)
    (relaxation : α) :
    Runs.Heeds (trials m c start left steps evaluations relaxation) fun order e =>
      e.Obeys order := by
  induction left generalizing steps evaluations relaxation with
  | zero =>
    unfold trials
    exact Runs.heeds_bind (heeds_trial hm c start relaxation) (fun e he => Runs.heeds_pure he)
      fun e he => Runs.ends_pure he
  | succ left ih =>
    unfold trials
    refine Runs.heeds_bind (heeds_trial hm c start relaxation) (fun e he => ?_) fun e he => ?_
    · dsimp only
      split
      · exact Runs.heeds_pure he
      · exact ih _ _ _
    · have hstatus : e.status = .abortedByUser := he.mpr rfl
      dsimp only
      rw [if_pos (by rw [hstatus]; decide)]
      exact Runs.ends_pure he

theorem heeds_estimateFrom (c : Config α) (start : List α) :
    Runs.Heeds (estimateFrom c start m) fun order e => e.Obeys order := by
  unfold estimateFrom
  split
  · exact Runs.heeds_throw _ _
  · exact heeds_trials hm c start _ _ _ _

theorem heeds_estimate (c : Config α) :
    Runs.Heeds (estimate c m) fun order e => e.Obeys order := by
  refine (c.start.silent_find m).heeds_bind fun start _ => ?_
  exact Runs.heeds_bind (heeds_estimateFrom hm c start.u) (fun e he => Runs.heeds_pure he)
    fun e he => Runs.ends_pure he

theorem heeds_estimateAfter (c : Config α) (earlier : Estimate α) :
    Runs.Heeds (estimateAfter c earlier m) fun order e => e.Obeys order := by
  unfold estimateAfter
  split
  · exact heeds_estimateFrom hm c earlier.u
  · exact heeds_estimate hm c

end Form

/-! ## Directional sampling

Drawing and searching make no report, so that an order to stop can only come with a tally. What was
found for the directions behind it is left aside. All that has to be known of the tally then is
that its point has as many coordinates as the model. -/

namespace Directional

variable {σ : Type} {m : Model α}

theorem length_weightedPoint_add (t : Tally α) (direction : List α) (c : Contribution α) :
    (t.add direction c).weightedPoint.length = t.weightedPoint.length := by
  unfold Tally.add
  dsimp only
  cases c.radius with
  | none => rfl
  | some r => exact Coordinates.length_addScaled ..

theorem Tally.length_direction (t : Tally α) :
    t.direction.alpha.length = t.weightedPoint.length := by
  unfold Tally.direction
  dsimp only
  split
  · rw [Direction.length_ofPointAndBeta, Coordinates.length_divide]
  · exact Direction.length_isotropic ..

/-- How a run ended tells whether there was an order to stop, and its tally has a point of the
model. -/
structure Reported (m : Model α) (order : Control) (t : Tally α) (ended : Option Status) :
    Prop where
  status : ended = some .abortedByUser ↔ order = .abort
  length : t.weightedPoint.length = m.dimension

/-- Tallying stops at the direction at which the order comes. -/
theorem heeds_consume (c : Config α) (found : List (List α × Contribution α)) {t : Tally α}
    (ht : t.weightedPoint.length = m.dimension) :
    Runs.Heeds (consume c m found t) fun order b => Reported m order b.1 b.2 := by
  induction found generalizing t with
  | nil => exact Runs.heeds_pure ⟨by simp, ht⟩
  | cons f found ih =>
    have ht' : (t.add f.1 f.2).weightedPoint.length = m.dimension :=
      (length_weightedPoint_add ..).trans ht
    unfold consume
    refine Runs.heeds_bind (c.sampling.heeds_settle m _ _ _ _) (fun ended hended => ?_)
      fun ended hended => ?_
    · cases ended with
      | none => exact ih ht'
      | some status => exact Runs.heeds_pure ⟨hended, ht'⟩
    · rw [hended.mpr rfl]
      exact Runs.ends_pure ⟨by simp, ht'⟩

variable [RandomSource σ α]

theorem silent_drawDirection (n tries : Nat) :
    Runs.Silent (drawDirection n tries : Sampling.Sampler σ α (List α)) fun _ => True := by
  induction tries with
  | zero => exact Runs.silent_pure trivial
  | succ tries ih =>
    unfold drawDirection
    refine Runs.silent_bind (Sampling.silent_draw n) fun v _ => ?_
    dsimp only
    by_cases hlength : 0 < Coordinates.norm v
    · rw [if_pos hlength]
      exact Runs.silent_pure trivial
    · rw [if_neg hlength]
      exact ih

theorem silent_drawDirections (n count : Nat) :
    Runs.Silent (drawDirections n count : Sampling.Sampler σ α (List (List α)))
      fun _ => True := by
  induction count with
  | zero => exact Runs.silent_pure trivial
  | succ count ih =>
    unfold drawDirections
    refine Runs.silent_bind (silent_drawDirection n Random.tries) fun d _ => ?_
    refine Runs.silent_bind ih fun ds _ => ?_
    exact Runs.silent_pure trivial

/-- A round whose tally was told to stop is the last one. -/
theorem heeds_rounds (c : Config α) (z0 : α) (fuel : Nat) {t : Tally α}
    (ht : t.weightedPoint.length = m.dimension) :
    Runs.Heeds (rounds c m z0 fuel t : Sampling.Sampler σ α (Tally α × Status)) fun order b =>
      Reported m order b.1 (some b.2) := by
  induction fuel generalizing t with
  | zero => exact Runs.heeds_pure ⟨by simp, ht⟩
  | succ fuel ih =>
    unfold rounds
    refine (silent_drawDirections m.dimension _).heeds_bind fun directions _ => ?_
    refine (Runs.silent_lift (silent_searches c m z0 _)).heeds_bind fun found _ => ?_
    refine Runs.heeds_bind (Runs.heeds_lift (heeds_consume c _ ht)) (fun b hb => ?_)
      fun b hb => ?_
    · obtain ⟨t', ended⟩ := b
      cases ended with
      | none => exact ih hb.length
      | some status => exact Runs.heeds_pure hb
    · obtain ⟨t', ended⟩ := b
      have hended : ended = some .abortedByUser := hb.status.mpr rfl
      subst hended
      exact Runs.ends_pure hb

variable (hm : m.setup.Accepted)
include hm

theorem heeds_findings (c : Config α) (source : σ) :
    Runs.Heeds (findings c m source) fun order b => b.2.1 = .abortedByUser ↔ order = .abort := by
  refine (m.silent_z _).heeds_bind fun z0 _ => ?_
  have hrounds := heeds_rounds (σ := σ) c z0 c.sampling.fuel (m := m) (t := .empty m.dimension)
    (Coordinates.length_origin _)
  refine Runs.heeds_bind (Sampling.Sampler.heeds_withSupply hrounds (.fresh source false))
    (fun b hb => ?_) fun b hb => ?_
  · refine (Runs.silent_ofExcept _).heeds_bind fun x _ => ?_
    refine Runs.heeds_pure ?_
    simpa using hb.status
  · have hlength : b.1.direction.designPoint.length = m.dimension := by
      rw [Direction.length_designPoint, Tally.length_direction, hb.length]
    refine Runs.ends_bind (Runs.ends_ofExcept (m.exists_x hm hlength) fun x hx => hx) fun x _ => ?_
    refine Runs.ends_pure ?_
    simpa using hb.status

theorem heeds_estimateOn (c : Config α) (source : σ) :
    Runs.Heeds (estimateOn c m source) fun order e => e.Obeys order := by
  rw [estimateOn_eq]
  exact (heeds_findings hm c source).measured fun order b k hb => hb

omit [RandomSource σ α] in
theorem heeds_estimate (c : Config α) :
    Runs.Heeds (estimate c m) fun order e => e.Obeys order :=
  heeds_estimateOn hm c c.sampling.source

end Directional

/-! ## Integration on a grid

A report is due between two slices and never inside of one, however many axes are left below it.
The slices that were finished are in the tally, and their nearest points are midpoints of boxes,
hence points of the model. -/

namespace Grid

variable {m : Model α}

/-- All points that a tally keeps have so many coordinates. -/
structure Tally.Over (n : Nat) (t : Tally α) : Prop where
  failure : Nearest.Over n t.failure
  safe : Nearest.Over n t.safe

theorem Tally.over_empty (n : Nat) : (Tally.empty : Tally α).Over n :=
  ⟨Nearest.over_none n, Nearest.over_none n⟩

theorem Tally.Over.add {n : Nat} {t : Tally α} (h : t.Over n) {u : List α} (hu : u.length = n)
    (z mass : α) : (t.add u z mass).Over n := by
  unfold Tally.add
  split
  · exact ⟨h.failure.offer hu, h.safe⟩
  · exact ⟨h.failure, h.safe.offer hu⟩

theorem Tally.Over.merge {n : Nat} {t other : Tally α} (h : t.Over n) (h' : other.Over n) :
    (t.merge other).Over n :=
  ⟨h.failure.merge h'.failure, h.safe.merge h'.safe⟩

theorem Tally.Over.length_direction {n : Nat} {t : Tally α} (h : t.Over n) :
    (t.direction n).alpha.length = n := by
  unfold Tally.direction
  dsimp only
  have hrare : Nearest.Over n (if Scalar.clamp t.pf 0 1 ≤ 0.5 then t.failure else t.safe) := by
    split
    · exact h.failure
    · exact h.safe
  cases hpoint : (if Scalar.clamp t.pf 0 1 ≤ 0.5 then t.failure else t.safe) with
  | none => exact Direction.length_isotropic n _
  | some p => exact (Direction.length_ofPointAndBeta p.point _).trans (hrare p hpoint)

/-- A slice makes no report. -/
theorem silent_integrate (cells : List (Cell α)) (levels : Nat) (u : List α) (mass : α)
    {t : Tally α} (ht : t.Over m.dimension) :
    Runs.Silent (integrate m cells levels u mass t) fun t' => t'.Over m.dimension := by
  induction levels generalizing u mass t with
  | zero =>
    unfold integrate
    refine Runs.silent_bind (m.silent_z u) fun z hu => ?_
    exact Runs.silent_pure (ht.add hu z mass)
  | succ levels ih =>
    unfold integrate
    have hfold := (Runs.silent (Run α)).foldlM (l := cells) ht
      (f := fun t c => integrate m cells levels (u ++ [c.middle]) (mass * c.mass) t)
      fun t' ht' c _ => Runs.Silent.mono (ih (u ++ [c.middle]) (mass * c.mass) ht')
        fun _ h => ⟨0, h⟩
    exact Runs.Silent.mono hfold fun _ h => h.choose_spec

/-- An order to stop between two slices ends the grid with the slices before it. -/
theorem heeds_slices (cells rest : List (Cell α)) (done : Nat) {t : Tally α}
    (ht : t.Over m.dimension) :
    Runs.Heeds (slices m cells rest done t) fun order b =>
      (b.2 = .abortedByUser ↔ order = .abort) ∧ b.1.Over m.dimension := by
  induction rest generalizing done t with
  | nil => exact Runs.heeds_pure ⟨by simp, ht⟩
  | cons c rest ih =>
    unfold slices
    have hpart := silent_integrate (m := m) cells (m.dimension - 1) [c.middle] c.mass
      (Tally.over_empty _)
    refine Runs.Silent.heeds_bind hpart fun part hpart => ?_
    dsimp only
    by_cases hdue : (done + 1) % Nat.max m.threads 1 = 0 ∨ rest.isEmpty = true
    · rw [if_pos hdue]
      refine Runs.heeds_bind (m.heeds_report _) (fun stop hstop => ?_) fun stop hstop => ?_
      · have hno : ¬stop = true := by simp [hstop]
        rw [if_neg hno]
        exact ih _ (ht.merge hpart)
      · rw [if_pos (hstop.mpr rfl)]
        exact Runs.ends_pure ⟨by simp, ht.merge hpart⟩
    · rw [if_neg hdue]
      exact ih _ (ht.merge hpart)

variable (hm : m.setup.Accepted)
include hm

theorem heeds_findings (c : Config α) :
    Runs.Heeds (findings c m) fun order b => b.2.1 = .abortedByUser ↔ order = .abort := by
  unfold findings
  by_cases hdimension : maxDimension < m.dimension
  · rw [if_pos hdimension]
    exact Runs.heeds_throw _ _
  · rw [if_neg hdimension]
    refine Runs.heeds_bind (heeds_slices c.cells c.cells 0 (Tally.over_empty _)) (fun b hb => ?_)
      fun b hb => ?_
    · refine (Runs.silent_ofExcept _).heeds_bind fun x _ => ?_
      exact Runs.heeds_pure hb.1
    · have hlength : (b.1.direction m.dimension).designPoint.length = m.dimension := by
        rw [Direction.length_designPoint, hb.2.length_direction]
      refine Runs.ends_bind (Runs.ends_ofExcept (m.exists_x hm hlength) fun x hx => hx)
        fun x _ => ?_
      exact Runs.ends_pure hb.1

theorem heeds_estimate (c : Config α) :
    Runs.Heeds (estimate c m) fun order e => e.Obeys order := by
  rw [estimate_eq]
  exact (heeds_findings hm c).measured fun order b k hb => hb

end Grid

end FailureProbability
