import FailureProbability.Proofs.Cancellation.Methods
import FailureProbability.Proofs.Estimator.Tree

/-!
# Cancellation of trees of estimators

A chain looks at the status of its first stage and goes no further after an order to stop, so that
nothing of the second stage is run; an order to stop in the second stage ends the chain as it is. By
induction a tree of estimators heeds its monitor when its single methods do, and they all do.

The result is stated of the journal that a run leaves and not of the run itself, so that it can be
read without any notion of heeding. It speaks of the reports above those that the journal held
before. Reports before the run, and orders to stop among them, are no concern of it.
-/

namespace FailureProbability

variable {α : Type}

/-- What the journal tells of an outcome that obeys the monitor: the reports that were made, the
order to stop as the last of them, and that the estimate tells of it. -/
theorem Obeyed.absorbing {j j' : Journal α} {x : Except (Error α) (Estimate α)}
    (h : Obeyed (fun order e => e.Obeys order) j x j') :
    ∃ new, j'.reports = new ++ j.reports ∧
      (∀ later r earlier, new = later ++ r :: earlier → r.answer = .abort →
        later = [] ∧ j'.evaluations = r.evaluations ∧
          ∃ e, x = .ok e ∧ e.status = .abortedByUser) ∧
      ∀ e, x = .ok e → e.status = .abortedByUser →
        ∃ r earlier, new = r :: earlier ∧ r.answer = .abort := by
  -- Without an order to stop no report was answered with one.
  have hnone : ∀ {new later earlier : List (Report α)} {r : Report α},
      (∀ r ∈ new, r.answer = .proceed) → new = later ++ r :: earlier → ¬r.answer = .abort := by
    intro new later earlier r hall hnew hr
    have hproceed := hall r (by simp [hnew])
    rw [hr] at hproceed
    cases hproceed
  cases h with
  | error horder =>
    cases horder with
    | proceed new hreports hall =>
      refine ⟨new, hreports, fun later r earlier hnew hr => absurd hr (hnone hall hnew), ?_⟩
      intro e he
      cases he
  | @ok order e _ horder he =>
    cases horder with
    | proceed new hreports hall =>
      refine ⟨new, hreports, fun later r earlier hnew hr => absurd hr (hnone hall hnew), ?_⟩
      rintro _ ⟨⟩ hstatus
      exact absurd (he.mp hstatus) (by decide)
    | abort last earlier hreports hlast hall hevaluations =>
      refine ⟨last :: earlier, hreports, fun later r before hnew hr => ?_, ?_⟩
      · cases later with
        | nil =>
          cases hnew
          exact ⟨rfl, hevaluations.symm, e, rfl, he.mpr rfl⟩
        | cons first later => exact absurd hr (hnone hall (List.cons.inj hnew).2)
      · rintro _ ⟨⟩ -
        exact ⟨last, earlier, rfl, hlast⟩

namespace Estimator

variable [Scalar α]

/-! ## Chains

Both kinds of chains begin with their first stage and look at its status. What they do with it
afterwards is of interest only when there was no order to stop: then the second stage is run, which
heeds the monitor itself, or the first estimate is returned. -/

section

variable {m : Model α}

theorem silent_mergeDirection (a b : Estimate α) :
    Runs.Silent (mergeDirection m a b) fun e => e.status = a.status := by
  unfold mergeDirection
  by_cases hconverged : b.converged = true
  · rw [if_pos hconverged]
    refine Runs.silent_bind (Runs.silent_ofExcept _) fun x _ => ?_
    exact Runs.silent_pure rfl
  · rw [if_neg hconverged]
    exact Runs.silent_pure rfl

variable (name : String) {first second : Estimator α}
  (hfirst : Runs.Heeds (first.estimate m) fun order e => e.Obeys order)
  (hsecond : ∀ a, Runs.Heeds (second.estimateAfter a m) fun order e => e.Obeys order)
include hfirst hsecond

/-- A fallback does not take a first stage that was stopped for one that has failed. -/
theorem heeds_fallback (envelope : Envelope α) :
    Runs.Heeds ((fallback name first second envelope).estimate m) fun order e => e.Obeys order := by
  refine Runs.heeds_bind hfirst (fun a ha => ?_) fun a ha => ?_
  · have hgo : a.status ≠ .abortedByUser := fun h => absurd (ha.mp h) (by decide)
    rw [if_neg hgo]
    by_cases haccepts : envelope.accepts a = true
    · rw [if_pos haccepts]
      exact Runs.heeds_pure ha
    · rw [if_neg haccepts]
      exact Runs.heeds_bind (hsecond a) (fun b hb => Runs.heeds_pure hb) fun b hb => Runs.ends_pure hb
  · rw [if_pos (ha.mpr rfl)]
    exact Runs.ends_pure ha

/-- A refinement looks at the status of its first stage before it begins the second. -/
theorem heeds_refine :
    Runs.Heeds ((refine name first second).estimate m) fun order e => e.Obeys order := by
  refine Runs.heeds_bind hfirst (fun a ha => ?_) fun a ha => ?_
  · have hgo : a.status ≠ .abortedByUser := fun h => absurd (ha.mp h) (by decide)
    rw [if_neg hgo]
    refine Runs.heeds_bind (hsecond a) (fun b hb => ?_) fun b hb => ?_
    · have hgo' : b.status ≠ .abortedByUser := fun h => absurd (hb.mp h) (by decide)
      rw [if_neg hgo']
      refine (silent_mergeDirection a b).heeds.mono ?_
      rintro order e ⟨rfl, he⟩
      exact Estimate.obeys_proceed (he ▸ hgo)
    · rw [if_pos (hb.mpr rfl)]
      exact Runs.ends_pure hb
  · rw [if_pos (ha.mpr rfl)]
    exact Runs.ends_pure ha

end

/-! ## Trees

A tree is built from single methods by chains, so that its estimator heeds the monitor by one
induction over its shape. Whether it begins from nothing or after another estimate makes a
difference to single methods only. -/

section

variable {m : Model α} (hzero : ¬(0 : α) < 0) (hm : m.setup.Accepted)
include hzero hm

/-- A method alone, after an earlier estimate or without one. -/
theorem IsSingle.heeds_estimateFrom {e : Estimator α} (h : e.IsSingle)
    (seed : Option (Estimate α)) :
    Runs.Heeds (e.estimateFrom seed m) fun order r => r.Obeys order := by
  cases h with
  | @form c _ h =>
    rw [eq_of_checked h]
    cases seed with
    | none => exact Form.heeds_estimate hm c
    | some earlier => exact Form.heeds_estimateAfter hm c earlier
  | @directional c _ h =>
    rw [eq_of_checked h]
    cases seed <;> exact Directional.heeds_estimate hm c
  | @crude c _ h =>
    rw [eq_of_checked h]
    cases seed <;> exact Sampling.Crude.heeds_estimate hzero hm c
  | @importance c _ h =>
    rw [eq_of_checked h]
    cases seed with
    | none => exact Sampling.Importance.heeds_estimate hzero hm c
    | some earlier => exact Sampling.Importance.heeds_estimateAfter hzero hm c earlier
  | @adaptive c _ h =>
    rw [eq_of_checked h]
    cases seed <;> exact Sampling.Adaptive.heeds_estimate hzero hm c
  | @grid c _ h =>
    rw [eq_of_checked h]
    cases seed <;> exact Grid.heeds_estimate hm c

/-- Every run of a tree heeds its monitor. -/
theorem Tree.heeds_estimateFrom (t : Tree α) (seed : Option (Estimate α)) :
    Runs.Heeds (t.estimator.estimateFrom seed m) fun order e => e.Obeys order := by
  induction t generalizing seed with
  | single e h => exact h.heeds_estimateFrom hzero hm seed
  | fallback name first second envelope ihf ihs =>
    rw [estimator, Estimator.fallback, estimateFrom_unseeded]
    exact heeds_fallback name (ihf none) (fun a => ihs (some a)) envelope
  | refine name first second ihf ihs =>
    rw [estimator, Estimator.refine, estimateFrom_unseeded]
    exact heeds_refine name (ihf none) fun a => ihs (some a)

end

namespace Tree

/-- Cancellation is absorbing. The reports that a run of a tree has made are those that the journal
holds above the earlier ones. A report that was answered with the order to stop is the last one, no
limit state was evaluated after it, and the run has answered with a status that tells of it. That
status stands for nothing else. -/
theorem cancellation_is_absorbing (hzero : ¬(0 : α) < 0) {m : Model α}
    {marginals : List (Marginal α)} {correlation : Correlation α}
    (hsetup : Setup.new marginals correlation = .ok m.setup) (t : Tree α)
    (seed : Option (Estimate α)) {j j' : Journal α} {x : Except (Error α) (Estimate α)}
    (h : (t.estimator.estimateFrom seed m).exec j = (x, j')) :
    ∃ new, j'.reports = new ++ j.reports ∧
      (∀ later r earlier, new = later ++ r :: earlier → r.answer = .abort →
        later = [] ∧ j'.evaluations = r.evaluations ∧
          ∃ e, x = .ok e ∧ e.status = .abortedByUser) ∧
      ∀ e, x = .ok e → e.status = .abortedByUser →
        ∃ r earlier, new = r :: earlier ∧ r.answer = .abort := by
  have hheeds := t.heeds_estimateFrom hzero (Setup.accepted_of_new hsetup) seed
  have hobeyed := Runs.heeds_iff.mp hheeds j
  rw [h] at hobeyed
  exact hobeyed.absorbing

/-- A single variable and failure below minus one, with a monitor that stops at its third report. -/
def stoppedAtThird : Model Float :=
  { belowMinusOne with monitor := fun before _ => if before.length = 2 then .abort else .proceed }

/-- The first-order method twice, inside another chain. -/
def nested : Tree Float :=
  .fallback "nested" twice (.single _ isSingle_fullSteps) .standard

/-- The first method makes two reports. The third one is the first of the second method, which has
taken three evaluations by then; the outer chain goes no further. -/
theorem cancellation_is_absorbing_nested : ∃ x j',
    (nested.estimator.estimateFrom none stoppedAtThird).exec .empty = (x, j') ∧
      j'.reports.map (fun r => (r.answer, r.evaluations)) =
        [(.abort, 9), (.proceed, 6), (.proceed, 3)] ∧
      ∃ new, j'.reports = new ++ (Journal.empty : Journal Float).reports ∧
        (∀ later r earlier, new = later ++ r :: earlier → r.answer = .abort →
          later = [] ∧ j'.evaluations = r.evaluations ∧
            ∃ e, x = .ok e ∧ e.status = .abortedByUser) ∧
        ∀ e, x = .ok e → e.status = .abortedByUser →
          ∃ r earlier, new = r :: earlier ∧ r.answer = .abort := by
  have hsetup : Setup.new [Marginal.standardNormal] (.identity 1) = .ok stoppedAtThird.setup := rfl
  rcases h : (nested.estimator.estimateFrom none stoppedAtThird).exec .empty with ⟨x, j'⟩
  refine ⟨x, j', rfl, ?_, cancellation_is_absorbing (by decide) hsetup nested none h⟩
  have hrun : ((nested.estimator.estimateFrom none stoppedAtThird).exec .empty).2.reports.map
      (fun r => (r.answer, r.evaluations)) =
        [(.abort, 9), (.proceed, 6), (.proceed, 3)] := by decide +kernel
  rw [h] at hrun
  exact hrun

end Tree

end Estimator

end FailureProbability
