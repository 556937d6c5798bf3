import FailureProbability.Proofs.Estimator.Tree

/-!
# Chains and their stages

What the estimate of a chain has from each of its two stages, when nobody has stopped it. A
refinement keeps status and index of the first stage, hence its failure probability, and takes the
direction of the second one if that has converged (`Estimate.IsMerged`). A fallback hands on the
estimate of the first stage if that is accepted, and otherwise the findings of the second one. The
stages are runs of their own: the first begins where the chain begins, the second where the first
has ended.

A stage may be a chain itself, and the statements are about trees of any height. What the chain was
started from plays no part: its first stage begins from nothing, and only the second one is told of
an estimate.

Left out are chains that were stopped, whose estimate is that of the stage that was running, and
chains that have failed. That the first stage alone would have given the same is a statement about
its answer. The reports of the two runs are the same only for a monitor that does not look at the
journal.
-/

namespace FailureProbability

variable {α : Type}

/-! ## Estimates -/

theorem Estimate.converged_iff (e : Estimate α) : e.converged = true ↔ e.status = .success := by
  unfold converged
  cases e.status <;> decide

/-- The names of both stages are joined, so that an estimate after another stage is never the one of
that stage. -/
theorem Estimate.afterStage_ne (e earlier : Estimate α) : e.afterStage earlier ≠ earlier := by
  intro h
  have hmethod : earlier.method ++ "+" ++ e.method = earlier.method :=
    congrArg Estimate.method h
  have hlength := congrArg String.length hmethod
  rw [String.length_append, String.length_append, show "+".length = 1 from rfl] at hlength
  omega

variable [Scalar α]

/-- An estimate is accepted when it has converged inside of the bounds. -/
theorem Envelope.accepts_iff (envelope : Envelope α) (e : Estimate α) :
    envelope.accepts e = true ↔ e.status = .success ∧ envelope.least ≤ e.direction.beta ∧
      e.direction.beta ≤ envelope.greatest := by
  rw [accepts, Bool.and_eq_true, Bool.and_eq_true, decide_eq_true_eq, decide_eq_true_eq,
    Estimate.converged_iff, and_assoc]

/-- An estimate with the status and the index of a first stage, and with the direction of a second
one where this has converged. The design point is then a new one, and so are the physical values. -/
structure Estimate.IsMerged (e : Estimate α) (m : Model α) (first second : Estimate α) : Prop where
  status : e.status = first.status
  beta : e.direction.beta = first.direction.beta
  refined : second.status = .success →
    e.direction.alpha = second.direction.alpha ∧
      e.u = Coordinates.scale (-e.direction.beta) e.direction.alpha ∧ m.x e.u = .ok e.x
  kept : second.status ≠ .success →
    e.direction.alpha = first.direction.alpha ∧ e.u = first.u ∧ e.x = first.x

/-- The probability is that of the index, which was kept. -/
theorem Estimate.IsMerged.failureProbability_eq {m : Model α} {e first second : Estimate α}
    (h : e.IsMerged m first second) : e.failureProbability = first.failureProbability := by
  rw [failureProbability, failureProbability, Direction.q, Direction.q, h.beta]

namespace Estimator

variable {m : Model α} {j j' : Journal α} {e : Estimate α}

/-! ## Stages -/

/-- Merging evaluates no limit state and reports nothing. -/
theorem isMerged_of_exec {a b : Estimate α}
    (h : (mergeDirection m a b).exec j = (.ok e, j')) : e.IsMerged m a b ∧ j' = j := by
  unfold mergeDirection at h
  by_cases hconverged : b.converged = true
  · have hsuccess := b.converged_iff.mp hconverged
    rw [if_pos hconverged] at h
    obtain ⟨x, k, hx, h⟩ := Run.exec_bind_eq_ok.mp h
    have hvalues : m.x (b.direction.withBeta a.direction.beta).designPoint = .ok x :=
      congrArg Prod.fst hx
    obtain rfl : j = k := congrArg Prod.snd hx
    cases h
    exact ⟨⟨rfl, rfl, fun _ => ⟨rfl, rfl, hvalues⟩, fun hne => absurd hsuccess hne⟩, rfl⟩
  · have hfailed : b.status ≠ .success := fun hs => hconverged (b.converged_iff.mpr hs)
    rw [if_neg hconverged] at h
    cases h
    exact ⟨⟨rfl, rfl, fun hs => absurd hs hfailed, fun _ => ⟨rfl, rfl, rfl⟩⟩, rfl⟩

variable {first second : Estimator α} (name : String)

/-- A refinement that was not stopped has run both stages and merged them. -/
theorem stages_of_exec_refine (h : ((refine name first second).estimate m).exec j = (.ok e, j'))
    (hstatus : e.status ≠ .abortedByUser) :
    ∃ a b k, (first.estimate m).exec j = (.ok a, k) ∧
      (second.estimateAfter a m).exec k = (.ok b, j') ∧ e.IsMerged m a b := by
  obtain ⟨a, k, ha, h⟩ := Run.exec_bind_eq_ok.mp h
  by_cases hfirst : a.status = .abortedByUser
  · rw [if_pos hfirst] at h
    cases h
    exact absurd hfirst hstatus
  · rw [if_neg hfirst] at h
    obtain ⟨b, k', hb, h⟩ := Run.exec_bind_eq_ok.mp h
    by_cases hsecond : b.status = .abortedByUser
    · rw [if_pos hsecond] at h
      cases h
      exact absurd hsecond hstatus
    · rw [if_neg hsecond] at h
      obtain ⟨hmerged, rfl⟩ := isMerged_of_exec h
      exact ⟨a, b, k, ha, hb, hmerged⟩

/-- A fallback that was not stopped has either accepted its first stage or run the second one. -/
theorem stages_of_exec_fallback {envelope : Envelope α}
    (h : ((fallback name first second envelope).estimate m).exec j = (.ok e, j'))
    (hstatus : e.status ≠ .abortedByUser) :
    ∃ a k, (first.estimate m).exec j = (.ok a, k) ∧
      (envelope.accepts a = true ∧ e = a ∧ j' = k ∨
        envelope.accepts a = false ∧
          ∃ b, (second.estimateAfter a m).exec k = (.ok b, j') ∧ e = b.afterStage a) := by
  obtain ⟨a, k, ha, h⟩ := Run.exec_bind_eq_ok.mp h
  refine ⟨a, k, ha, ?_⟩
  by_cases hfirst : a.status = .abortedByUser
  · rw [if_pos hfirst] at h
    cases h
    exact absurd hfirst hstatus
  · rw [if_neg hfirst] at h
    cases haccepts : envelope.accepts a with
    | true =>
      rw [if_pos haccepts] at h
      cases h
      exact .inl ⟨rfl, rfl, rfl⟩
    | false =>
      rw [if_neg (Bool.eq_false_iff.mp haccepts)] at h
      obtain ⟨b, k', hb, h⟩ := Run.exec_bind_eq_ok.mp h
      cases h
      exact .inr ⟨rfl, b, hb, rfl⟩

namespace Tree

/-- A tree whose monitor has no memory gives the same estimate from every journal. -/
theorem answer_of_isStateless (hm : m.monitor.IsStateless) (t : Tree α) {seed : Option (Estimate α)}
    (h : (t.estimator.estimateFrom seed m).exec j = (.ok e, j')) (i : Journal α) :
    ((t.estimator.estimateFrom seed m).exec i).1 = .ok e := by
  obtain ⟨x, k, hx, -⟩ := Runs.meets_iff.mp (t.meets_logged hm seed)
  rw [estimateFrom_estimator] at h ⊢
  obtain ⟨b, j₁, hb, h⟩ := Run.exec_bind_eq_ok.mp h
  cases h
  have hx' : x = .ok b := (hx j).1.symm.trans (congrArg Prod.fst hb)
  rw [Run.exec_bind_ok (Prod.ext ((hx i).1.trans hx') rfl)]
  rfl

/-- The single method that a tree begins with. -/
def leader : Tree α → Estimator α
  | single e _ => e
  | fallback _ first _ _ => first.leader
  | refine _ first _ => first.leader

/-- Nothing but refinements stands between the tree and the method that it begins with. -/
def Refines : Tree α → Prop
  | single .. => True
  | fallback .. => False
  | refine _ first _ => first.Refines

/-- However deep refinements are nested, status and index are those of the method that begins. -/
theorem leader_of_refines {t : Tree α} (ht : t.Refines)
    (h : (t.estimator.estimateFrom none m).exec j = (.ok e, j')) (hstatus : e.status ≠ .abortedByUser) :
    ∃ a k, (t.leader.estimate m).exec j = (.ok a, k) ∧ e.status = a.status ∧
      e.direction.beta = a.direction.beta := by
  induction t generalizing e j' with
  | single r hr => exact ⟨e, j', h, rfl, rfl⟩
  | fallback name first second envelope ihf ihs => exact ht.elim
  | refine name first second ihf ihs =>
    rw [estimator, Estimator.refine, estimateFrom_unseeded] at h
    obtain ⟨a, b, k, ha, -, hmerged⟩ := stages_of_exec_refine name h hstatus
    obtain ⟨a', k', ha', hstatus', hbeta'⟩ := ihf ht ha (hmerged.status ▸ hstatus)
    exact ⟨a', k', ha', hmerged.status.trans hstatus', hmerged.beta.trans hbeta'⟩

/-- Refinement never changes the probability. The estimate of a refinement that was not stopped has
the status and the index of its first stage, run alone; its direction is that of the second stage if
this has converged, and otherwise direction, point and values are those of the first stage. A
fallback that was not stopped has the very estimate of its first stage just when that has converged
inside the envelope, and nothing more is run then; otherwise it has what its second stage found. -/
theorem refinement_keeps_probability (m : Model α) (name : String) (first second : Tree α)
    (seed : Option (Estimate α)) (j : Journal α) :
    (∀ e j', ((refine name first second).estimator.estimateFrom seed m).exec j = (.ok e, j') →
      e.status ≠ .abortedByUser →
      ∃ a b k, (first.estimator.estimateFrom none m).exec j = (.ok a, k) ∧
        (second.estimator.estimateFrom (some a) m).exec k = (.ok b, j') ∧
        (m.monitor.IsStateless →
          ∀ i, ((first.estimator.estimateFrom none m).exec i).1 = .ok a) ∧
        e.IsMerged m a b ∧ e.failureProbability = a.failureProbability) ∧
    ∀ envelope e j',
      ((fallback name first second envelope).estimator.estimateFrom seed m).exec j = (.ok e, j') →
      e.status ≠ .abortedByUser →
      ∃ a k, (first.estimator.estimateFrom none m).exec j = (.ok a, k) ∧
        (m.monitor.IsStateless →
          ∀ i, ((first.estimator.estimateFrom none m).exec i).1 = .ok a) ∧
        (e = a ↔ a.status = .success ∧ envelope.least ≤ a.direction.beta ∧
          a.direction.beta ≤ envelope.greatest) ∧
        (e = a → j' = k) ∧
        (e ≠ a → ∃ b, (second.estimator.estimateFrom (some a) m).exec k = (.ok b, j') ∧
          e.status = b.status ∧ e.direction.beta = b.direction.beta ∧
          e.direction.alpha = b.direction.alpha ∧ e.u = b.u ∧ e.x = b.x) := by
  constructor
  · intro e j' h hstatus
    rw [estimator, Estimator.refine, estimateFrom_unseeded] at h
    obtain ⟨a, b, k, ha, hb, hmerged⟩ := stages_of_exec_refine name h hstatus
    exact ⟨a, b, k, ha, hb, fun hm => answer_of_isStateless hm first ha, hmerged,
      hmerged.failureProbability_eq⟩
  · intro envelope e j' h hstatus
    rw [estimator, Estimator.fallback, estimateFrom_unseeded] at h
    obtain ⟨a, k, ha, hcases⟩ := stages_of_exec_fallback name h hstatus
    refine ⟨a, k, ha, fun hm => answer_of_isStateless hm first ha, ?_⟩
    rw [← Envelope.accepts_iff]
    rcases hcases with ⟨haccepts, rfl, rfl⟩ | ⟨haccepts, b, hb, rfl⟩
    · exact ⟨iff_of_true rfl haccepts, fun _ => rfl, fun hne => absurd rfl hne⟩
    · -- What a second stage has found names both methods, so that it is never the first estimate.
      have hne := b.afterStage_ne a
      refine ⟨iff_of_false hne (Bool.eq_false_iff.mp haccepts), fun he => absurd he hne,
        fun _ => ⟨b, hb, rfl, rfl, rfl, rfl, rfl⟩⟩

/-- The first-order method, and once more where the index is not at least two. -/
def twiceBelowTwo : Tree Float :=
  .fallback "FORM below two" (.single _ isSingle_fullSteps) (.single _ isSingle_fullSteps) ⟨2, 40⟩

/-- With a limit at minus one the index is one. The refinement keeps it, and the fallback finds it
too small. -/
theorem refinement_keeps_probability_twice :
    (∃ e a b k j', (twice.estimator.estimateFrom none belowMinusOne).exec .empty = (.ok e, j') ∧
      e.status ≠ .abortedByUser ∧
      (Form.estimate fullSteps belowMinusOne).exec .empty = (.ok a, k) ∧
      (Form.estimateAfter fullSteps a belowMinusOne).exec k = (.ok b, j') ∧
      e.IsMerged belowMinusOne a b) ∧
    ∃ e a b k j', (twiceBelowTwo.estimator.estimateFrom none belowMinusOne).exec .empty =
        (.ok e, j') ∧
      e.status ≠ .abortedByUser ∧ e ≠ a ∧
      (Form.estimate fullSteps belowMinusOne).exec .empty = (.ok a, k) ∧
      (Form.estimateAfter fullSteps a belowMinusOne).exec k = (.ok b, j') ∧
      e.direction.beta = b.direction.beta := by
  have hkept := refinement_keeps_probability belowMinusOne "FORM twice"
    (.single _ isSingle_fullSteps) (.single _ isSingle_fullSteps) none .empty
  have hreplaced := refinement_keeps_probability belowMinusOne "FORM below two"
    (.single _ isSingle_fullSteps) (.single _ isSingle_fullSteps) none .empty
  have hsuccess : ∀ {e : Estimate Float}, e.status = .success → e.status ≠ .abortedByUser := by
    intro e he
    rw [he]
    decide
  constructor
  · obtain ⟨e, j', h, hstatus⟩ := Run.exists_exec_of_map
      (r := twice.estimator.estimateFrom none belowMinusOne) (f := Estimate.status)
      (c := .success) (j := .empty) (by decide +kernel)
    obtain ⟨a, b, k, ha, hb, -, hmerged, -⟩ := hkept.1 e j' h (hsuccess hstatus)
    exact ⟨e, a, b, k, j', h, hsuccess hstatus, ha, hb, hmerged⟩
  · -- That the second stage was run is read off the index of the first one, run alone.
    obtain ⟨e, j', h, hstatus⟩ := Run.exists_exec_of_map
      (r := twiceBelowTwo.estimator.estimateFrom none belowMinusOne) (f := Estimate.status)
      (c := .success) (j := .empty) (by decide +kernel)
    obtain ⟨a, k, ha, -, haccepted, -, hsecond⟩ := hreplaced.2 ⟨2, 40⟩ e j' h (hsuccess hstatus)
    obtain ⟨a', k', ha', hbelow⟩ := Run.exists_exec_of_map
      (r := Form.estimate fullSteps belowMinusOne) (f := fun a => decide (2 ≤ a.direction.beta))
      (c := false) (j := .empty) (by decide +kernel)
    obtain ⟨rfl, -⟩ : a = a' ∧ k = k' := by
      have hsame := ha.symm.trans ha'
      exact ⟨Except.ok.inj (congrArg Prod.fst hsame), congrArg Prod.snd hsame⟩
    have hne : e ≠ a := fun he => absurd (haccepted.mp he).2.1 (of_decide_eq_false hbelow)
    obtain ⟨b, hb, -, hbeta, -⟩ := hsecond hne
    exact ⟨e, a, b, k, j', h, hsuccess hstatus, hne, ha, hb, hbeta⟩

end Tree

end Estimator

end FailureProbability
