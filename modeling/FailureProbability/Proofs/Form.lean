import FailureProbability.Form
import FailureProbability.Proofs.Root.Search

/-!
# The work of the first-order method

A search for the design point counts the evaluations of each gradient, of each trial and of its
start. The counts add up to what the search has taken.

A monitor that remembers is left out, since what is said here of a run holds from every journal
alike. A run may fail, at a gradient or where physical values are wanted; then nothing is said of
its work, and there is no estimate that could tell of it. Only the settings are settled completely:
they are accepted if and only if each of them is within its limits (`Config.validate_iff`).
-/

namespace FailureProbability

variable {α : Type}

/-- An estimate with a given name that tells the evaluations it took. -/
def Estimate.Accounts (method : String) (e : Estimate α) (k : Nat) : Prop :=
  e.method = method ∧ e.evaluations = k

variable [Scalar α]

namespace Form

/-- Settings of the first-order method are accepted within their limits. -/
theorem Config.validate_iff {c : Config α} :
    c.validate = .ok () ↔ c.maxIterations ≠ 0 ∧ (0 < c.relaxation ∧ c.relaxation ≤ 1) ∧
      (Scalar.isPositive c.epsBeta = true ∧ Scalar.isPositive c.epsZ = true ∧
        Scalar.isPositive c.du = true) ∧ c.trialLoops ≠ 0 := by
  have hall : (∀ e ∈ [("eps_beta", c.epsBeta), ("eps_z", c.epsZ), ("du", c.du)],
      Scalar.isPositive e.2 = true) ↔ Scalar.isPositive c.epsBeta = true ∧
        Scalar.isPositive c.epsZ = true ∧ Scalar.isPositive c.du = true := by simp
  unfold validate
  constructor
  · intro h
    by_cases hiterations : c.maxIterations = 0
    · rw [if_pos hiterations] at h
      cases h
    by_cases hrelaxation : 0 < c.relaxation ∧ c.relaxation ≤ 1
    · rw [if_neg hiterations, if_neg (Classical.not_not.mpr hrelaxation)] at h
      obtain ⟨_, hpositives, h⟩ := bind_eq_ok.mp h
      have hlabelled := (forIn_labelled_eq_ok ("FORM " ++ ·)).mp hpositives
      refine ⟨hiterations, hrelaxation, hall.mp hlabelled, fun hnone => ?_⟩
      rw [if_pos hnone] at h
      cases h
    · rw [if_neg hiterations, if_pos hrelaxation] at h
      cases h
  · rintro ⟨hiterations, hrelaxation, hpositives, htrials⟩
    rw [if_neg hiterations, if_neg (Classical.not_not.mpr hrelaxation)]
    refine bind_eq_ok.mpr ⟨(), (forIn_labelled_eq_ok ("FORM " ++ ·)).mpr (hall.mpr hpositives), ?_⟩
    rw [if_neg htrials]
    rfl

end Form

namespace Start

/-- A start tells the evaluations that were needed to find it. -/
theorem meets_find (s : Start α) (m : Model α) :
    Runs.Meets True (s.find m) fun found k => found.evaluations = k := by
  unfold find
  cases s with
  | zero => exact Runs.meets_pure rfl
  | one => exact Runs.meets_pure rfl
  | given u =>
    exact (Runs.contract (Run α) True).ite (fun _ => Runs.meets_throw _ trivial)
      fun _ => Runs.meets_pure rfl
  | raySearch direction step maxLength =>
    refine (Runs.contract (Run α) True).bind_free (Runs.meets_ofExcept (.inr trivial))
      fun ray _ => ?_
    refine Runs.meets_bind (m.meets_z _ (.inr trivial)) fun z0 k hz0 => ?_
    have hvalue : ∀ r, Runs.Meets True (m.z (Coordinates.scale r ray)) fun _ k => k = 1 :=
      fun r => (m.meets_z _ (.inr trivial)).mono fun _ _ h => h.2
    refine Runs.meets_bind (Root.Ray.holds_find (Runs.contract (Run α) True) hvalue _ z0)
      fun search n hn => ?_
    refine Runs.meets_pure ?_
    have hk := hz0.2
    dsimp only
    omega

end Start

namespace Form

variable {m : Model α}

/-- Putting an estimate together takes no evaluations. -/
theorem meets_finish (status : Status) (d : Direction α) (u : List α) (steps evaluations : Nat) :
    Runs.Meets True (finish m status d u steps evaluations) fun e k =>
      e.Accounts name (evaluations + k) := by
  unfold finish
  refine (Runs.contract (Run α) True).bind_free (Runs.meets_ofExcept (.inr trivial)) fun x _ => ?_
  exact Runs.meets_pure ⟨rfl, rfl⟩

/-- A trial adds what it takes to the evaluations before it. -/
theorem meets_iterate (hm : m.monitor.IsStateless) (c : Config α) (relaxation : α)
    (remaining steps evaluations : Nat) (t : Trial α) :
    Runs.Meets True (iterate m c relaxation remaining steps evaluations t) fun e k =>
      e.Accounts name (evaluations + k) := by
  induction remaining generalizing steps evaluations t with
  | zero => exact meets_finish _ _ _ _ _
  | succ remaining ih =>
    unfold iterate
    refine Runs.meets_bind (m.meets_gradient t.u c.du) fun g k hg => ?_
    simp only [← Nat.add_assoc]
    subst hg
    refine (Runs.contract (Run α) True).ite (fun _ => meets_finish _ _ _ _ _) fun _ => ?_
    refine (Runs.contract (Run α) True).bind_free
      (Model.meets_report hm _ (P := fun _ k => True ∧ k = 0) fun _ => ⟨trivial, rfl⟩)
      fun stop _ => ?_
    refine (Runs.contract (Run α) True).ite (fun _ => meets_finish _ _ _ _ _) fun _ => ?_
    exact (Runs.contract (Run α) True).ite (fun _ => meets_finish _ _ _ _ _) fun _ => ih _ _ _

/-- All trials together add what they take to the evaluations before them. -/
theorem meets_trials (hm : m.monitor.IsStateless) (c : Config α) (start : List α)
    (left steps evaluations : Nat) (relaxation : α) :
    Runs.Meets True (trials m c start left steps evaluations relaxation) fun e k =>
      e.Accounts name (evaluations + k) := by
  induction left generalizing steps evaluations relaxation with
  | zero =>
    unfold trials
    refine Runs.meets_bind (meets_iterate hm c _ _ _ _ _) fun e k he => ?_
    exact Runs.meets_pure ⟨he.1, by dsimp only; rw [he.2]; omega⟩
  | succ left ih =>
    unfold trials
    refine Runs.meets_bind (meets_iterate hm c _ _ _ _ _) fun e k he => ?_
    -- The next trial is told what all trials before it took, this one included.
    have hcount : evaluations + e.evaluations = evaluations + k := by rw [he.2]; omega
    refine (Runs.contract (Run α) True).ite (fun _ => Runs.meets_pure ⟨he.1, hcount⟩) fun _ => ?_
    refine (ih _ _ _).mono fun e' n he' => ⟨he'.1, ?_⟩
    rw [he'.2]
    dsimp only
    omega

theorem meets_estimateFrom (hm : m.monitor.IsStateless) (c : Config α) (start : List α) :
    Runs.Meets True (estimateFrom c start m) (Estimate.Accounts name) := by
  unfold estimateFrom
  refine (Runs.contract (Run α) True).ite (fun _ => Runs.meets_throw _ trivial) fun _ => ?_
  exact (meets_trials hm c _ _ _ _ _).mono fun e k he => ⟨he.1, by rw [he.2, Nat.zero_add]⟩

theorem meets_estimate (hm : m.monitor.IsStateless) (c : Config α) :
    Runs.Meets True (estimate c m) (Estimate.Accounts name) := by
  unfold estimate
  refine Runs.meets_bind (c.start.meets_find m) fun start k hk => ?_
  refine Runs.meets_bind (meets_estimateFrom hm c start.u) fun e n he => ?_
  refine Runs.meets_pure ⟨he.1, ?_⟩
  dsimp only
  rw [he.2]
  omega

/-- A search that begins from another estimate counts its own work, not that of the other one. -/
theorem meets_estimateAfter (hm : m.monitor.IsStateless) (c : Config α) (earlier : Estimate α) :
    Runs.Meets True (estimateAfter c earlier m) (Estimate.Accounts name) := by
  unfold estimateAfter
  exact (Runs.contract (Run α) True).ite (fun _ => meets_estimateFrom hm c earlier.u)
    fun _ => meets_estimate hm c

end Form

end FailureProbability
