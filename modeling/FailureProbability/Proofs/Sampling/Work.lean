import FailureProbability.Proofs.Form
import FailureProbability.Proofs.Sampling.Step
import FailureProbability.Sampling.Adaptive
import FailureProbability.Sampling.Crude
import FailureProbability.Sampling.Importance

/-!
# The work of sampling

Both engines read the counter before and after a run, so that an outcome tells the evaluations that
the run took, those of samples that were never tallied included. Adaptive sampling adds up the
outcomes of its runs.

Nothing is said of how many evaluations these are, for which see `Proofs.Sampling.Budget`, nor of
runs that fail. The monitor has no memory, so that a run does the same whatever the journal held
before.
-/

namespace FailureProbability.Sampling

variable {σ α β : Type} {mayFail : Prop}

/-- A supply of its own changes nothing of the work of a run. -/
theorem Sampler.meets_withSupply {r : Sampler σ α β} {P : β → Nat → Prop}
    (h : Runs.Meets mayFail r P) (s : Supply σ α) :
    Runs.Meets mayFail (Sampler.withSupply s r) P := by
  obtain ⟨x, s', k, hx, hP⟩ := h s
  refine Runs.meets_iff.mpr ⟨x, k, fun j => ?_, hP⟩
  rw [Sampler.exec_withSupply]
  exact ⟨(hx j).1, (hx j).2.2⟩

theorem Sampler.meets_draw [RandomSource σ α] (n : Nat) :
    Runs.Meets mayFail (Sampler.draw n : Sampler σ α (List α)) fun eps k =>
      eps.length = n ∧ k = 0 :=
  fun s => ⟨_, _, 0, fun _ => ⟨rfl, rfl, rfl⟩, RandomSource.length_normals n s.source, rfl⟩

/-- A counted run tells the evaluations that it took. -/
theorem meets_counted {run : Sampler σ α (Tally α × Status)}
    (h : Runs.Meets mayFail run fun _ _ => True) :
    Runs.Meets mayFail (counted run) fun o k => o.evaluations = k := by
  have hg : ∀ (b : Tally α × Status) (k : Nat), True → (Outcome.mk b.1 b.2 k).evaluations = k :=
    fun _ _ _ => rfl
  rw [counted_eq]
  exact Runs.meets_measured (M := Sampler σ α) h hg

variable [Scalar α]

/-- To make an estimate of an outcome takes no evaluations. -/
theorem Outcome.meets_estimate (o : Outcome α) (m : Model α) (method : String)
    (alpha : AlphaEstimate) :
    Runs.Meets True (o.estimate m method alpha) fun e k =>
      e.Accounts method o.evaluations ∧ k = 0 := by
  unfold estimate
  refine (Runs.contract (Run α) True).bind_free (Runs.meets_ofExcept (.inr trivial)) fun x _ => ?_
  exact Runs.meets_pure ⟨⟨rfl, rfl⟩, rfl⟩

/-- What is decided after a sample depends on the samples alone. -/
theorem Config.meets_settle {m : Model α} (hm : m.monitor.IsStateless) (c : Config α) (n : Nat)
    (pf failure noFailure : α) :
    Runs.Meets mayFail (c.settle m n pf failure noFailure) fun _ k => True ∧ k = 0 := by
  let answer := m.monitor [] (c.progress n pf failure noFailure)
  refine Runs.meets_iff.mpr
    ⟨.ok (c.verdict answer n failure noFailure), 0, fun j => ?_, trivial, rfl⟩
  rw [exec_settle]
  dsimp only
  unfold Model.answer
  rw [hm j.reports []]
  exact ⟨rfl, rfl⟩

variable {m : Model α} (hm : m.monitor.IsStateless)
include hm

/-- Tallying does the same from any journal, as the monitor has no memory. -/
theorem meets_consume (c : Config α) (samples : List (Sample α)) (t : Tally α) :
    Runs.Meets mayFail (consume m c samples t : Sampler σ α (Tally α × Option Status))
      fun _ _ => True := by
  induction samples generalizing t with
  | nil => exact Runs.meets_pure trivial
  | cons s samples ih =>
    unfold consume
    refine Runs.meets_bind (Runs.meets_modify _ (P := fun _ _ => True) trivial) fun _ _ _ => ?_
    refine Runs.meets_bind (Runs.meets_lift (Config.meets_settle hm c _ _ _ _)) fun v _ _ => ?_
    cases v with
    | none => exact ih _
    | some status => exact Runs.meets_pure trivial

variable [RandomSource σ α]

/-- Single samples do the same work from any journal. -/
theorem meets_single (c : Config α) (d : Density α) (fuel : Nat) (t : Tally α) :
    Runs.Meets True (single m c d fuel t : Sampler σ α (Tally α × Status)) fun _ _ => True := by
  induction fuel generalizing t with
  | zero => exact Runs.meets_pure trivial
  | succ fuel ih =>
    unfold single
    refine Runs.meets_bind (Sampler.meets_draw _) fun eps _ _ => ?_
    refine Runs.meets_bind (Runs.meets_lift (m.meets_z _ (.inr trivial))) fun z _ _ => ?_
    refine Runs.meets_bind (Runs.meets_lift (Config.meets_settle hm c _ _ _ _)) fun v _ _ => ?_
    cases v with
    | none => exact ih _
    | some status => exact Runs.meets_pure trivial

omit [Scalar α] hm in
theorem meets_refill (c : Config α) (t : Tally α) :
    Runs.Meets True (refill m c t : Sampler σ α Unit) fun _ _ => True := by
  intro s
  refine ⟨.ok ⟨⟩, refilled m c t s, 0, fun j => ?_, trivial⟩
  rw [Runs.exec_runWith, exec_refill]
  exact ⟨rfl, rfl, rfl⟩

omit hm [RandomSource σ α] in
theorem meets_evaluatePending (d : Density α) :
    Runs.Meets True (evaluatePending m d : Sampler σ α (List (Sample α))) fun _ _ => True := by
  refine Runs.meets_bind (Runs.meets_get (P := fun _ _ => True) fun _ => trivial)
    fun s _ _ => ?_
  have hvalues : Runs.Meets True (m.zAll ((s.pending.map d.sample).map (·.1))) fun _ _ => True :=
    (Runs.contract (Run α) True).mapM (P := fun _ _ => True) (Q := fun _ _ => True) trivial
      (fun _ _ _ _ _ _ => trivial)
      fun u _ => (m.meets_z u (.inr trivial)).mono fun _ _ _ => trivial
  refine Runs.meets_bind (Runs.meets_lift hvalues) fun zs _ _ => ?_
  exact Runs.meets_pure trivial

/-- A run in rounds does the same work from any journal; how much it is does not matter here. -/
theorem meets_rounds (c : Config α) (d : Density α) (fuel : Nat) (t : Tally α) :
    Runs.Meets True (rounds m c d fuel t : Sampler σ α (Tally α × Status)) fun _ _ => True := by
  induction fuel generalizing t with
  | zero => exact Runs.meets_pure trivial
  | succ fuel ih =>
    unfold rounds
    refine Runs.meets_bind (meets_refill c t) fun _ _ _ => ?_
    refine Runs.meets_bind (meets_evaluatePending d) fun samples _ _ => ?_
    refine Runs.meets_bind (meets_consume hm c samples t) fun b _ _ => ?_
    obtain ⟨t', ended⟩ := b
    cases ended with
    | none => exact ih t'
    | some status =>
      refine Runs.meets_bind (Runs.meets_modify _ (P := fun _ _ => True) trivial)
        fun _ _ _ => ?_
      exact Runs.meets_pure trivial

theorem meets_sequential (c : Config α) (d : Density α) :
    Runs.Meets True (sequential m c d : Sampler σ α (Outcome α)) fun o k => o.evaluations = k :=
  meets_counted (meets_single hm c d c.fuel .empty)

theorem meets_buffered (c : Config α) (d : Density α) :
    Runs.Meets True (buffered m c d : Sampler σ α (Outcome α)) fun o k => o.evaluations = k :=
  meets_counted (meets_rounds hm c d c.fuel .empty)

omit [RandomSource σ α]

theorem meets_runFresh (c : Config α) (d : Density α) :
    Runs.Meets True (runFresh m c d) fun o k => o.evaluations = k := by
  refine Sampler.meets_withSupply ?_ _
  exact (Runs.contract (Sampler _ α) True).ite (fun _ => meets_buffered hm c d)
    fun _ => meets_sequential hm c d

/-! ## The methods

Every method but the adaptive one makes one run and takes over its count. The loop of the adaptive
one begins with a count of zero and adds that of each run, the final one included. When no run is
left and none was made, there is nothing to add to (`hlast`), and the estimate says zero. -/

theorem Crude.meets_estimate (c : Config α) :
    Runs.Meets True (Crude.estimate c m) (Estimate.Accounts Crude.name) := by
  unfold Crude.estimate
  refine Runs.meets_bind (meets_runFresh hm c _) fun o k hk => ?_
  exact (o.meets_estimate m _ _).mono fun e n he => ⟨he.1.1, by rw [he.1.2, hk, he.2, Nat.add_zero]⟩

theorem Importance.meets_estimateWith (c : Importance.Config α) (d : Density α) :
    Runs.Meets True (Importance.estimateWith c d m) (Estimate.Accounts Importance.name) := by
  unfold Importance.estimateWith
  refine Runs.meets_bind (meets_runFresh hm c.sampling d) fun o k hk => ?_
  exact (o.meets_estimate m _ _).mono fun e n he => ⟨he.1.1, by rw [he.1.2, hk, he.2, Nat.add_zero]⟩

theorem Importance.meets_estimate (c : Importance.Config α) :
    Runs.Meets True (Importance.estimate c m) (Estimate.Accounts Importance.name) := by
  unfold Importance.estimate
  exact (Runs.contract (Run α) True).bind_free (Runs.meets_ofExcept (.inr trivial))
    fun d _ => meets_estimateWith hm c d

theorem Importance.meets_estimateAfter (c : Importance.Config α) (earlier : Estimate α) :
    Runs.Meets True (Importance.estimateAfter c earlier m) (Estimate.Accounts Importance.name) := by
  unfold Importance.estimateAfter
  exact (Runs.contract (Run α) True).bind_free (Runs.meets_ofExcept (.inr trivial))
    fun d _ => meets_estimateWith hm c d

namespace Adaptive

omit hm

theorem meets_finish (o : Outcome α) (status : Status) (steps evaluations : Nat) :
    Runs.Meets True (finish m o status steps evaluations : Sampler σ α (Estimate α)) fun e k =>
      e.Accounts name (evaluations + k) := by
  unfold finish
  refine (Runs.contract (Sampler _ α) True).bind_free
    (Runs.meets_lift (o.meets_estimate m name .weightedMean)) fun e he => ?_
  exact Runs.meets_pure ⟨he.1, rfl⟩

variable [RandomSource σ α]

/-- The runs that are left add what they take to the evaluations before them, whichever engine makes
them. -/
theorem meets_loops {run : Engine σ α}
    (hrun : ∀ c d, Runs.Meets True (run c d) fun o k => o.evaluations = k) (c : Config α)
    (left : Nat) (d : Density α) (steps evaluations : Nat) (last : Option (Outcome α))
    (hlast : last = none → evaluations = 0) :
    Runs.Meets True (loops run c m left d steps evaluations last) fun e k =>
      e.Accounts name (evaluations + k) := by
  induction left generalizing d steps evaluations last with
  | zero =>
    cases last with
    | none => exact Runs.meets_pure ⟨rfl, by rw [hlast rfl]; rfl⟩
    | some o => exact meets_finish o .noConvergence steps evaluations
  | succ left ih =>
    unfold loops
    refine Runs.meets_bind (hrun c.sampling d) fun o k hk => ?_
    simp only [← Nat.add_assoc]
    subst hk
    let C := Runs.contract (Sampler σ α) True
    refine C.ite (fun _ => meets_finish o _ _ _) fun _ => ?_
    refine C.ite (fun _ => ?_) fun _ => ?_
    · -- A wider density costs nothing.
      refine C.bind_free (Runs.meets_lift (Runs.meets_ofExcept (.inr trivial))) fun d' _ => ?_
      refine C.bind_free (Runs.meets_modify _ (P := fun _ k => True ∧ k = 0) ⟨trivial, rfl⟩)
        fun _ _ => ?_
      exact ih _ _ _ _ fun h => by cases h
    refine C.ite (fun _ => ?_) fun _ => ?_
    · -- The evaluations of a final run come on top of all before it.
      refine C.ite (fun _ => meets_finish o _ _ _) fun _ => ?_
      refine C.of_bind (hrun c.finalSampling d) fun o' n hn => ?_
      simp only [← Nat.add_assoc]
      subst hn
      exact meets_finish o' _ _ _
    · refine C.bind_free (Runs.meets_lift (Runs.meets_ofExcept (.inr trivial))) fun d' _ => ?_
      exact ih _ _ _ _ fun h => by cases h

theorem meets_estimateOn {run : Engine σ α}
    (hrun : ∀ c d, Runs.Meets True (run c d) fun o k => o.evaluations = k) (c : Config α) :
    Runs.Meets True (estimateOn run c m) (Estimate.Accounts name) := by
  unfold estimateOn
  refine (Runs.contract (Sampler _ α) True).bind_free
    (Runs.meets_lift (Runs.meets_ofExcept (.inr trivial))) fun d _ => ?_
  have hloops := meets_loops hrun c (m := m) c.maxLoops d 0 0 none fun _ => rfl
  simp only [Nat.zero_add] at hloops
  exact hloops

omit [RandomSource σ α]
include hm

theorem meets_estimate (c : Config α) :
    Runs.Meets True (estimate c m) (Estimate.Accounts name) :=
  Sampler.meets_withSupply (meets_estimateOn (meets_buffered hm) c) _

end Adaptive

end FailureProbability.Sampling
