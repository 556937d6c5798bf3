import FailureProbability.Proofs.Cancellation
import FailureProbability.Proofs.Sampling.Step
import FailureProbability.Sampling.Adaptive
import FailureProbability.Sampling.Crude
import FailureProbability.Sampling.Importance

/-!
# Cancellation of sampling

A run that is told to stop still has to name a design point. It comes from the tally, whose points
are all samples with a value and therefore points of the model (`Tally.Over`); without any it is
isotropic. The adaptive method passes the order on from each of its runs, the final one included.

The tally begins to sum points with its first sample of a domain, and the sums are a design point
only when there was one. That a weight above zero tells of a sample takes a number that is not below
itself, which is supposed of zero (`hzero`) and of nothing else; arithmetic is arbitrary otherwise.
-/

namespace FailureProbability

variable {σ α : Type} [Scalar α]

/-! ## Points of tallies

What a run that was told to stop needs of its tally is only how long its points are. That is a
matter of the tally alone: it holds of the empty one and is kept by every sample, so that no engine
has to be looked at for it. -/

namespace Nearest

/-- A point that is kept has so many coordinates. -/
def Over (n : Nat) (best : Option (Nearest α)) : Prop := ∀ p, best = some p → p.point.length = n

omit [Scalar α] in
theorem over_none (n : Nat) : Over n (none : Option (Nearest α)) := fun _ h => by cases h

/-- The better of two points is one of them. -/
theorem Over.offer {n : Nat} {best : Option (Nearest α)} {candidate : Nearest α}
    (h : Over n best) (hc : candidate.point.length = n) : Over n (offer best candidate) := by
  cases best with
  | none =>
    intro p hp
    cases hp
    exact hc
  | some b =>
    intro p hp
    rw [offer_some] at hp
    split at hp
    · cases hp
      exact hc
    · cases hp
      exact h b rfl

theorem Over.merge {n : Nat} {best other : Option (Nearest α)} (h : Over n best)
    (h' : Over n other) : Over n (merge best other) := by
  cases other with
  | none => exact h
  | some c => exact h.offer (h' c rfl)

end Nearest

namespace Sampling

/-- All that a domain keeps has so many coordinates; it has no sums before its first sample. -/
structure Domain.Over (n : Nat) (d : Domain α) : Prop where
  nearest : Nearest.Over n d.nearest
  weightedSum : d.weightedSum.length = n ∨ d.weightedSum = [] ∧ d.weight = 0

theorem Domain.over_empty (n : Nat) : (Domain.empty : Domain α).Over n :=
  ⟨Nearest.over_none n, .inr ⟨rfl, rfl⟩⟩

theorem Domain.Over.add {n : Nat} {d : Domain α} (h : d.Over n) {u : List α}
    (hu : u.length = n) (w : α) : (d.add u w).Over n := by
  refine ⟨h.nearest.offer hu, .inl ?_⟩
  simp only [Domain.add, Coordinates.length_addScaled]
  by_cases hempty : d.weightedSum.isEmpty
  · rw [if_pos hempty, Coordinates.length_origin, hu]
  · rw [if_neg hempty]
    rcases h.weightedSum with hlength | ⟨hnil, -⟩
    · exact hlength
    · simp [hnil] at hempty

/-- The point that stands for the samples has as many coordinates as they have. Without a sample
there is no weight, hence no point. -/
theorem Domain.Over.length_point (hzero : ¬(0 : α) < 0) {n : Nat} {d : Domain α} (h : d.Over n)
    {estimate : AlphaEstimate} {p : List α} (hp : d.point? estimate = some p) : p.length = n := by
  cases estimate with
  | nearest =>
    obtain ⟨b, hb, rfl⟩ := Option.map_eq_some_iff.mp hp
    exact h.nearest b hb
  | weightedMean =>
    unfold Domain.point? at hp
    dsimp only at hp
    by_cases hweight : 0 < d.weight
    · rw [if_pos hweight] at hp
      cases hp
      rcases h.weightedSum with hlength | ⟨-, hnone⟩
      · simpa using hlength
      · rw [hnone] at hweight
        exact absurd hweight hzero
    · rw [if_neg hweight] at hp
      cases hp

/-- All points that a tally keeps have so many coordinates. -/
structure Tally.Over (n : Nat) (t : Tally α) : Prop where
  failed : t.failed.Over n
  safe : t.safe.Over n

theorem Tally.over_empty (n : Nat) : (Tally.empty : Tally α).Over n :=
  ⟨Domain.over_empty n, Domain.over_empty n⟩

theorem Tally.Over.add {n : Nat} {t : Tally α} (h : t.Over n) {u : List α} (hu : u.length = n)
    (z w : α) : (t.add u z w).Over n := by
  unfold Tally.add
  split
  · exact ⟨h.failed.add hu w, h.safe⟩
  · exact ⟨h.failed, h.safe.add hu w⟩

theorem Tally.Over.length_direction (hzero : ¬(0 : α) < 0) {n : Nat} {t : Tally α}
    (h : t.Over n) (estimate : AlphaEstimate) : (t.direction n estimate).alpha.length = n := by
  unfold Tally.direction
  dsimp only
  have hrare : (if t.pf ≤ 0.5 then t.failed else t.safe).Over n := by
    split
    · exact h.failed
    · exact h.safe
  cases hpoint : (if t.pf ≤ 0.5 then t.failed else t.safe).point? estimate with
  | none => exact Direction.length_isotropic n t.beta
  | some p =>
    exact (Direction.length_ofPointAndBeta p t.beta).trans (hrare.length_point hzero hpoint)

/-! ## Engines

Both engines end with a verdict on their tally, and the verdict puts an order to stop before
everything else. Vectors that are drawn and samples that are evaluated ahead of the tally make no
report. `Reported` is what an engine hands on: how it ended, and points of the right length. -/

theorem Config.verdict_eq_aborted (c : Config α) (answer : Control) (n : Nat)
    (failure noFailure : α) :
    c.verdict answer n failure noFailure = some .abortedByUser ↔ answer = .abort := by
  unfold verdict
  by_cases habort : answer = .abort
  · simp [habort]
  · rw [if_neg habort]
    simp only [habort, iff_false]
    split
    · simp
    · split <;> simp

/-- An order to stop takes precedence over what else would end a run. -/
theorem Config.heeds_settle (c : Config α) (m : Model α) (n : Nat) (pf failure noFailure : α) :
    Runs.Heeds (c.settle m n pf failure noFailure) fun order ended =>
      ended = some .abortedByUser ↔ order = .abort := by
  refine Runs.heeds_iff.mpr fun j => ?_
  rw [exec_settle]
  exact .ok (Journal.under_record j _ _) (c.verdict_eq_aborted ..)

theorem Config.heeds_judge (c : Config α) (m : Model α) (t : Tally α) :
    Runs.Heeds (c.judge m t) fun order ended => ended = some .abortedByUser ↔ order = .abort :=
  c.heeds_settle m t.count t.pf t.covarFailure t.covarNoFailure

omit [Scalar α] in
theorem Sampler.heeds_withSupply {β : Type} {r : Sampler σ α β} {P : Control → β → Prop}
    (h : Runs.Heeds r P) (s : Supply σ α) : Runs.Heeds (Sampler.withSupply s r) P := by
  refine Runs.heeds_iff.mpr fun j => ?_
  rw [Sampler.exec_withSupply]
  exact h s j

/-- How a run ended tells whether there was an order to stop, and its tally keeps points of the
model. -/
structure Reported (m : Model α) (order : Control) (t : Tally α) (ended : Option Status) :
    Prop where
  status : ended = some .abortedByUser ↔ order = .abort
  tally : t.Over m.dimension

variable {m : Model α}

theorem Reported.status_eq {t : Tally α} {status : Status}
    (h : Reported m .abort t (some status)) : status = .abortedByUser :=
  Option.some.inj (h.status.mpr rfl)

theorem Reported.status_ne {t : Tally α} {status : Status}
    (h : Reported m .proceed t (some status)) : status ≠ .abortedByUser := by
  rintro rfl
  exact absurd (h.status.mp rfl) (by decide)

/-- Tallying stops at the sample at which the order comes; the rest of the chunk is not tallied. -/
theorem heeds_consume (c : Config α) {samples : List (Sample α)}
    (hsamples : ∀ s ∈ samples, s.u.length = m.dimension) {t : Tally α}
    (ht : t.Over m.dimension) :
    Runs.Heeds (consume m c samples t : Sampler σ α (Tally α × Option Status)) fun order b =>
      Reported m order b.1 b.2 := by
  induction samples generalizing t with
  | nil => exact Runs.heeds_pure ⟨by simp, ht⟩
  | cons s samples ih =>
    have ht' : (t.add s.u s.z s.weight).Over m.dimension :=
      ht.add (hsamples s (by simp)) s.z s.weight
    unfold consume
    refine (Runs.silent_modify _).heeds_bind fun _ _ => ?_
    refine Runs.heeds_bind (Runs.heeds_lift (c.heeds_judge m _)) (fun ended hended => ?_)
      fun ended hended => ?_
    · cases ended with
      | none => exact ih (fun s' hs' => hsamples s' (by simp [hs'])) ht'
      | some status => exact Runs.heeds_pure ⟨hended, ht'⟩
    · rw [hended.mpr rfl]
      exact Runs.ends_pure ⟨by simp, ht'⟩

theorem silent_evaluatePending (d : Density α) :
    Runs.Silent (evaluatePending m d : Sampler σ α (List (Sample α))) fun samples =>
      ∀ s ∈ samples, s.u.length = m.dimension := by
  refine Runs.silent_bind Runs.silent_get fun p _ => ?_
  refine Runs.silent_bind (Runs.silent_lift (m.silent_zAll _)) fun zs hpoints => ?_
  refine Runs.silent_pure ?_
  intro s hs
  rw [List.mem_iff_getElem] at hs
  obtain ⟨i, hi, rfl⟩ := hs
  rw [List.getElem_zipWith]
  exact hpoints _ (List.mem_map_of_mem (List.getElem_mem _))

variable [RandomSource σ α]

omit [Scalar α] in
theorem silent_refill (c : Config α) (t : Tally α) :
    Runs.Silent (refill m c t : Sampler σ α Unit) fun _ => True := by
  intro s j
  rw [Runs.exec_runWith, exec_refill]
  exact ⟨rfl, fun _ _ => trivial⟩

/-- The engine in rounds ends with the round in which the order comes. -/
theorem heeds_rounds (c : Config α) (d : Density α) (fuel : Nat) {t : Tally α}
    (ht : t.Over m.dimension) :
    Runs.Heeds (rounds m c d fuel t : Sampler σ α (Tally α × Status)) fun order b =>
      Reported m order b.1 (some b.2) := by
  induction fuel generalizing t with
  | zero => exact Runs.heeds_pure ⟨by simp, ht⟩
  | succ fuel ih =>
    unfold rounds
    refine (silent_refill c t).heeds_bind fun _ _ => ?_
    refine (silent_evaluatePending d).heeds_bind fun samples hsamples => ?_
    refine Runs.heeds_bind (heeds_consume c hsamples ht) (fun b hb => ?_) fun b hb => ?_
    · obtain ⟨t', ended⟩ := b
      cases ended with
      | none => exact ih hb.tally
      | some status =>
        exact (Runs.silent_modify _).heeds_bind fun _ _ => Runs.heeds_pure hb
    · obtain ⟨t', ended⟩ := b
      have hended : ended = some .abortedByUser := hb.status.mpr rfl
      subst hended
      exact Runs.ends_bind (Runs.ends_modify _) fun _ _ => Runs.ends_pure hb

omit [Scalar α] in
theorem silent_draw (n : Nat) :
    Runs.Silent (Sampler.draw n : Sampler σ α (List α)) fun _ => True :=
  fun _ _ => ⟨rfl, fun _ _ => trivial⟩

/-- The engine of single samples ends with the sample at which the order comes. -/
theorem heeds_single (c : Config α) (d : Density α) (fuel : Nat) {t : Tally α}
    (ht : t.Over m.dimension) :
    Runs.Heeds (single m c d fuel t : Sampler σ α (Tally α × Status)) fun order b =>
      Reported m order b.1 (some b.2) := by
  induction fuel generalizing t with
  | zero => exact Runs.heeds_pure ⟨by simp, ht⟩
  | succ fuel ih =>
    unfold single
    refine (silent_draw m.dimension).heeds_bind fun eps _ => ?_
    refine (Runs.silent_lift (m.silent_z _)).heeds_bind fun z hu => ?_
    have ht' : (t.add (d.sample eps).1 z (d.sample eps).2).Over m.dimension := ht.add hu z _
    refine Runs.heeds_bind (Runs.heeds_lift (c.heeds_judge m _)) (fun ended hended => ?_)
      fun ended hended => ?_
    · cases ended with
      | none => exact ih ht'
      | some status => exact Runs.heeds_pure ⟨hended, ht'⟩
    · rw [hended.mpr rfl]
      exact Runs.ends_pure ⟨by simp, ht'⟩

omit [RandomSource σ α] in
/-- The counter is read on both sides of a run, which is no evaluation. -/
theorem heeds_counted {run : Sampler σ α (Tally α × Status)}
    (h : Runs.Heeds run fun order b => Reported m order b.1 (some b.2)) :
    Runs.Heeds (counted run) fun order o => Reported m order o.tally (some o.status) := by
  have hg : ∀ (order : Control) (b : Tally α × Status) (k : Nat), Reported m order b.1 (some b.2) →
      Reported m order (Outcome.mk b.1 b.2 k).tally (some (Outcome.mk b.1 b.2 k).status) :=
    fun _ _ _ hb => hb
  rw [counted_eq]
  exact Runs.Heeds.measured (M := Sampler σ α) h hg

theorem heeds_sequential (c : Config α) (d : Density α) :
    Runs.Heeds (sequential m c d : Sampler σ α (Outcome α)) fun order o =>
      Reported m order o.tally (some o.status) :=
  heeds_counted (heeds_single c d c.fuel (Tally.over_empty _))

theorem heeds_buffered (c : Config α) (d : Density α) :
    Runs.Heeds (buffered m c d : Sampler σ α (Outcome α)) fun order o =>
      Reported m order o.tally (some o.status) :=
  heeds_counted (heeds_rounds c d c.fuel (Tally.over_empty _))

omit [RandomSource σ α]

theorem heeds_runFresh (c : Config α) (d : Density α) :
    Runs.Heeds (runFresh m c d) fun order o => Reported m order o.tally (some o.status) := by
  refine Sampler.heeds_withSupply ?_ _
  split
  · exact heeds_buffered c d
  · exact heeds_sequential c d

/-! ## The methods

A method makes its estimate of an outcome, which reports nothing and needs no evaluation. The
adaptive one is the only one with several outcomes. It looks at the status of each before it
decides on anything, so that no density is changed and no run is begun after an order to stop. -/

theorem Outcome.silent_estimate (o : Outcome α) (method : String) (alpha : AlphaEstimate) :
    Runs.Silent (o.estimate m method alpha) fun e => e.status = o.status := by
  refine Runs.silent_bind (Runs.silent_ofExcept _) fun x _ => ?_
  exact Runs.silent_pure rfl

section

variable (hzero : ¬(0 : α) < 0) (hm : m.setup.Accepted)
include hzero hm

/-- A tally of points of the model has a design point of the model. -/
theorem Outcome.ends_estimate {o : Outcome α} (ho : o.tally.Over m.dimension) (method : String)
    (alpha : AlphaEstimate) :
    Runs.Ends (o.estimate m method alpha) fun e => e.status = o.status := by
  have hlength : (o.tally.direction m.dimension alpha).designPoint.length = m.dimension := by
    rw [Direction.length_designPoint]
    exact ho.length_direction hzero alpha
  refine Runs.ends_bind (Runs.ends_ofExcept (m.exists_x hm hlength) fun x hx => hx) fun x _ => ?_
  exact Runs.ends_pure rfl

/-- An estimate from a run that heeds the monitor. -/
theorem heeds_estimate {run : Run α (Outcome α)}
    (h : Runs.Heeds run fun order o => Reported m order o.tally (some o.status)) (method : String)
    (alpha : AlphaEstimate) :
    Runs.Heeds (run >>= fun o => o.estimate m method alpha) fun order e => e.Obeys order := by
  refine Runs.heeds_bind h (fun o ho => ?_) fun o ho => ?_
  · refine (o.silent_estimate method alpha).heeds.mono ?_
    rintro order e ⟨rfl, he⟩
    exact Estimate.obeys_proceed (he ▸ ho.status_ne)
  · refine (Outcome.ends_estimate hzero hm ho.tally method alpha).mono fun e he => ?_
    exact Estimate.obeys_abort (he.trans ho.status_eq)

theorem Crude.heeds_estimate (c : Config α) :
    Runs.Heeds (Crude.estimate c m) fun order e => e.Obeys order :=
  Sampling.heeds_estimate hzero hm (heeds_runFresh c _) Crude.name .nearest

theorem Importance.heeds_estimateWith (c : Importance.Config α) (d : Density α) :
    Runs.Heeds (Importance.estimateWith c d m) fun order e => e.Obeys order :=
  Sampling.heeds_estimate hzero hm (heeds_runFresh c.sampling d) Importance.name .weightedMean

theorem Importance.heeds_estimate (c : Importance.Config α) :
    Runs.Heeds (Importance.estimate c m) fun order e => e.Obeys order := by
  refine (Runs.silent_ofExcept _).heeds_bind fun d _ => ?_
  exact heeds_estimateWith hzero hm c d

theorem Importance.heeds_estimateAfter (c : Importance.Config α) (earlier : Estimate α) :
    Runs.Heeds (Importance.estimateAfter c earlier m) fun order e => e.Obeys order := by
  refine (Runs.silent_ofExcept _).heeds_bind fun d _ => ?_
  exact heeds_estimateWith hzero hm c d

namespace Adaptive

omit hzero hm in
/-- The last estimate has the status that it is given. -/
theorem silent_finish (o : Outcome α) (status : Status) (steps evaluations : Nat) :
    Runs.Silent (finish m o status steps evaluations : Sampler σ α (Estimate α)) fun e =>
      e.status = status := by
  refine Runs.silent_bind (Runs.silent_lift (o.silent_estimate _ _)) fun e _ => ?_
  exact Runs.silent_pure rfl

omit hzero hm in
theorem heeds_finish {status : Status} (hstatus : status ≠ .abortedByUser) (o : Outcome α)
    (steps evaluations : Nat) :
    Runs.Heeds (finish m o status steps evaluations : Sampler σ α (Estimate α))
      fun order e => e.Obeys order := by
  refine (silent_finish o status steps evaluations).heeds.mono ?_
  rintro order e ⟨rfl, he⟩
  exact Estimate.obeys_proceed (he ▸ hstatus)

theorem ends_finish {o : Outcome α} (ho : o.tally.Over m.dimension) (steps evaluations : Nat) :
    Runs.Ends (finish m o .abortedByUser steps evaluations : Sampler σ α (Estimate α))
      fun e => e.Obeys .abort := by
  refine Runs.ends_bind (Runs.ends_lift (Outcome.ends_estimate hzero hm ho _ _))
    fun e _ => ?_
  exact Runs.ends_pure (Estimate.obeys_abort rfl)

variable [RandomSource σ α]

/-- A run that is told to stop is the last one; a final run passes the order on. -/
theorem heeds_loops {run : Engine σ α}
    (hrun : ∀ c d, Runs.Heeds (run c d) fun order o => Reported m order o.tally (some o.status))
    (c : Config α) (left : Nat) (d : Density α) (steps evaluations : Nat)
    (last : Option (Outcome α)) :
    Runs.Heeds (loops run c m left d steps evaluations last) fun order e => e.Obeys order := by
  induction left generalizing d steps evaluations last with
  | zero =>
    cases last with
    | none => exact Runs.heeds_pure (Estimate.obeys_proceed nofun)
    | some o => exact heeds_finish (by decide) o steps evaluations
  | succ left ih =>
    unfold loops
    refine Runs.heeds_bind (hrun c.sampling d) (fun o ho => ?_) fun o ho => ?_
    -- A run without an order to stop: it is followed by another one, by a final one, or by none.
    · have hstatus : o.status ≠ .abortedByUser := ho.status_ne
      dsimp only
      rw [if_neg hstatus]
      by_cases hfew : o.tally.failed.count < c.minFailed
      · rw [if_pos hfew]
        refine (Runs.silent_lift (Runs.silent_ofExcept _)).heeds_bind fun d' _ => ?_
        refine (Runs.silent_modify _).heeds_bind fun _ _ => ?_
        exact ih _ _ _ _
      rw [if_neg hfew]
      by_cases hbalanced : c.isBalanced o.tally = true
      · rw [if_pos hbalanced]
        by_cases hscale : c.finalRunScale ≤ 1
        · rw [if_pos hscale]
          exact heeds_finish hstatus o _ _
        · rw [if_neg hscale]
          refine Runs.heeds_bind (hrun c.finalSampling d) (fun o' ho' => ?_) fun o' ho' => ?_
          · exact heeds_finish ho'.status_ne o' _ _
          · rw [ho'.status_eq]
            exact ends_finish hzero hm ho'.tally _ _
      · rw [if_neg hbalanced]
        refine (Runs.silent_lift (Runs.silent_ofExcept _)).heeds_bind fun d' _ => ?_
        exact ih _ _ _ _
    -- The status of a run that was stopped is looked at before anything else.
    · dsimp only
      rw [if_pos ho.status_eq]
      exact ends_finish hzero hm ho.tally _ _

theorem heeds_estimateOn {run : Engine σ α}
    (hrun : ∀ c d, Runs.Heeds (run c d) fun order o => Reported m order o.tally (some o.status))
    (c : Config α) :
    Runs.Heeds (estimateOn run c m) fun order e => e.Obeys order := by
  refine (Runs.silent_lift (Runs.silent_ofExcept _)).heeds_bind fun d _ => ?_
  exact heeds_loops hzero hm hrun c c.maxLoops d 0 0 none

omit [RandomSource σ α]

theorem heeds_estimate (c : Config α) :
    Runs.Heeds (estimate c m) fun order e => e.Obeys order :=
  Sampler.heeds_withSupply (heeds_estimateOn hzero hm heeds_buffered c) _

end Adaptive

end

end Sampling

end FailureProbability
