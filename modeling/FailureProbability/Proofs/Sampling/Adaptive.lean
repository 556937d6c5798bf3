import FailureProbability.Proofs.Agreement
import FailureProbability.Proofs.Sampling.Lockstep
import FailureProbability.Sampling.Adaptive
import FailureProbability.Sampling.Importance

/-!
# Adaptive sampling with either engine

The runs of adaptive importance sampling share one circular supply, so that what one run leaves
pending is the beginning of the next. With the buffered engine the runs are therefore those that the
sequential engine makes on the same source. The supplies stay abreast from run to run, and also when
the source begins anew.

The two engines evaluate different points: the buffered one evaluates those that it leaves pending,
and evaluates them again in the next run. Hence estimates are compared up to the evaluations
(`Agree`), and the monitor must not look at these either. The limit state has to be finite
everywhere, as one of the points that only one engine evaluates could make it fail alone.

Densities are made from settings that may be refused, in any run. They keep their dimension, so that
the points that are drawn have as many coordinates as the model.
-/

namespace FailureProbability.Sampling

variable {α : Type} [Scalar α]

/-! ## Densities keep their dimension -/

/-- A density that was accepted is the one that was asked for, with as many means as variances. -/
theorem Density.eq_of_new {offset varianceFactor : List α} {d : Density α}
    (h : Density.new offset varianceFactor = .ok d) :
    offset.length = varianceFactor.length ∧ d = ⟨offset, varianceFactor⟩ := by
  unfold Density.new at h
  split at h
  · cases h
  · rename_i hlength
    split at h
    · cases h
    · split at h
      · cases h
      · exact ⟨Decidable.not_not.mp hlength, (Except.ok.inj h).symm⟩

/-- A density that was accepted is over as many variables as it has variance factors. -/
theorem Density.hasDimension_of_new {offset varianceFactor : List α} {d : Density α} {n : Nat}
    (h : Density.new offset varianceFactor = .ok d) (hn : varianceFactor.length = n) :
    d.HasDimension n := by
  obtain ⟨hlength, rfl⟩ := eq_of_new h
  exact ⟨hlength.trans hn, hn⟩

theorem Density.hasDimension_standard (n : Nat) : (standard n : Density α).HasDimension n :=
  ⟨Coordinates.length_origin n, List.length_replicate ..⟩

theorem Importance.Config.hasDimension_density {c : Importance.Config α} {n : Nat}
    {centre : Option (List α)} {d : Density α} (h : c.density n centre = .ok d) :
    d.HasDimension n := by
  unfold density at h
  dsimp only at h
  generalize centre.getD _ = offset at h
  split at h
  · cases h
  · exact Density.hasDimension_of_new h (List.length_replicate ..)

namespace Adaptive

theorem Config.hasDimension_density {c : Config α} {n : Nat} {d : Density α}
    (h : c.density n = .ok d) : d.HasDimension n :=
  Density.hasDimension_of_new h (List.length_replicate ..)

theorem hasDimension_withVarianceScaled {d d' : Density α} {n : Nat} {factor : α}
    (hd : d.HasDimension n) (h : d.withVarianceScaled factor = .ok d') : d'.HasDimension n :=
  Density.hasDimension_of_new h (by rw [List.length_map, hd.varianceFactor])

theorem Config.hasDimension_recentre {c : Config α} {n : Nat} {d d' : Density α} {t : Tally α}
    (hd : d.HasDimension n) (h : c.recentre n d t = .ok d') : d'.HasDimension n := by
  unfold Config.recentre at h
  split at h
  · exact Density.hasDimension_of_new h hd.varianceFactor
  · cases h
    exact hd

/-! ## The estimate of a run -/

variable {σ : Type}

/-- The last estimate depends on the tally of its run alone. -/
theorem exec_finish (m : Model α) (o : Outcome α) (status : Status) (steps evaluations : Nat)
    (s : Supply σ α) (j : Journal α) :
    RunWith.exec (finish m o status steps evaluations) s j =
      let d := o.tally.direction m.dimension .weightedMean
      ((m.x d.designPoint).map fun x =>
        ⟨status, d, x, d.designPoint, name, steps, evaluations⟩, s, j) := by
  dsimp only
  unfold finish Outcome.estimate
  dsimp only
  rw [RunWith.exec_bind, RunWith.exec_lift, Run.exec_bind, Run.exec_ofExcept]
  cases m.x (o.tally.direction m.dimension .weightedMean).designPoint <;> rfl

/-- Tallies that agree lead to estimates that do. -/
theorem agree_finish {m : Model α} {o o' : Outcome α} (h : o.tally = o'.tally) (status : Status)
    (steps evaluations evaluations' : Nat) (s s' : Supply σ α) (j j' : Journal α) :
    Agree (RunWith.exec (finish m o status steps evaluations) s j).1
      (RunWith.exec (finish m o' status steps evaluations') s' j').1 := by
  rw [exec_finish, exec_finish, h]
  dsimp only
  cases m.x (o'.tally.direction m.dimension .weightedMean).designPoint with
  | error e => exact .error e
  | ok x => exact .ok rfl

/-! ## All runs -/

variable [RandomSource σ α]

omit [Scalar α] in
/-- A source that begins anew begins at the same place for both. -/
theorem abreast_restart [RandomSource.Rewinds σ α] {n : Nat} {s p : Supply σ α}
    {js j : Journal α} (h : Abreast n s p js j) :
    Abreast n s.restart.clear p.restart.clear js j := by
  refine ⟨RandomSource.yields_nil.mpr ?_, h.heard⟩
  exact h.stream.restart_eq.symm

/-- A run of the buffered engine on a circular supply, and the run of the sequential engine beside
it. -/
theorem exec_both {m : Model α} (hm : m.monitor.HearsProgress)
    (hfinite : Model.FiniteEverywhere m.setup m.limitState) {d : Density α}
    (hd : d.HasDimension m.dimension) (c : Sampling.Config α) {s p : Supply σ α}
    {js j : Journal α} (habreast : Abreast m.dimension s p js j) (hp : p.circular = true) :
    ∃ o p' j' s' js', RunWith.exec (buffered m c d) p j = (.ok o, p', j') ∧
      RunWith.exec (sequential m c d) s js =
        (.ok { o with evaluations := o.tally.count }, s', js') ∧
      Abreast m.dimension s' p' js' j' ∧ p'.circular = true := by
  obtain ⟨o, p', j', hbuffered⟩ := exec_buffered_isOk hfinite hd c habreast.stream j
  obtain ⟨s', js', p₁, hsequential, hlast, hsettle⟩ :=
    exec_sequential_of_buffered hm habreast hbuffered
  have hp' := (circular_of_exec_buffered habreast.stream hbuffered).trans hp
  have hp₁ : p₁.circular = true := by rw [← Supply.circular_settle, ← hsettle, hp']
  rw [Supply.settle_of_circular hp₁] at hsettle
  subst hsettle
  exact ⟨o, p', j', s', js', hbuffered, hsequential, hlast, hp'⟩

/-- As many runs are left for both engines, and what they know of the run before agrees. -/
theorem agree_loops [RandomSource.Rewinds σ α] {m : Model α} (hm : m.monitor.HearsProgress)
    (hfinite : Model.FiniteEverywhere m.setup m.limitState) (c : Config α) {left : Nat}
    {d : Density α} (hd : d.HasDimension m.dimension) (steps evaluations evaluations' : Nat)
    {last last' : Option (Outcome α)} (hlast : last.map (·.tally) = last'.map (·.tally))
    {s p : Supply σ α} {js j : Journal α} (habreast : Abreast m.dimension s p js j)
    (hp : p.circular = true) :
    Agree (RunWith.exec (loops (buffered m) c m left d steps evaluations last) p j).1
      (RunWith.exec (loops (sequential m) c m left d steps evaluations' last') s js).1 := by
  induction left generalizing d steps evaluations evaluations' last last' s p js j with
  | zero =>
    cases last with
    | none =>
      cases last' with
      | none => exact .ok rfl
      | some o' => cases hlast
    | some o =>
      cases last' with
      | none => cases hlast
      | some o' =>
        have htally : o.tally = o'.tally := Option.some.inj hlast
        exact agree_finish htally ..
  | succ left ih =>
    obtain ⟨o, p₁, j₁, s₁, js₁, hbuffered, hsequential, hnext, hp₁⟩ :=
      exec_both hm hfinite hd c.sampling habreast hp
    rw [loops, loops, RunWith.exec_bind_ok hbuffered, RunWith.exec_bind_ok hsequential]
    dsimp only
    refine RunWith.answers_ite (fun _ => agree_finish (by rfl) ..) fun _ => ?_
    refine RunWith.answers_ite (fun _ => ?_) fun _ => RunWith.answers_ite (fun _ => ?_) fun _ => ?_
    · -- Too few failures: the density is widened, and both sources begin anew.
      rw [RunWith.exec_ofExcept_bind, RunWith.exec_ofExcept_bind]
      cases hwide : d.withVarianceScaled c.varianceIncrease with
      | error e => exact .error e
      | ok d' =>
        dsimp only
        rw [RunWith.exec_bind_ok (RunWith.exec_modify ..),
          RunWith.exec_bind_ok (RunWith.exec_modify ..)]
        exact ih (hasDimension_withVarianceScaled hd hwide) _ _ _ (by rfl) (abreast_restart hnext)
          hp₁
    · -- A balanced run: its estimate, or that of a final run with the same density.
      refine RunWith.answers_ite (fun _ => agree_finish (by rfl) ..) fun _ => ?_
      obtain ⟨o', p₂, j₂, s₂, js₂, hbuffered', hsequential', -, -⟩ :=
        exec_both hm hfinite hd c.finalSampling hnext hp₁
      rw [RunWith.exec_bind_ok hbuffered', RunWith.exec_bind_ok hsequential']
      exact agree_finish (by rfl) ..
    · -- The density moves, and the next run begins with what this one left.
      rw [RunWith.exec_ofExcept_bind, RunWith.exec_ofExcept_bind]
      cases hmove : c.recentre m.dimension d o.tally with
      | error e => exact .error e
      | ok d' => exact ih (Config.hasDimension_recentre hd hmove) _ _ _ (by rfl) hnext hp₁

/-- On a fresh circular supply both engines lead to estimates that agree. -/
theorem agree_estimateOn [RandomSource.Rewinds σ α] {m : Model α}
    (hm : m.monitor.HearsProgress) (hfinite : Model.FiniteEverywhere m.setup m.limitState)
    (c : Config α) (source : σ) (j : Journal α) :
    Agree (RunWith.exec (estimateOn (buffered m) c m) (.fresh source true) j).1
      (RunWith.exec (estimateOn (sequential m) c m) (.fresh source true) j).1 := by
  unfold estimateOn
  rw [RunWith.exec_ofExcept_bind, RunWith.exec_ofExcept_bind]
  cases hd : c.density m.dimension with
  | error e => exact .error e
  | ok d =>
    exact agree_loops hm hfinite c (Config.hasDimension_density hd) 0 0 0 rfl
      (abreast_fresh m.dimension source true true j) rfl

end Adaptive

end FailureProbability.Sampling
