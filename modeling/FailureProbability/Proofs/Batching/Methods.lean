import FailureProbability.Proofs.Batching
import FailureProbability.Proofs.Directional.Walk
import FailureProbability.Proofs.Grid
import FailureProbability.Proofs.Sampling.Adaptive

/-!
# Single methods in any batches

Every single method gives alike estimates whatever its batching, when the monitor is silent and the
limit state has a finite value everywhere. A grid is reported on at other times; directions are
walked through to the same end; the buffered engine ends where the sequential one does, which knows
no batches.

Neither supposition can be dropped. A monitor that stops a run at a report stops it elsewhere when
the reports come at other times. A value that is not finite is met by the run that draws further
ahead and not by the other. Evaluations are left out of the comparison, as they do depend on the
batching.

No method is compared with itself in another batching directly. Each is compared with something that
knows no batches, a walk or a sequential run, and two runs that agree with the same thing agree with
each other.
-/

namespace FailureProbability

variable {α : Type} [Scalar α] {m : Model α}

/-! ## The first-order method

The search itself does not look at the batching: the points of a gradient are evaluated together or
not, and the gradient is the same. -/

theorem Form.related_estimate (hm : m.monitor.IsStateless) (c : Config α) (b b' : Batching) :
    Run.Related Estimate.Alike (estimate c (m.batch b)) (estimate c (m.batch b')) := by
  rw [estimate_batch, estimate_batch]
  exact (meets_estimate hm c).related.mono fun a a' h => h ▸ .refl a

theorem Form.related_estimateAfter (hm : m.monitor.IsStateless) (c : Config α) (b b' : Batching)
    {a a' : Estimate α} (h : a.Alike a') :
    Run.Related Estimate.Alike (estimateAfter c a (m.batch b)) (estimateAfter c a' (m.batch b')) := by
  obtain ⟨k, rfl⟩ := h.exists_eq
  rw [estimateAfter_batch, estimateAfter_batch]
  exact (meets_estimateAfter hm c a).related.mono fun a a' h => h ▸ .refl a

/-! ## Integration on a grid

A grid is reported on after as many slices as the batching says. Without a monitor that answers
such a report changes the journal only, so that the slices can be compared as if no report were
due. -/

namespace Grid

omit [Scalar α] in
/-- A report to a silent monitor, if one is due, changes nothing but the journal. -/
theorem exec_unless_stopped {β : Type} (hm : m.monitor = .silent) (due : Prop) [Decidable due]
    (p : Progress α) (stopped next : Run α β) (j : Journal α) :
    ∃ j', (if due then do
        if ← m.report p then stopped else next
      else next).exec j = next.exec j' := by
  by_cases h : due
  · rw [if_pos h, Run.exec_bind_ok (Model.exec_report m p j), Model.answer, hm]
    exact ⟨_, rfl⟩
  · rw [if_neg h]
    exact ⟨j, rfl⟩

omit [Scalar α] in
/-- With silent monitors it makes no difference where reports are due. -/
theorem related_unless_stopped {β : Type} {R : β → β → Prop} {m' : Model α}
    (hm : m.monitor = .silent) (hm' : m'.monitor = .silent) {due due' : Prop} [Decidable due]
    [Decidable due'] {p p' : Progress α} {stopped stopped' next next' : Run α β}
    (h : Run.Related R next next') :
    Run.Related R
      (if due then do
        if ← m.report p then stopped else next
      else next)
      (if due' then do
        if ← m'.report p' then stopped' else next'
      else next') := by
  intro j j'
  obtain ⟨k, hk⟩ := exec_unless_stopped hm due p stopped next j
  obtain ⟨k', hk'⟩ := exec_unless_stopped hm' due' p' stopped' next' j'
  rw [hk, hk']
  exact h k k'

theorem related_slices (hm : m.monitor = .silent) (b b' : Batching) (cells rest : List (Cell α))
    (done : Nat) (t : Tally α) :
    Run.Related (fun r r' => r = r') (slices (m.batch b) cells rest done t)
      (slices (m.batch b') cells rest done t) := by
  induction rest generalizing done t with
  | nil => exact Run.related_pure rfl
  | cons c rest ih =>
    unfold slices
    rw [integrate_batch, integrate_batch]
    refine Run.related_bind (meets_integrate m cells _ _ _ _).related fun part _ hpart => ?_
    subst hpart
    exact related_unless_stopped hm hm (ih _ _)

theorem related_findings (hm : m.monitor = .silent) (b b' : Batching) (c : Config α) :
    Run.Related (fun r r' => r = r') (findings c (m.batch b)) (findings c (m.batch b')) := by
  unfold findings
  refine Run.related_ite (fun _ _ _ => .error _) fun _ => ?_
  refine Run.related_bind (related_slices hm b b' c.cells c.cells 0 .empty) fun r _ hr => ?_
  subst hr
  refine Run.related_bind (Run.related_ofExcept (.of_eq rfl)) fun x _ hx => ?_
  subst hx
  exact Run.related_pure rfl

theorem related_estimate (hm : m.monitor = .silent) (b b' : Batching) (c : Config α) :
    Run.Related Estimate.Alike (estimate c (m.batch b)) (estimate c (m.batch b')) := by
  rw [estimate_eq, estimate_eq]
  exact Run.related_measured (related_findings hm b b' c) fun _ _ _ => rfl

end Grid

/-! ## Directional sampling

Directions are drawn in rounds of a size that the batching tells. The walk knows no rounds: it
takes one direction after the other from the source, up to the first at which the run settles. A
run ends where the walk ends, whatever the size of its rounds. -/

namespace Directional

variable {σ : Type} [RandomSource σ α]

/-- Where every point has a finite value, a run answers with the end of a walk that knows no
batches. -/
theorem exec_rounds_batch (hm : m.monitor = .silent)
    (hfinite : Model.FiniteEverywhere m.setup m.limitState) {c : Config α}
    (hc : 0 < c.sampling.maxSamples) (z0 : α) (source : σ) (b : Batching) (j : Journal α) :
    ∃ r j', (Sampling.Sampler.withSupply (Sampling.Supply.fresh source false)
        (rounds (c.batch b) (m.batch b) z0 c.sampling.fuel (.empty m.dimension))).exec j =
          (.ok r, j') ∧
      Walks (nextDirection m.dimension Random.tries) (found c m z0) c.judged
        (.empty m.dimension) source r := by
  have hsilent : (m.batch b).monitor = .silent := hm
  have hstateless := Monitor.isStateless_of_eq_silent hsilent
  have hvalues : ∀ d : List α, d.length = m.dimension →
      ∀ r, ∃ z, (m.batch b).value (Coordinates.scale r d) = .ok z :=
    fun d hd r => hfinite.value (m := m.batch b) ((Coordinates.length_scale r d).trans hd)
  -- A run fails only where a value on a ray does, and none does.
  have hmeets : Runs.Meets False (rounds (c.batch b) (m.batch b) z0 c.sampling.fuel
      (.empty m.dimension) : Sampling.Sampler σ α (Tally α × Status)) fun _ _ => True :=
    meets_rounds hstateless (c.batch b) z0 (.inl hvalues) c.sampling.fuel (.empty m.dimension)
  obtain ⟨x, s, k, hx, hok⟩ := hmeets (Sampling.Supply.fresh source false)
  -- What remains is to read a run that answers as a walk.
  rcases hrun : RunWith.exec (rounds (c.batch b) (m.batch b) z0 c.sampling.fuel
      (.empty m.dimension)) (Sampling.Supply.fresh source false) j with ⟨e | r, s', j'⟩
  · have hans := (hx j).1
    rw [Runs.exec_runWith, hrun] at hans
    subst hans
    exact hok.elim
  · have hready : Sampling.Ready (c.batch b).sampling (.empty m.dimension : Tally α).count
        c.sampling.fuel := Sampling.ready_fuel (c.sampling.batch b)
    refine ⟨r, j', ?_, walks_of_exec_rounds hsilent hready hc hrun⟩
    rw [Sampling.Sampler.exec_withSupply, hrun]

theorem related_rounds (hm : m.monitor = .silent)
    (hfinite : Model.FiniteEverywhere m.setup m.limitState) {c : Config α}
    (hc : 0 < c.sampling.maxSamples) (z0 : α) (source : σ) (b b' : Batching) :
    Run.Related (fun r r' => r = r')
      (Sampling.Sampler.withSupply (Sampling.Supply.fresh source false)
        (rounds (c.batch b) (m.batch b) z0 c.sampling.fuel (.empty m.dimension)))
      (Sampling.Sampler.withSupply (Sampling.Supply.fresh source false)
        (rounds (c.batch b') (m.batch b') z0 c.sampling.fuel (.empty m.dimension))) := by
  intro j j'
  obtain ⟨r, k, hr, hwalks⟩ := exec_rounds_batch hm hfinite hc z0 source b j
  obtain ⟨r', k', hr', hwalks'⟩ := exec_rounds_batch hm hfinite hc z0 source b' j'
  rw [hr, hr']
  exact .ok (hwalks.unique hwalks')

theorem related_findings (hm : m.monitor = .silent)
    (hfinite : Model.FiniteEverywhere m.setup m.limitState) {c : Config α}
    (hc : 0 < c.sampling.maxSamples) (source : σ) (b b' : Batching) :
    Run.Related (fun r r' => r = r') (findings (c.batch b) (m.batch b) source)
      (findings (c.batch b') (m.batch b') source) := by
  unfold findings
  refine Run.related_bind (m.meets_z _ (.inr trivial)).related fun z0 _ hz0 => ?_
  subst hz0
  refine Run.related_bind (related_rounds hm hfinite hc z0 source b b') fun r _ hr => ?_
  subst hr
  refine Run.related_bind (Run.related_ofExcept (.of_eq rfl)) fun x _ hx => ?_
  subst hx
  exact Run.related_pure rfl

theorem Config.maxSamples_pos {c : Config α} (h : c.validate = .ok ()) :
    0 < c.sampling.maxSamples := by
  cases hsampling : c.sampling.validate with
  | error e =>
    unfold validate at h
    rw [hsampling] at h
    cases h
  | ok _ => exact Sampling.Config.maxSamples_pos hsampling

theorem related_estimate (hm : m.monitor = .silent)
    (hfinite : Model.FiniteEverywhere m.setup m.limitState) {c : Config α}
    (hc : 0 < c.sampling.maxSamples) (b b' : Batching) :
    Run.Related Estimate.Alike (estimate (c.batch b) (m.batch b))
      (estimate (c.batch b') (m.batch b')) := by
  unfold estimate
  rw [estimateOn_eq, estimateOn_eq]
  exact Run.related_measured (related_findings hm hfinite hc c.sampling.source b b')
    fun _ _ _ => rfl

end Directional

/-! ## Sampling

The buffered engine draws chunks, whose size depends on the batching; the sequential engine does
not. As the first refines the second, its tally and its end are those of a run that no batching has
touched. -/

namespace Sampling

/-- The same tally and the same end. -/
def Outcome.Alike (o o' : Outcome α) : Prop := o.tally = o'.tally ∧ o.status = o'.status

theorem Outcome.related_estimate {o o' : Outcome α} (h : o.Alike o') (b b' : Batching)
    (method : String) (alpha : AlphaEstimate) :
    Run.Related Estimate.Alike (o.estimate (m.batch b) method alpha)
      (o'.estimate (m.batch b') method alpha) := by
  unfold estimate
  rw [h.1, h.2]
  refine Run.related_bind (Run.related_ofExcept (.of_eq rfl)) fun x _ hx => ?_
  subst hx
  exact Run.related_pure rfl

/-- Where every point has a finite value, both engines answer alike, the buffered one in any
batches. -/
theorem exec_engines_batch (hm : m.monitor.HearsProgress)
    (hfinite : Model.FiniteEverywhere m.setup m.limitState) {d : Density α}
    (hd : d.HasDimension m.dimension) (c : Config α) (b : Batching) (j : Journal α) :
    ∃ o o', o.Alike o' ∧
      (RunWith.exec (buffered (m.batch b) (c.batch b) d) (.fresh c.source false) j).1 = .ok o ∧
      (RunWith.exec (sequential m c d) (.fresh c.source false) j).1 = .ok o' := by
  have hstart := abreast_fresh m.dimension c.source false false j
  obtain ⟨o, p, j₁, hbuffered⟩ :=
    exec_buffered_isOk (m := m.batch b) hfinite hd (c.batch b) hstart.stream j
  obtain ⟨s, js, p₁, hsequential, -, -⟩ :=
    exec_sequential_of_buffered (m := m.batch b) hm hstart hbuffered
  rw [sequential_batch] at hsequential
  exact ⟨o, { o with evaluations := o.tally.count }, ⟨rfl, rfl⟩, by rw [hbuffered],
    by rw [hsequential]⟩

/-- The engine that the settings ask for answers as the sequential one does. -/
theorem exec_runFresh_batch (hm : m.monitor.HearsProgress)
    (hfinite : Model.FiniteEverywhere m.setup m.limitState) {d : Density α}
    (hd : d.HasDimension m.dimension) (c : Config α) (b : Batching) (j : Journal α) :
    Answers Outcome.Alike ((runFresh (m.batch b) (c.batch b) d).exec j).1
      (RunWith.exec (sequential m c d) (.fresh c.source false) j).1 := by
  obtain ⟨o, o', halike, hbuffered, hsequential⟩ := exec_engines_batch hm hfinite hd c b j
  rw [hsequential]
  unfold runFresh
  rw [Sampler.exec_withSupply]
  dsimp only
  split
  · rw [show (c.batch b).source = c.source from rfl, hbuffered]
    exact .ok halike
  · rw [sequential_batch, show (c.batch b).source = c.source from rfl, hsequential]
    exact .ok ⟨rfl, rfl⟩

theorem related_runFresh (hm : m.monitor.IsStateless)
    (hfinite : Model.FiniteEverywhere m.setup m.limitState) {d : Density α}
    (hd : d.HasDimension m.dimension) (c : Config α) (b b' : Batching) :
    Run.Related Outcome.Alike (runFresh (m.batch b) (c.batch b) d)
      (runFresh (m.batch b') (c.batch b') d) := by
  intro j j'
  obtain ⟨x, s, k, hx, -⟩ := meets_sequential hm c d (.fresh c.source false)
  simp only [Runs.exec_runWith] at hx
  have h := exec_runFresh_batch hm.hearsProgress hfinite hd c b j
  have h' := exec_runFresh_batch hm.hearsProgress hfinite hd c b' j'
  rw [(hx _).1] at h h'
  exact h.of_common h' fun o o' a ho ho' => ⟨ho.1.trans ho'.1.symm, ho.2.trans ho'.2.symm⟩

theorem Crude.related_estimate (hm : m.monitor.IsStateless)
    (hfinite : Model.FiniteEverywhere m.setup m.limitState) (c : Config α) (b b' : Batching) :
    Run.Related Estimate.Alike (estimate (c.batch b) (m.batch b))
      (estimate (c.batch b') (m.batch b')) :=
  Run.related_bind (related_runFresh hm hfinite (Density.hasDimension_standard _) c b b')
    fun _ _ h => Outcome.related_estimate h b b' name .nearest

namespace Importance

theorem related_estimateWith (hm : m.monitor.IsStateless)
    (hfinite : Model.FiniteEverywhere m.setup m.limitState) {d : Density α}
    (hd : d.HasDimension m.dimension) (c : Config α) (b b' : Batching) :
    Run.Related Estimate.Alike (estimateWith (c.batch b) d (m.batch b))
      (estimateWith (c.batch b') d (m.batch b')) :=
  Run.related_bind (related_runFresh hm hfinite hd c.sampling b b')
    fun _ _ h => Outcome.related_estimate h b b' name .weightedMean

/-- A density is made before the first sample, and not for a batching. -/
theorem related_estimateAround (hm : m.monitor.IsStateless)
    (hfinite : Model.FiniteEverywhere m.setup m.limitState) (c : Config α)
    (centre : Option (List α)) (b b' : Batching) :
    Run.Related Estimate.Alike
      (do
        let d ← Run.ofExcept (c.density m.dimension centre)
        estimateWith (c.batch b) d (m.batch b))
      (do
        let d ← Run.ofExcept (c.density m.dimension centre)
        estimateWith (c.batch b') d (m.batch b')) := by
  intro j j'
  rw [Run.exec_ofExcept_bind, Run.exec_ofExcept_bind]
  cases hd : c.density m.dimension centre with
  | error e => exact .error e
  | ok d => exact related_estimateWith hm hfinite (Config.hasDimension_density hd) c b b' j j'

theorem related_estimate (hm : m.monitor.IsStateless)
    (hfinite : Model.FiniteEverywhere m.setup m.limitState) (c : Config α) (b b' : Batching) :
    Run.Related Estimate.Alike (estimate (c.batch b) (m.batch b))
      (estimate (c.batch b') (m.batch b')) :=
  related_estimateAround hm hfinite c none b b'

theorem related_estimateAfter (hm : m.monitor.IsStateless)
    (hfinite : Model.FiniteEverywhere m.setup m.limitState) (c : Config α) (b b' : Batching)
    {a a' : Estimate α} (h : a.Alike a') :
    Run.Related Estimate.Alike (estimateAfter (c.batch b) a (m.batch b))
      (estimateAfter (c.batch b') a' (m.batch b')) := by
  obtain ⟨k, rfl⟩ := h.exists_eq
  exact related_estimateAround hm hfinite c (centreOf c m a) b b'

end Importance

namespace Adaptive

/-- The buffered runs lead where sequential ones lead, which know no batches. -/
theorem agree_estimate_batch (hm : m.monitor.HearsProgress)
    (hfinite : Model.FiniteEverywhere m.setup m.limitState) (c : Config α) (b : Batching)
    (j : Journal α) :
    Agree ((estimate (c.batch b) (m.batch b)).exec j).1
      (RunWith.exec (estimateOn (sequential m) c m) (.fresh c.sampling.source true) j).1 := by
  have h := agree_estimateOn (m := m.batch b) hm hfinite (c.batch b) c.sampling.source j
  rw [estimateOn_batch (sequential_batch m · b ·)] at h
  exact h

theorem related_estimate (hm : m.monitor.IsStateless)
    (hfinite : Model.FiniteEverywhere m.setup m.limitState) (c : Config α) (b b' : Batching) :
    Run.Related Estimate.Alike (estimate (c.batch b) (m.batch b))
      (estimate (c.batch b') (m.batch b')) := by
  intro j j'
  obtain ⟨x, s, k, hx, -⟩ :=
    meets_estimateOn (meets_sequential hm) c (m := m) (.fresh c.sampling.source true)
  simp only [Runs.exec_runWith] at hx
  have h := agree_estimate_batch hm.hearsProgress hfinite c b j
  have h' := agree_estimate_batch hm.hearsProgress hfinite c b' j'
  rw [(hx _).1] at h h'
  exact h.of_common h' fun a a' e he he' => he.trans he'.symm

end Adaptive

end Sampling

end FailureProbability
