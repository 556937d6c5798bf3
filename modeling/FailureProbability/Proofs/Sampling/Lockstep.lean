import FailureProbability.Proofs.Sampling.Ledger
import FailureProbability.Scalar.Double

/-!
# The engines in lockstep

A buffered run and a sequential one that begin at the same place of a stream see the same samples in
the same order. They are compared between two samples (`Abreast`): what is pending for the buffered
run is what the sequential one would draw next, and both monitors have heard the same. A sample
keeps them abreast, hence a chunk does and hence a run, wherever it stops.

The comparison goes one way: from a buffered run that has answered to the sequential run beside it.
The other way round there is a difference. A buffered run evaluates a whole chunk before it tallies
the first sample of it, so that it may fail at a point which the sequential run would never have
come to. With a limit state that is finite everywhere neither of them fails.

Counters are not compared, since they differ in the middle of a chunk; a monitor that depends on
them may stop the two runs at different samples. What is heard is the progress and the answers.
-/

namespace FailureProbability.Sampling

variable {σ α : Type} [Scalar α]

/-! ## Limit states with a finite value everywhere -/

structure Density.HasDimension (d : Density α) (n : Nat) : Prop where
  offset : d.offset.length = n
  varianceFactor : d.varianceFactor.length = n

theorem Density.HasDimension.length_sample {d : Density α} {n : Nat} (h : d.HasDimension n)
    {v : List α} (hv : v.length = n) : (d.sample v).1.length = n := by
  simp only [sample, List.length_map, List.length_zip, hv, h.offset, h.varianceFactor,
    Nat.min_self]

/-- Tallying what has been evaluated does not fail. -/
theorem exec_consume_isOk (m : Model α) (c : Config α) (samples : List (Sample α)) (t : Tally α)
    (p : Supply σ α) (j : Journal α) :
    ∃ b p' j', RunWith.exec (consume m c samples t) p j = (.ok b, p', j') := by
  induction samples generalizing t p j with
  | nil => exact ⟨_, _, _, rfl⟩
  | cons s samples ih =>
    rw [exec_consume_cons]
    dsimp only
    cases c.judged m j (t.add s.u s.z s.weight) with
    | some st => exact ⟨_, _, _, rfl⟩
    | none => exact ih _ _ _

variable [RandomSource σ α]

/-- On a limit state that is finite everywhere rounds do not fail. -/
theorem exec_rounds_isOk {m : Model α} (hm : Model.FiniteEverywhere m.setup m.limitState)
    {d : Density α} (hd : d.HasDimension m.dimension) (c : Config α) {q : σ} (fuel : Nat)
    (t : Tally α) {p : Supply σ α} (hq : RandomSource.Yields m.dimension q p.pending p.source)
    (j : Journal α) :
    ∃ b p' j', RunWith.exec (rounds m c d fuel t) p j = (.ok b, p', j') := by
  induction fuel generalizing t q p j with
  | zero => exact ⟨_, _, _, rfl⟩
  | succ fuel ih =>
    have hyields := yields_refilled (c := c) (t := t) rfl hq
    have hpoints : ∀ u ∈ ((refilled m c t p).pending.map d.sample).map (·.1),
        u.length = m.dimension := by
      intro u hu
      rw [List.map_map] at hu
      obtain ⟨v, hv, rfl⟩ := List.mem_map.mp hu
      exact hd.length_sample (hyields.length_eq v hv)
    obtain ⟨zs, hzs⟩ := hm.values hpoints
    obtain ⟨samples, hsamples⟩ := exec_evaluatePending_of_values hzs j
    obtain ⟨⟨t₁, ended⟩, p₁, j₁, hconsume⟩ := exec_consume_isOk m c samples t (refilled m c t p)
      (j.spend (refilled m c t p).pending.length)
    rw [rounds, RunWith.exec_bind_ok (exec_refill m c t p j), RunWith.exec_bind_ok hsamples,
      RunWith.exec_bind_ok hconsume]
    cases ended with
    | some st => exact ⟨_, _, _, rfl⟩
    | none =>
      -- All that was pending has been tallied, and the next round draws its vectors from the source.
      obtain ⟨used, hused⟩ :=
        consumed_of_exec (exec_evaluatePending_eq_ok hsamples).1 hconsume
      exact ih t₁ (RandomSource.yields_of_eq_nil (hused.goes_on rfl).1) j₁

/-! ## Evaluations of a sequential run -/

/-- The sequential engine evaluates what it tallies and nothing else. -/
theorem evaluations_of_exec_single {m : Model α} {c : Config α} {d : Density α} {fuel : Nat}
    {t t' : Tally α} {status : Status} {s s' : Supply σ α} {j j' : Journal α}
    (h : RunWith.exec (single m c d fuel t) s j = (.ok (t', status), s', j')) :
    j'.evaluations + t.count = j.evaluations + t'.count := by
  induction fuel generalizing t s j with
  | zero =>
    cases h
    rfl
  | succ fuel ih =>
    obtain ⟨z, hz⟩ := value_of_exec_single h
    rw [exec_single_succ rfl hz] at h
    dsimp only at h
    generalize htally : t.add _ z _ = t₁ at h
    have hcount : t₁.count = t.count + 1 := by rw [← htally, Tally.count_add]
    cases hj : c.judged m (j.spend 1) t₁ with
    | some st =>
      rw [hj] at h
      cases h
      rw [Config.evaluations_noted, Journal.evaluations_spend, hcount]
      omega
    | none =>
      rw [hj] at h
      have hrest := ih h
      rw [Config.evaluations_noted, Journal.evaluations_spend] at hrest
      omega

/-! ## Lockstep

The induction goes over the samples of a chunk and then over the chunks. Its statement is on a
place in a run and not on the run from its start: from two places that are abreast the sequential
run gets to where the buffered one does, with fuel to go on if that goes on. -/

/-- A sequential run stands where a buffered one does. -/
structure Abreast (n : Nat) (s p : Supply σ α) (js j : Journal α) : Prop where
  stream : RandomSource.Yields n s.source p.pending p.source
  heard : js.heard = j.heard

omit [Scalar α] in
theorem abreast_fresh (n : Nat) (source : σ) (circular circular' : Bool) (j : Journal α) :
    Abreast n (Supply.fresh source circular) (Supply.fresh source circular') j j :=
  ⟨RandomSource.yields_nil.mpr rfl, rfl⟩

omit [Scalar α] in
theorem Abreast.refilled {s p : Supply σ α} {js j : Journal α} {m : Model α}
    (h : Abreast m.dimension s p js j) (c : Config α) (t : Tally α) (k : Nat) :
    Abreast m.dimension s (refilled m c t p) js (j.spend k) :=
  ⟨yields_refilled rfl h.stream, h.heard⟩

/-- A sequential run gets to a tally: it ends there, or it goes on from there with fuel left. -/
def Reaches (m : Model α) (c : Config α) (d : Density α) (fuel : Nat) (t : Tally α)
    (s : Supply σ α) (j : Journal α) (t' : Tally α) (s' : Supply σ α) (j' : Journal α) :
    Option Status → Prop
  | some status => RunWith.exec (single m c d fuel t) s j = (.ok (t', status), s', j')
  | none => ∃ fuel', Ready c t'.count fuel' ∧
      RunWith.exec (single m c d fuel t) s j = RunWith.exec (single m c d fuel' t') s' j'

/-- What a run reaches is reached from wherever it does the same. -/
theorem Reaches.of_exec_eq {m : Model α} {c : Config α} {d : Density α} {fuel fuel' : Nat}
    {t t₁ t' : Tally α} {s s₁ s' : Supply σ α} {j j₁ j' : Journal α} {ended : Option Status}
    (h : Reaches m c d fuel' t₁ s₁ j₁ t' s' j' ended)
    (heq : RunWith.exec (single m c d fuel t) s j = RunWith.exec (single m c d fuel' t₁) s₁ j₁) :
    Reaches m c d fuel t s j t' s' j' ended := by
  cases ended with
  | some status => exact heq.trans h
  | none =>
    obtain ⟨fuel₂, hready, hexec⟩ := h
    exact ⟨fuel₂, hready, heq.trans hexec⟩

/-- The samples of a chunk keep the runs abreast. The sequential run ends with the chunk's last
sample if the buffered one does, and has fuel to go on if it goes on. -/
theorem exec_single_of_consume {m : Model α} (hm : m.monitor.HearsProgress) {c : Config α}
    {d : Density α} {fuel : Nat} {t t' : Tally α} {ended : Option Status} {s p p' : Supply σ α}
    {js j j' : Journal α} {samples : List (Sample α)} (hsamples : Evaluated m d p.pending samples)
    (habreast : Abreast m.dimension s p js j) (hready : Ready c t.count fuel)
    (h : RunWith.exec (consume m c samples t) p j = (.ok (t', ended), p', j')) :
    ∃ s' js', Abreast m.dimension s' p' js' j' ∧
      Reaches m c d fuel t s js t' s' js' ended := by
  -- By induction on the samples. Each is drawn by the sequential run just when it is tallied here,
  -- so that both monitors hear of the same tally and answer the same.
  generalize hvs : p.pending = vs at hsamples
  induction hsamples generalizing t s p js j fuel with
  | nil =>
    cases h
    exact ⟨s, js, habreast, fuel, hready, rfl⟩
  | @cons v e vs samples he hz _ ih =>
    obtain ⟨fuel, rfl⟩ : ∃ f, fuel = f + 1 := ⟨fuel - 1, by have := hready.positive; omega⟩
    have hstream := habreast.stream
    rw [hvs] at hstream
    obtain ⟨heps, hstream⟩ := RandomSource.yields_cons.mp hstream
    have hvalue : m.value (d.sample v).1 = .ok e.z := by rw [he]; exact hz
    have hadd : t.add (d.sample v).1 e.z (d.sample v).2 = t.add e.u e.z e.weight := by rw [he]
    have hheard : (js.spend 1).heard = j.heard := habreast.heard
    have hsingle := exec_single_succ (c := c) heps hvalue fuel t js
    rw [hadd] at hsingle
    dsimp only at hsingle
    rw [Config.judged_eq_of_heard hm hheard] at hsingle
    rw [exec_consume_cons, hvs] at h
    dsimp only at h
    have hnext : Abreast m.dimension
        { s with source := (RandomSource.normals m.dimension s.source : List α × σ).2 }
        { p with pending := vs } (c.noted m (js.spend 1) (t.add e.u e.z e.weight))
        (c.noted m j (t.add e.u e.z e.weight)) :=
      ⟨hstream, Config.heard_noted_eq hm hheard _⟩
    rcases hj : c.judged m j (t.add e.u e.z e.weight) with _ | st <;> rw [hj] at h hsingle
    · have hcount := Tally.count_add t e.u e.z e.weight
      obtain ⟨s', js', hlast, hreaches⟩ :=
        ih hnext (hready.next (by omega) (Config.lt_of_judged hj)) h rfl
      exact ⟨s', js', hlast, hreaches.of_exec_eq hsingle⟩
    · cases h
      exact ⟨_, _, hnext, hsingle⟩

/-- A buffered run that has answered, and the sequential run beside it. -/
theorem exec_single_of_rounds {m : Model α} (hm : m.monitor.HearsProgress) {c : Config α}
    {d : Density α} {fuel fuel' : Nat} {t t' : Tally α} {status : Status} {s p p' : Supply σ α}
    {js j j' : Journal α} (habreast : Abreast m.dimension s p js j) (hready : Ready c t.count fuel)
    (hready' : Ready c t.count fuel')
    (h : RunWith.exec (rounds m c d fuel t) p j = (.ok (t', status), p', j')) :
    ∃ s' js' p₁, RunWith.exec (single m c d fuel' t) s js = (.ok (t', status), s', js') ∧
      Abreast m.dimension s' p₁ js' j' ∧ p' = p₁.settle := by
  -- One unit of fuel is a round here and a sample there, so that each run keeps its own account.
  induction fuel generalizing fuel' t s p js j with
  | zero => exact absurd hready.positive (by omega)
  | succ fuel ih =>
    obtain ⟨samples, t₁, ended, p₁, j₁, hsamples, hconsume, hrest⟩ := exec_rounds_succ_eq_ok h
    obtain ⟨s₁, js₁, hnext, hsingle⟩ :=
      exec_single_of_consume hm hsamples (habreast.refilled c t _) hready' hconsume
    cases ended with
    | some st =>
      obtain ⟨rfl, rfl, rfl, rfl⟩ := hrest
      exact ⟨s₁, js₁, p₁, hsingle, hnext, rfl⟩
    | none =>
      obtain ⟨fuel₁, hready₁, hsingle⟩ := hsingle
      obtain ⟨used, hused⟩ := consumed_of_exec hsamples hconsume
      obtain ⟨hcount, hlt⟩ := hused.progress (pending_refilled_ne_nil m c t p)
      rw [hsingle]
      exact ih hnext (hready.next hcount hlt) hready₁ hrest

/-! ## The engines -/

omit [Scalar α] [RandomSource σ α] in
/-- A counted run is the run, with the difference of the counter. -/
theorem exec_counted_eq_ok {run : Sampler σ α (Tally α × Status)} {s s' : Supply σ α}
    {j j' : Journal α} {o : Outcome α} :
    RunWith.exec (counted run) s j = (.ok o, s', j') ↔
      RunWith.exec run s j = (.ok (o.tally, o.status), s', j') ∧
        o.evaluations = j'.evaluations - j.evaluations := by
  unfold counted
  rw [RunWith.exec_bind_ok (RunWith.exec_lift_ok (Run.exec_evaluations j) s),
    RunWith.exec_bind_eq_ok]
  constructor
  · rintro ⟨⟨t, status⟩, s₁, j₁, hrun, h⟩
    rw [RunWith.exec_bind_ok (RunWith.exec_lift_ok (Run.exec_evaluations j₁) s₁)] at h
    cases h
    exact ⟨hrun, rfl⟩
  · rintro ⟨hrun, hevaluations⟩
    refine ⟨_, _, _, hrun, ?_⟩
    rw [RunWith.exec_bind_ok (RunWith.exec_lift_ok (Run.exec_evaluations j') s'), ← hevaluations]
    rfl

/-- A buffered run that has answered, and the sequential one that begins abreast of it. -/
theorem exec_sequential_of_buffered {m : Model α} (hm : m.monitor.HearsProgress) {c : Config α}
    {d : Density α} {o : Outcome α} {s p p' : Supply σ α} {js j j' : Journal α}
    (habreast : Abreast m.dimension s p js j)
    (h : RunWith.exec (buffered m c d) p j = (.ok o, p', j')) :
    ∃ s' js' p₁, RunWith.exec (sequential m c d) s js =
        (.ok { o with evaluations := o.tally.count }, s', js') ∧
      Abreast m.dimension s' p₁ js' j' ∧ p' = p₁.settle := by
  obtain ⟨hrounds, -⟩ := exec_counted_eq_ok.mp h
  obtain ⟨s', js', p₁, hsingle, hlast, hsettle⟩ :=
    exec_single_of_rounds hm habreast (ready_fuel c) (ready_fuel c) hrounds
  have hspent : js'.evaluations + 0 = js.evaluations + o.tally.count :=
    evaluations_of_exec_single hsingle
  exact ⟨s', js', p₁, exec_counted_eq_ok.mpr ⟨hsingle, by dsimp only; omega⟩, hlast, hsettle⟩

theorem circular_of_exec_buffered {m : Model α} {c : Config α} {d : Density α} {o : Outcome α}
    {q : σ} {p p' : Supply σ α} {j j' : Journal α}
    (hq : RandomSource.Yields m.dimension q p.pending p.source)
    (h : RunWith.exec (buffered m c d) p j = (.ok o, p', j')) : p'.circular = p.circular := by
  obtain ⟨used, p₁, -, rfl, hcircular, -⟩ :=
    ledger_of_exec_rounds (ready_fuel c) hq (exec_counted_eq_ok.mp h).1
  rw [Supply.circular_settle, hcircular]

theorem exec_buffered_isOk {m : Model α} (hm : Model.FiniteEverywhere m.setup m.limitState)
    {d : Density α} (hd : d.HasDimension m.dimension) (c : Config α) {q : σ} {p : Supply σ α}
    (hq : RandomSource.Yields m.dimension q p.pending p.source) (j : Journal α) :
    ∃ o p' j', RunWith.exec (buffered m c d) p j = (.ok o, p', j') := by
  obtain ⟨⟨t, status⟩, p', j', hrounds⟩ := exec_rounds_isOk hm hd c c.fuel .empty hq j
  exact ⟨⟨t, status, j'.evaluations - j.evaluations⟩, p', j',
    exec_counted_eq_ok.mpr ⟨hrounds, rfl⟩⟩

/-- Settings within their ranges have a budget. -/
theorem Config.maxSamples_pos {c : Config α} (h : c.validate = .ok ()) : 0 < c.maxSamples := by
  rcases Nat.eq_zero_or_pos c.maxSamples with hzero | hpos
  · unfold validate at h
    rw [if_pos hzero] at h
    cases h
  · exact hpos

omit [RandomSource σ α] in
/-- A fresh supply holds nothing that could be too much. -/
theorem fits_fresh {m : Model α} {c : Config α} (hc : c.validate = .ok ()) (source : σ)
    (circular : Bool) : Fits m c (.empty : Tally α) (Supply.fresh source circular) := by
  have hpos := Config.maxSamples_pos hc
  exact ⟨Nat.zero_le _, Nat.zero_le _, hpos⟩

/-- The buffered engine refines the sequential one. Whenever it answers on a fresh supply, so does
the sequential engine, with the same tally, the same end and the same reports; the sequential engine
evaluates what it tallies, the buffered one at most the rest of a chunk more and never more than the
budget. Where the limit state has a finite value at every point, the buffered engine answers. -/
theorem buffered_refines_sequential {m : Model α} (hm : m.monitor.HearsProgress) {c : Config α}
    (hc : c.validate = .ok ()) {d : Density α} (hd : d.HasDimension m.dimension) (source : σ)
    (circular : Bool) (j : Journal α) :
    (∀ o p' j', RunWith.exec (buffered m c d) (Supply.fresh source circular) j =
        (.ok o, p', j') →
      ∃ o' s' js', RunWith.exec (sequential m c d) (Supply.fresh source circular) j =
          (.ok o', s', js') ∧
        o'.tally = o.tally ∧ o'.status = o.status ∧ js'.heard = j'.heard ∧
        o'.evaluations = o.tally.count ∧ o'.evaluations ≤ o.evaluations ∧
        o.evaluations ≤ min c.maxSamples (o.tally.count + c.chunk m.threads - 1)) ∧
    (Model.FiniteEverywhere m.setup m.limitState →
      ∃ o p' j', RunWith.exec (buffered m c d) (Supply.fresh source circular) j =
        (.ok o, p', j')) := by
  have hstart := abreast_fresh m.dimension source circular circular j
  constructor
  · intro o p' j' h
    obtain ⟨s', js', p₁, hsequential, hlast, -⟩ := exec_sequential_of_buffered hm hstart h
    obtain ⟨hrounds, hevaluations⟩ := exec_counted_eq_ok.mp h
    obtain ⟨used, p₂, hledger, -, -, hbounds⟩ :=
      ledger_of_exec_rounds (ready_fuel c) hstart.stream hrounds
    obtain ⟨hchunk, hbudget⟩ := hbounds (fits_fresh hc source circular)
    have hcount : o.tally.count = 0 + used.length := count_of_tallyOf hledger.tally
    have hspent := hledger.evaluations
    exact ⟨_, s', js', hsequential, rfl, rfl, hlast.heard, rfl, by dsimp only; omega, by omega⟩
  · intro hfinite
    exact exec_buffered_isOk hfinite hd c hstart.stream j

def Config.byThrees : Config Float := { Config.standard with chunkSize := 3 }

theorem Config.validate_byThrees : Config.byThrees.validate = .ok () := by rfl

/-- A single variable, no failures, and a monitor that stops at the second sample. -/
def stoppedAtTwo : Model Float := ⟨.standardNormals 1, fun _ => .ok 1, 1, .abortAt 2⟩

/-- A run that is stopped in the middle of a chunk: the third sample is evaluated by the buffered
engine only. -/
theorem buffered_refines_sequential_stoppedAtTwo :
    let supply : Supply (Random.Replay Float) Float := .fresh (.new [0.5, -1, 2]) false
    ∃ o p' j' o' s' js',
      RunWith.exec (buffered stoppedAtTwo .byThrees (.standard 1)) supply .empty =
        (.ok o, p', j') ∧
      RunWith.exec (sequential stoppedAtTwo .byThrees (.standard 1)) supply .empty =
        (.ok o', s', js') ∧
      o'.tally = o.tally ∧ o'.status = .abortedByUser ∧ js'.heard = j'.heard ∧
      o'.evaluations = 2 ∧ o.evaluations = 3 := by
  have hm : stoppedAtTwo.monitor.HearsProgress := (Monitor.isStateless_abortAt 2).hearsProgress
  have hd : (Density.standard 1 : Density Float).HasDimension stoppedAtTwo.dimension := ⟨rfl, rfl⟩
  obtain ⟨hrefines, -⟩ := buffered_refines_sequential hm Config.validate_byThrees hd
    (Random.Replay.new [0.5, -1, 2] : Random.Replay Float) false .empty
  obtain ⟨o, p', j', hbuffered, hstatus, hcount, hevaluations⟩ :
      ∃ o p' j', RunWith.exec (buffered stoppedAtTwo .byThrees (.standard 1))
          (Supply.fresh (Random.Replay.new [0.5, -1, 2] : Random.Replay Float) false) .empty =
        (.ok o, p', j') ∧
        o.status = .abortedByUser ∧ o.tally.count = 2 ∧ o.evaluations = 3 :=
    ⟨_, _, _, rfl, rfl, rfl, rfl⟩
  obtain ⟨o', s', js', hsequential, htally, hstatus', hheard, hevaluations', -, -⟩ :=
    hrefines o p' j' hbuffered
  exact ⟨o, p', j', o', s', js', hbuffered, hsequential, htally, hstatus'.trans hstatus, hheard,
    hevaluations'.trans hcount, hevaluations⟩

end FailureProbability.Sampling
