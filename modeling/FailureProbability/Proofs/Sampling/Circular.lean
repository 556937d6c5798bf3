import FailureProbability.Proofs.Sampling.Adaptive

/-!
# Circular supplies

A circular supply serves several runs one after the other. Each run may have a limit state, settings
and a density of its own and may stop anywhere; what it leaves pending is the first thing that the
next run takes. The runs since the source last began have used up a beginning of its stream, in
order and without a gap, and what is pending comes next (`ledger_of_session`).

A session is any sequence of such runs and of new beginnings; its runs are those since the last of
them. A run that has failed does not belong to a session, nor does what would come after it, since
the method that made it has ended with its error. All runs are over equally many variables: a vector
that is left pending has one number for each.

That a source begins anew where the session began is a hypothesis on this source. It holds of one
that was just made, and drawing changes nothing about it (`RandomSource.Rewinds`).
-/

namespace FailureProbability.Sampling

variable {σ α : Type} [Scalar α] [RandomSource σ α]

/-- A run that has answered. -/
structure Ran (α : Type) where
  model : Model α
  density : Density α
  outcome : Outcome α

/-- What was done with a circular supply over `n` variables that was fresh at first. The list holds
the runs since the source last began. -/
inductive Session (n : Nat) (source : σ) : List (Ran α) → Supply σ α → Prop
  | fresh : Session n source [] (.fresh source true)
  | run {runs : List (Ran α)} {p p' : Supply σ α} {m : Model α} {c : Config α} {d : Density α}
      {o : Outcome α} {j j' : Journal α} (before : Session n source runs p)
      (hn : m.dimension = n) (h : RunWith.exec (buffered m c d) p j = (.ok o, p', j')) :
      Session n source (runs ++ [⟨m, d, o⟩]) p'
  | rewind {runs : List (Ran α)} {p : Supply σ α} (before : Session n source runs p) :
      Session n source [] p.restart.clear

/-- The vectors that a run has used. -/
structure Entry (α : Type) where
  ran : Ran α
  used : List (List α)

/-- The tally of the run is the tally of these vectors, in this order. -/
def Entry.IsExact (e : Entry α) : Prop :=
  tallyOf e.ran.model e.ran.density e.used .empty = .ok e.ran.outcome.tally

/-- Where a ledger of the runs ends, the pending vectors begin. -/
structure Books (n : Nat) (source : σ) (runs : List (Ran α)) (p : Supply σ α)
    (ledger : List (Entry α)) : Prop where
  runs : ledger.map (·.ran) = runs
  exact : ∀ e ∈ ledger, e.IsExact
  stream : RandomSource.Yields n source (ledger.flatMap (·.used) ++ p.pending) p.source

/-- One more run carries the ledger on: it begins where the ledger ends. -/
theorem Books.run {source : σ} {runs : List (Ran α)} {p p' : Supply σ α} {m : Model α}
    {c : Config α} {d : Density α} {o : Outcome α} {j j' : Journal α} {ledger : List (Entry α)}
    (hbooks : Books m.dimension source runs p ledger) (hp : p.circular = true)
    (h : RunWith.exec (buffered m c d) p j = (.ok o, p', j')) :
    ∃ used, Books m.dimension source (runs ++ [⟨m, d, o⟩]) p' (ledger ++ [⟨⟨m, d, o⟩, used⟩]) := by
  -- The run takes its vectors from where those of the ledger end in the stream.
  obtain ⟨q, hbefore, hq⟩ := RandomSource.yields_append.mp hbooks.stream
  obtain ⟨used, p₁, hledger, hsettle, hcircular, -⟩ :=
    ledger_of_exec_rounds (ready_fuel c) hq (exec_counted_eq_ok.mp h).1
  rw [Supply.settle_of_circular (hcircular.trans hp)] at hsettle
  subst hsettle
  refine ⟨used, ?_, ?_, ?_⟩
  · rw [List.map_append, hbooks.runs]
    rfl
  · intro e he
    rcases List.mem_append.mp he with he | he
    · exact hbooks.exact e he
    · rw [List.mem_singleton.mp he]
      exact hledger.tally
  · have hused : [(⟨⟨m, d, o⟩, used⟩ : Entry α)].flatMap (·.used) = used := by
      rw [List.flatMap_singleton]
    rw [List.flatMap_append, hused, List.append_assoc]
    exact hbefore.append hledger.stream

variable [RandomSource.Rewinds σ α]

omit [Scalar α] in
/-- With nothing pending, a source that begins anew is a fresh supply again. -/
theorem restart_clear_of_yields {n : Nat} {source : σ} (hsource : RandomSource.restart α source =
    source) {vs : List (List α)} {p : Supply σ α} (hp : p.circular = true)
    (h : RandomSource.Yields n source vs p.source) : p.restart.clear = .fresh source true := by
  have hrestart : RandomSource.restart α p.source = source := h.restart_eq.trans hsource
  show (⟨RandomSource.restart α p.source, [], p.circular⟩ : Supply σ α) = ⟨source, [], true⟩
  rw [hrestart, hp]

/-- Every session has books, whatever was done in it. -/
theorem ledger_of_session {n : Nat} {source : σ} (hsource : RandomSource.restart α source = source)
    {runs : List (Ran α)} {p : Supply σ α} (h : Session n source runs p) :
    p.circular = true ∧ ∃ ledger, Books n source runs p ledger := by
  induction h with
  | fresh => exact ⟨rfl, [], rfl, by simp, RandomSource.yields_nil.mpr rfl⟩
  | @run runs p p' m c d o j j' before hn h ih =>
    subst hn
    obtain ⟨hp, ledger, hbooks⟩ := ih
    obtain ⟨q, -, hq⟩ := RandomSource.yields_append.mp hbooks.stream
    obtain ⟨used, hnext⟩ := hbooks.run hp h
    exact ⟨(circular_of_exec_buffered hq h).trans hp, _, hnext⟩
  | rewind before ih =>
    obtain ⟨hp, ledger, hbooks⟩ := ih
    rw [restart_clear_of_yields hsource hp hbooks.stream]
    exact ⟨rfl, [], rfl, by simp, RandomSource.yields_nil.mpr rfl⟩

/-- A circular supply loses no draw, doubles none and keeps their order. What the runs of a session
have used since the source last began, one run after the other, and then what is pending is all that
was drawn from the stream; and a source that begins anew, with nothing pending, is as fresh as at
first. Adaptive importance sampling, whose runs share such a supply, therefore gives the estimate
that it would give if every run drew single samples from the same source. -/
theorem circular_supply_is_gapless (source : σ)
    (hsource : RandomSource.restart α source = source) (n : Nat) :
    (∀ (runs : List (Ran α)) (p : Supply σ α), Session n source runs p →
      (∃ ledger : List (Entry α), ledger.map (·.ran) = runs ∧ (∀ e ∈ ledger, e.IsExact) ∧
        RandomSource.Yields n source (ledger.flatMap (·.used) ++ p.pending) p.source) ∧
      p.restart.clear = .fresh source true) ∧
    (∀ (c : Adaptive.Config α) (m : Model α), m.monitor.HearsProgress →
      Model.FiniteEverywhere m.setup m.limitState → ∀ j : Journal α,
      Agree ((Adaptive.estimate c m).exec j).1
        ((Sampler.withSupply (.fresh c.sampling.source true)
          (Adaptive.estimateOn (sequential m) c m)).exec j).1) := by
  constructor
  · intro runs p h
    obtain ⟨hp, ledger, hbooks⟩ := ledger_of_session hsource h
    exact ⟨⟨ledger, hbooks.runs, hbooks.exact, hbooks.stream⟩,
      restart_clear_of_yields hsource hp hbooks.stream⟩
  · intro c m hm hfinite j
    rw [Adaptive.estimate, Sampler.exec_withSupply, Sampler.exec_withSupply]
    exact Adaptive.agree_estimateOn hm hfinite c c.sampling.source j

/-- Two runs in chunks of three, each stopped at its second sample: the second one begins with the
vector that the first left, and two are pending in the end. -/
theorem circular_supply_is_gapless_stoppedAtTwo :
    ∃ (runs : List (Ran Float)) (p : Supply (Random.Replay Float) Float),
      Session 1 (Random.Replay.new [0.5, -1, 2]) runs p ∧ p.pending = [[-1], [2]] ∧
      (∃ ledger : List (Entry Float), ledger.map (·.ran) = runs ∧ (∀ e ∈ ledger, e.IsExact) ∧
        RandomSource.Yields 1 (Random.Replay.new [0.5, -1, 2] : Random.Replay Float)
          (ledger.flatMap (·.used) ++ p.pending) p.source) ∧
      Agree ((Adaptive.estimate .standard stoppedAtTwo).exec .empty).1
        ((Sampler.withSupply (.fresh (Sampling.Config.standard : Config Float).source true)
          (Adaptive.estimateOn (sequential stoppedAtTwo) .standard stoppedAtTwo)).exec .empty).1 := by
  have hm : stoppedAtTwo.monitor.HearsProgress := (Monitor.isStateless_abortAt 2).hearsProgress
  have hfinite : Model.FiniteEverywhere stoppedAtTwo.setup stoppedAtTwo.limitState :=
    Model.finiteEverywhere_const _ (by rfl)
  obtain ⟨o, p, j, o', p', j', hfirst, hsecond, hpending⟩ :
      ∃ o p j o' p' j',
        RunWith.exec (buffered stoppedAtTwo .byThrees (.standard 1))
          (.fresh (Random.Replay.new [0.5, -1, 2] : Random.Replay Float) true) .empty =
            (.ok o, p, j) ∧
        RunWith.exec (buffered stoppedAtTwo .byThrees (.standard 1)) p j = (.ok o', p', j') ∧
        p'.pending = [[-1], [2]] :=
    ⟨_, _, _, _, _, _, rfl, rfl, rfl⟩
  have h : Session 1 (Random.Replay.new [0.5, -1, 2] : Random.Replay Float) _ p' :=
    (Session.fresh.run rfl hfirst).run rfl hsecond
  have hsource : RandomSource.restart Float (Random.Replay.new [0.5, -1, 2] : Random.Replay Float) =
      Random.Replay.new [0.5, -1, 2] := rfl
  obtain ⟨hsession, hadaptive⟩ := circular_supply_is_gapless _ hsource 1
  exact ⟨_, p', h, hpending, (hsession _ p' h).1, hadaptive .standard stoppedAtTwo hm hfinite .empty⟩

end FailureProbability.Sampling
