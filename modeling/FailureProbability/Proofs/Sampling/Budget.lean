import FailureProbability.Proofs.Sampling.Lockstep
import FailureProbability.Sampling.Crude
import FailureProbability.Sampling.Importance
import Mathlib.Logic.Relation

/-!
# The budget of a run

No run evaluates the limit state more often than its budget allows, also when it fails: the
sequential engine has fuel for no more, and what the buffered engine draws ahead keeps to the
budget. A run in rounds asks for what is left of its budget whenever it begins another round, and
then something is left.

Bounds on evaluations are composed like the runs themselves (`Runs.spendsAtMost_bind`), whatever the
runs answer. Nothing is asked of the limit state, the source or the monitor; only the settings have
to be accepted, which means that there is a budget at all. A supply that was left by another run may
hold more vectors than fit into the budget, and so the bounds are stated for fresh ones.

Where a run stands between two rounds is recorded as a whole (`Stand`), because the difference of
budget and count is asked for there and nowhere else.
-/

namespace FailureProbability

/-! ## Bounds of evaluations -/

section

variable {τ α β γ : Type}

namespace Runs

variable {M : Type → Type} [Monad M] [Runs M τ α]

/-- The run takes so many evaluations at most, also when it fails. -/
def SpendsAtMost (k : Nat) (r : M β) : Prop :=
  ∀ s j, (exec r s j).2.2.evaluations ≤ j.evaluations + k

/-- Bounds of two runs one after the other add up. -/
theorem spendsAtMost_bind {k l : Nat} {r : M β} {f : β → M γ} (hr : SpendsAtMost k r)
    (hf : ∀ b, SpendsAtMost l (f b)) : SpendsAtMost (k + l) (r >>= f) := by
  intro s j
  have hfirst := hr s j
  rw [exec_bind]
  rcases hj : exec r s j with ⟨e | b, s₁, j₁⟩ <;> rw [hj] at hfirst
  · dsimp only at hfirst ⊢
    omega
  · have hrest := hf b s₁ j₁
    dsimp only at hfirst ⊢
    omega

theorem spendsAtMost_pure (b : β) : SpendsAtMost 0 (pure b : M β) := by
  intro s j
  rw [exec_pure]
  exact Nat.le_refl _

theorem spendsAtMost_lift {k : Nat} {r : Run α β} (h : SpendsAtMost k r) :
    SpendsAtMost k (lift r : M β) := by
  intro s j
  rw [exec_lift]
  exact h ⟨⟩ j

/-- Of a run without a state the bound is one on its journal. -/
theorem spendsAtMost_iff {k : Nat} {r : Run α β} :
    SpendsAtMost k r ↔ ∀ j, (r.exec j).2.evaluations ≤ j.evaluations + k :=
  ⟨fun h => h ⟨⟩, fun h _ => h⟩

theorem spendsAtMost_ofExcept (x : Except (Error α) β) : SpendsAtMost 0 (Run.ofExcept x) :=
  fun _ _ => Nat.le_refl _

end Runs

namespace Model

variable [Scalar α]

/-- A value costs one evaluation at most; a point that is refused costs none. -/
theorem spendsAtMost_z (m : Model α) (u : List α) : Runs.SpendsAtMost 1 (m.z u) := by
  refine Runs.spendsAtMost_iff.mpr fun j => ?_
  rw [exec_z, Journal.evaluations_spend]
  cases m.rawValue u with
  | error e => exact Nat.le_succ _
  | ok z => exact Nat.le_refl _

theorem spendsAtMost_zAll (m : Model α) (points : List (List α)) :
    Runs.SpendsAtMost points.length (m.zAll points) := by
  induction points with
  | nil => exact Runs.spendsAtMost_pure []
  | cons u points ih =>
    have hboth := Runs.spendsAtMost_bind (m.spendsAtMost_z u) fun z =>
      Runs.spendsAtMost_bind ih fun zs => Runs.spendsAtMost_pure (z :: zs)
    rw [zAll_cons, List.length_cons, Nat.add_comm]
    exact hboth

end Model

end

namespace Sampling

variable {σ α : Type} [Scalar α] [RandomSource σ α]

/-! ## Evaluations of the engines

The sequential engine is bounded by its fuel, of which every sample takes one unit. The buffered
engine is bounded by what it draws: what is pending and what was evaluated fit into the budget
together, and a refill keeps to what is left. Both bounds hold of runs that fail. -/

/-- Each sample of the sequential engine takes one of its units of fuel. -/
theorem spendsAtMost_single (m : Model α) (c : Config α) (d : Density α) (fuel : Nat)
    (t : Tally α) :
    Runs.SpendsAtMost fuel (single m c d fuel t : Sampler σ α (Tally α × Status)) := by
  induction fuel generalizing t with
  | zero => exact Runs.spendsAtMost_pure _
  | succ fuel ih =>
    have hdraw : Runs.SpendsAtMost 0 (Sampler.draw m.dimension : Sampler σ α (List α)) :=
      fun s j => Nat.le_refl j.evaluations
    have hjudge : ∀ t', Runs.SpendsAtMost 0 (c.judge m t') := by
      refine fun t' => Runs.spendsAtMost_iff.mpr fun j => ?_
      rw [Config.exec_judge]
      exact Nat.le_refl j.evaluations
    have hall : Runs.SpendsAtMost (0 + (1 + (0 + fuel)))
        (single m c d (fuel + 1) t : Sampler σ α (Tally α × Status)) := by
      unfold single
      refine Runs.spendsAtMost_bind hdraw fun eps => ?_
      refine Runs.spendsAtMost_bind (Runs.spendsAtMost_lift (m.spendsAtMost_z _)) fun z => ?_
      refine Runs.spendsAtMost_bind (Runs.spendsAtMost_lift (hjudge _)) fun ended => ?_
      cases ended with
      | none => exact ih _
      | some status => exact fun s j => Nat.le_add_right _ _
    simpa [Nat.add_comm] using hall

omit [RandomSource σ α] in
/-- What is pending bounds what its evaluation spends, also if that fails on the way. -/
theorem evaluations_evaluatePending_le (m : Model α) (d : Density α) (p : Supply σ α)
    (j : Journal α) :
    (RunWith.exec (evaluatePending m d) p j).2.2.evaluations ≤
      j.evaluations + p.pending.length := by
  have hall : Runs.SpendsAtMost (p.pending.length + 0) (do
      let zs ← Sampler.lift (m.zAll ((p.pending.map d.sample).map (·.1)))
      return List.zipWith (fun s z => (⟨s.1, s.2, z⟩ : Sample α)) (p.pending.map d.sample) zs :
        Sampler σ α (List (Sample α))) := by
    refine Runs.spendsAtMost_bind (Runs.spendsAtMost_lift ?_) fun zs =>
      Runs.spendsAtMost_pure _
    have hpoints := m.spendsAtMost_zAll ((p.pending.map d.sample).map (·.1))
    rwa [List.length_map, List.length_map] at hpoints
  exact hall p j

/-- What is pending keeps to the budget, so that no round takes a run beyond it. -/
theorem evaluations_rounds_le {m : Model α} {c : Config α} (d : Density α) (fuel : Nat)
    {t : Tally α} {p : Supply σ α} (hfits : Fits m c t p) (j : Journal α) :
    (RunWith.exec (rounds m c d fuel t) p j).2.2.evaluations ≤
      j.evaluations + (c.maxSamples - t.count) := by
  induction fuel generalizing t p j with
  | zero => exact Nat.le_add_right _ _
  | succ fuel ih =>
    have hbudget := hfits.refilled.budget
    have hspent := evaluations_evaluatePending_le m d (refilled m c t p) j
    rw [rounds, RunWith.exec_bind_ok (exec_refill m c t p j), RunWith.exec_bind]
    rcases hsamples : RunWith.exec (evaluatePending m d) (refilled m c t p) j with
      ⟨e | samples, p₁, j₁⟩
    · rw [hsamples] at hspent
      dsimp only at hspent ⊢
      omega
    · obtain ⟨hevaluated, rfl, rfl⟩ := exec_evaluatePending_eq_ok hsamples
      obtain ⟨⟨t₁, ended⟩, p₂, j₂, hconsume⟩ := exec_consume_isOk m c samples t (refilled m c t p)
        (j.spend (refilled m c t p).pending.length)
      obtain ⟨used, hused⟩ := consumed_of_exec hevaluated hconsume
      have htaken := hused.evaluations
      rw [Journal.evaluations_spend] at htaken
      dsimp only
      rw [RunWith.exec_bind_ok hconsume]
      cases ended with
      | some status =>
        show j₂.evaluations ≤ _
        omega
      | none =>
        -- All that was pending is tallied now, and the rest of the budget is for the rest.
        have hnil := (hused.goes_on rfl).1
        obtain ⟨-, hgoing⟩ := hused.progress (pending_refilled_ne_nil m c t p)
        have hcount := count_of_tallyOf hused.tally
        have hlength := congrArg List.length hused.pending
        rw [hnil, List.append_nil] at hlength
        have hrest := ih (t := t₁) (p := p₂)
          ⟨by rw [hnil]; exact Nat.zero_le _, by rw [hnil]; exact Nat.le_of_lt hgoing, hgoing⟩ j₂
        exact Nat.le_trans hrest (by omega)

omit [Scalar α] [RandomSource σ α] in
theorem spendsAtMost_counted {run : Sampler σ α (Tally α × Status)} {s : Supply σ α}
    {j : Journal α} {k : Nat}
    (h : (RunWith.exec run s j).2.2.evaluations ≤ j.evaluations + k) :
    (RunWith.exec (counted run) s j).2.2.evaluations ≤ j.evaluations + k := by
  unfold counted
  rw [RunWith.exec_bind_ok (RunWith.exec_lift_ok (Run.exec_evaluations j) s), RunWith.exec_bind]
  rcases hrun : RunWith.exec run s j with ⟨e | b, s', j'⟩ <;> rw [hrun] at h
  · exact h
  · exact h

/-- Neither engine evaluates more than its budget, whether it answers or fails. -/
theorem evaluations_engines_le {c : Config α} (hc : c.validate = .ok ()) (m : Model α)
    (d : Density α) (source : σ) (circular : Bool) (j : Journal α) :
    (RunWith.exec (sequential m c d) (Supply.fresh source circular) j).2.2.evaluations ≤
        j.evaluations + c.maxSamples ∧
      (RunWith.exec (buffered m c d) (Supply.fresh source circular) j).2.2.evaluations ≤
        j.evaluations + c.maxSamples := by
  have hpos := Config.maxSamples_pos hc
  have hfuel : c.fuel = c.maxSamples := Nat.max_eq_left hpos
  constructor
  · refine spendsAtMost_counted ?_
    rw [hfuel]
    exact spendsAtMost_single m c d c.maxSamples .empty _ j
  · exact spendsAtMost_counted (evaluations_rounds_le d c.fuel (fits_fresh hc source circular) j)

omit [RandomSource σ α] in
/-- Neither does the run of a method, which begins with a fresh supply. -/
theorem spendsAtMost_runFresh {c : Config α} (hc : c.validate = .ok ()) (m : Model α)
    (d : Density α) : Runs.SpendsAtMost c.maxSamples (runFresh m c d) := by
  refine Runs.spendsAtMost_iff.mpr fun j => ?_
  obtain ⟨hsequential, hbuffered⟩ := evaluations_engines_le hc m d c.source false j
  unfold runFresh
  rw [Sampler.exec_withSupply]
  split
  · exact hbuffered
  · exact hsequential

omit [RandomSource σ α] in
theorem Outcome.spendsAtMost_estimate (o : Outcome α) (m : Model α) (method : String)
    (alpha : AlphaEstimate) : Runs.SpendsAtMost 0 (o.estimate m method alpha) :=
  Runs.spendsAtMost_bind (k := 0) (l := 0) (Runs.spendsAtMost_ofExcept _) fun _ =>
    Runs.spendsAtMost_pure _

omit [RandomSource σ α] in
theorem Crude.spendsAtMost_estimate {c : Config α} (hc : c.validate = .ok ()) (m : Model α) :
    Runs.SpendsAtMost c.maxSamples (Crude.estimate c m) :=
  Runs.spendsAtMost_bind (l := 0) (spendsAtMost_runFresh hc m _) fun o =>
    o.spendsAtMost_estimate m _ _

omit [RandomSource σ α] in
theorem Importance.spendsAtMost_estimateWith {c : Importance.Config α}
    (hc : c.sampling.validate = .ok ()) (d : Density α) (m : Model α) :
    Runs.SpendsAtMost c.sampling.maxSamples (Importance.estimateWith c d m) :=
  Runs.spendsAtMost_bind (l := 0) (spendsAtMost_runFresh hc m d) fun o =>
    o.spendsAtMost_estimate m _ _

omit [RandomSource σ α] in
theorem Importance.spendsAtMost_estimate {c : Importance.Config α}
    (hc : c.sampling.validate = .ok ()) (m : Model α) :
    Runs.SpendsAtMost c.sampling.maxSamples (Importance.estimate c m) := by
  have hboth := Runs.spendsAtMost_bind (Runs.spendsAtMost_ofExcept (c.density m.dimension none))
    fun d => Importance.spendsAtMost_estimateWith hc d m
  rw [Nat.zero_add] at hboth
  exact hboth

omit [RandomSource σ α] in
theorem Importance.spendsAtMost_estimateAfter {c : Importance.Config α}
    (hc : c.sampling.validate = .ok ()) (earlier : Estimate α) (m : Model α) :
    Runs.SpendsAtMost c.sampling.maxSamples (Importance.estimateAfter c earlier m) := by
  have hboth := Runs.spendsAtMost_bind
    (Runs.spendsAtMost_ofExcept (c.density m.dimension (Importance.centreOf c m earlier)))
    fun d => Importance.spendsAtMost_estimateWith hc d m
  rw [Nat.zero_add] at hboth
  exact hboth

/-! ## Rounds

A run in rounds passes through stands, and the difference of budget and count is taken at each of
them. That it is never taken below zero is stated of every stand that can be reached, instead of
once for each engine. -/

/-- Where a run stands when it begins a round. -/
structure Stand (τ σ α : Type) where
  tally : τ
  supply : Supply σ α
  journal : Journal α

/-- After a round from one stand the run goes on from the other. -/
def GoesOn {τ : Type} (round : τ → Sampler σ α (τ × Option Status)) (a b : Stand τ σ α) : Prop :=
  RunWith.exec (round a.tally) a.supply a.journal = (.ok (b.tally, none), b.supply, b.journal)

omit [Scalar α] [RandomSource σ α] in
/-- A run in rounds passes through every stand that its rounds lead to. -/
theorem exec_of_goesOn {τ β : Type} {round : τ → Sampler σ α (τ × Option Status)}
    {run : Nat → τ → Sampler σ α β}
    (hrun : ∀ fuel a b, GoesOn round a b →
      RunWith.exec (run (fuel + 1) a.tally) a.supply a.journal =
        RunWith.exec (run fuel b.tally) b.supply b.journal)
    {a b : Stand τ σ α} (h : Relation.ReflTransGen (GoesOn round) a b) :
    ∃ k, ∀ fuel, RunWith.exec (run (fuel + k) a.tally) a.supply a.journal =
      RunWith.exec (run fuel b.tally) b.supply b.journal := by
  induction h with
  | refl => exact ⟨0, fun _ => rfl⟩
  | @tail b e _ hstep ih =>
    obtain ⟨k, hk⟩ := ih
    refine ⟨k + 1, fun fuel => ?_⟩
    rw [← Nat.add_assoc, Nat.add_right_comm, hk (fuel + 1)]
    exact hrun fuel b e hstep

/-- A round of the buffered engine. -/
def round (m : Model α) (c : Config α) (d : Density α) (t : Tally α) :
    Sampler σ α (Tally α × Option Status) := do
  refill m c t
  let samples ← evaluatePending m d
  consume m c samples t

theorem exec_rounds_of_goesOn {m : Model α} {c : Config α} {d : Density α} (fuel : Nat)
    (a b : Stand (Tally α) σ α) (h : GoesOn (round m c d) a b) :
    RunWith.exec (rounds m c d (fuel + 1) a.tally) a.supply a.journal =
      RunWith.exec (rounds m c d fuel b.tally) b.supply b.journal := by
  obtain ⟨⟨⟩, p₁, j₁, hrefill, hrest⟩ := RunWith.exec_bind_eq_ok.mp h
  obtain ⟨samples, p₂, j₂, hsamples, hconsume⟩ := RunWith.exec_bind_eq_ok.mp hrest
  rw [rounds, RunWith.exec_bind_ok hrefill, RunWith.exec_bind_ok hsamples,
    RunWith.exec_bind_ok hconsume]

/-- A round after which the run goes on has left some of the budget. -/
theorem count_lt_of_goesOn {m : Model α} {c : Config α} {d : Density α} {a b : Stand (Tally α) σ α}
    (h : GoesOn (round m c d) a b) : b.tally.count < c.maxSamples := by
  unfold GoesOn round at h
  rw [RunWith.exec_bind_ok (exec_refill m c a.tally a.supply a.journal)] at h
  obtain ⟨samples, p₁, j₁, hsamples, hconsume⟩ := RunWith.exec_bind_eq_ok.mp h
  obtain ⟨hevaluated, rfl, rfl⟩ := exec_evaluatePending_eq_ok hsamples
  obtain ⟨used, hused⟩ := consumed_of_exec hevaluated hconsume
  exact (hused.progress (pending_refilled_ne_nil m c a.tally a.supply)).2

/-- Whenever the buffered engine asks for what is left of its budget, something is. -/
theorem budget_left_of_rounds {c : Config α} (hc : c.validate = .ok ()) (m : Model α)
    (d : Density α) (source : σ) (circular : Bool) (j : Journal α) {b : Stand (Tally α) σ α}
    (h : Relation.ReflTransGen (GoesOn (round m c d)) ⟨.empty, .fresh source circular, j⟩ b) :
    b.tally.count < c.maxSamples ∧ ∃ k, ∀ fuel,
      RunWith.exec (rounds m c d (fuel + k) .empty) (.fresh source circular) j =
        RunWith.exec (rounds m c d fuel b.tally) b.supply b.journal := by
  refine ⟨?_, exec_of_goesOn exec_rounds_of_goesOn h⟩
  cases h with
  | refl => exact Config.maxSamples_pos hc
  | tail _ hstep => exact count_lt_of_goesOn hstep

end Sampling

end FailureProbability
