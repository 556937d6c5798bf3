import FailureProbability.Proofs.Evaluation
import FailureProbability.Proofs.Sampling.Stream
import FailureProbability.Sampling.Engine

/-!
# The steps of the engines

One equation for each thing that an engine does: the verdict on a tally, a sample of the sequential
engine, and the three parts of a round of the buffered engine. What is evaluated is described by
`Evaluated`, which pairs the pending vectors with the samples that they stand for. A run has enough
fuel left when its budget ends first (`Ready`).

Fuel is part of the definition of the engines and of nothing that they answer. A run with too little
of it would stop without a verdict; every run begins with as much as its budget (`ready_fuel`), and
a round or a sample that does not end the run leaves it with enough (`Ready.next`).

The equations hold of any source and any monitor. Whoever follows a run rewrites with them, and does
not have to know how an engine is written.
-/

namespace FailureProbability.Sampling

variable {σ α : Type}

theorem counted_eq (run : Sampler σ α (Tally α × Status)) :
    counted run = do
      let before ← (Runs.lift Run.evaluations : Sampler σ α Nat)
      let b ← run
      let after ← (Runs.lift Run.evaluations : Sampler σ α Nat)
      return ⟨b.1, b.2, after - before⟩ := rfl

variable [Scalar α]

/-! ## Verdicts

A verdict depends on what a monitor has heard and not on the counter of the journal. So the same
tally has the same verdict in two runs that have made the same reports, also if one of them has
evaluated more. -/

namespace Config

/-- What is reported after `n` samples. -/
def progress (c : Config α) (n : Nat) (pf failure noFailure : α) : Progress α :=
  ⟨n, c.maxSamples, betaOf pf, Scalar.max failure noFailure⟩

/-- How a run ends after the answer to its report, if it ends there. -/
def verdict (c : Config α) (answer : Control) (n : Nat) (failure noFailure : α) : Option Status :=
  if answer = .abort then some .abortedByUser
  else if c.isConverged n failure noFailure then some .success
  else if c.maxSamples ≤ n then some .noConvergence
  else none

/-- A tally is reported on before anything is decided, and the verdict uses the answer. -/
theorem exec_settle (c : Config α) (m : Model α) (n : Nat) (pf failure noFailure : α)
    (j : Journal α) :
    (c.settle m n pf failure noFailure).exec j =
      let p := c.progress n pf failure noFailure
      (.ok (c.verdict (m.answer j p) n failure noFailure), j.record p (m.answer j p)) := by
  dsimp only
  unfold settle verdict
  rw [Run.exec_bind_ok (Model.exec_report m _ j)]
  rw [show (⟨n, c.maxSamples, betaOf pf, Scalar.max failure noFailure⟩ : Progress α) =
    c.progress n pf failure noFailure from rfl]
  generalize m.answer j (c.progress n pf failure noFailure) = answer
  cases answer with
  | abort => rfl
  | proceed =>
    rw [if_neg (show ¬(Control.proceed == Control.abort) = true by decide),
      if_neg (show ¬Control.proceed = Control.abort by decide)]
    split
    · rfl
    · split <;> rfl

/-- A run that goes on has budget left. -/
theorem lt_of_verdict {c : Config α} {answer : Control} {n : Nat} {failure noFailure : α}
    (h : c.verdict answer n failure noFailure = none) : n < c.maxSamples := by
  unfold verdict at h
  split at h
  · cases h
  · split at h
    · cases h
    · split at h
      · cases h
      · omega

/-- What is reported on a tally. -/
def reportOn (c : Config α) (t : Tally α) : Progress α :=
  c.progress t.count t.pf t.covarFailure t.covarNoFailure

/-- How a run ends at a tally, in view of a journal. -/
def judged (c : Config α) (m : Model α) (j : Journal α) (t : Tally α) : Option Status :=
  c.verdict (m.answer j (c.reportOn t)) t.count t.covarFailure t.covarNoFailure

/-- The journal after the report on a tally. -/
def noted (c : Config α) (m : Model α) (j : Journal α) (t : Tally α) : Journal α :=
  j.record (c.reportOn t) (m.answer j (c.reportOn t))

theorem exec_judge (c : Config α) (m : Model α) (t : Tally α) (j : Journal α) :
    (c.judge m t).exec j = (.ok (c.judged m j t), c.noted m j t) :=
  exec_settle c m t.count t.pf t.covarFailure t.covarNoFailure j

theorem lt_of_judged {c : Config α} {m : Model α} {j : Journal α} {t : Tally α}
    (h : c.judged m j t = none) : t.count < c.maxSamples := lt_of_verdict h

@[simp] theorem evaluations_noted (c : Config α) (m : Model α) (j : Journal α) (t : Tally α) :
    (c.noted m j t).evaluations = j.evaluations := rfl

/-- Monitors that have heard the same come to the same verdict. -/
theorem judged_eq_of_heard {c : Config α} {m : Model α} (hm : m.monitor.HearsProgress)
    {j j' : Journal α} (h : j.heard = j'.heard) (t : Tally α) :
    c.judged m j t = c.judged m j' t := by
  unfold judged
  rw [Model.answer_eq_of_heard hm h]

theorem heard_noted_eq {c : Config α} {m : Model α} (hm : m.monitor.HearsProgress)
    {j j' : Journal α} (h : j.heard = j'.heard) (t : Tally α) :
    (c.noted m j t).heard = (c.noted m j' t).heard := by
  unfold noted
  rw [Journal.heard_record, Journal.heard_record, h, Model.answer_eq_of_heard hm h]

end Config

/-! ## Fuel -/

/-- A run with so many samples has fuel for those that its budget still allows, and for one at
least. -/
structure Ready (c : Config α) (count fuel : Nat) : Prop where
  budget : c.maxSamples ≤ count + fuel
  positive : 1 ≤ fuel

omit [Scalar α] in
/-- A run begins with enough fuel, also if its budget is nothing. -/
theorem ready_fuel (c : Config α) : Ready c 0 c.fuel := by
  have hmax : c.maxSamples ≤ Nat.max c.maxSamples 1 := Nat.le_max_left ..
  have hone : 1 ≤ Nat.max c.maxSamples 1 := Nat.le_max_right ..
  have hfuel : c.fuel = Nat.max c.maxSamples 1 := rfl
  exact ⟨by omega, by omega⟩

omit [Scalar α] in
/-- A run that goes on after some more samples may spend one unit of fuel on them. -/
theorem Ready.next {c : Config α} {count count' fuel : Nat} (h : Ready c count (fuel + 1))
    (hcount : count < count') (hlt : count' < c.maxSamples) : Ready c count' fuel := by
  have := h.budget
  exact ⟨by omega, by omega⟩

/-! ## Several samples together

A round refills what is pending, evaluates all of it and tallies the samples until the run settles.
Vectors that are left over at the end of a run stay pending with their values forgotten; a round
that goes on leaves none. -/

/-- The samples that vectors stand for, each with its value. -/
inductive Evaluated (m : Model α) (d : Density α) : List (List α) → List (Sample α) → Prop
  | nil : Evaluated m d [] []
  | cons {v : List α} {s : Sample α} {vs : List (List α)} {samples : List (Sample α)}
      (hs : d.sample v = (s.u, s.weight)) (hz : m.value s.u = .ok s.z)
      (hrest : Evaluated m d vs samples) : Evaluated m d (v :: vs) (s :: samples)

theorem evaluated_zipWith {m : Model α} {d : Density α} {vs : List (List α)} {zs : List α}
    (h : ((vs.map d.sample).map (·.1)).mapM m.value = .ok zs) :
    Evaluated m d vs (List.zipWith (fun s z => ⟨s.1, s.2, z⟩) (vs.map d.sample) zs) := by
  induction vs generalizing zs with
  | nil => exact .nil
  | cons v vs ih =>
    rw [List.map_cons, List.map_cons] at h
    obtain ⟨z, rest, hz, hrest, rfl⟩ := mapM_cons_eq_ok.mp h
    exact .cons rfl hz (ih hrest)

/-- Evaluating what is pending gives its samples, and spends one evaluation for each. -/
theorem exec_evaluatePending_eq_ok {m : Model α} {d : Density α} {p p' : Supply σ α}
    {samples : List (Sample α)} {j j' : Journal α}
    (h : RunWith.exec (evaluatePending m d) p j = (.ok samples, p', j')) :
    Evaluated m d p.pending samples ∧ p' = p ∧ j' = j.spend p.pending.length := by
  unfold evaluatePending at h
  rw [RunWith.exec_bind_ok (RunWith.exec_get p j)] at h
  obtain ⟨zs, p₁, j₁, hzs, h⟩ := RunWith.exec_bind_eq_ok.mp h
  obtain ⟨hrun, rfl⟩ := RunWith.exec_lift_eq_ok.mp hzs
  have hvalues := Model.values_of_exec_zAll hrun
  rw [Model.exec_zAll_of_values hvalues, List.length_map, List.length_map] at hrun
  cases hrun
  cases h
  exact ⟨evaluated_zipWith hvalues, rfl, rfl⟩

theorem exec_evaluatePending_of_values {m : Model α} {d : Density α} {p : Supply σ α}
    {zs : List α} (h : ((p.pending.map d.sample).map (·.1)).mapM m.value = .ok zs)
    (j : Journal α) :
    ∃ samples, RunWith.exec (evaluatePending m d) p j =
      (.ok samples, p, j.spend p.pending.length) := by
  unfold evaluatePending
  rw [RunWith.exec_bind_ok (RunWith.exec_get p j)]
  have hrun := Model.exec_zAll_of_values h j
  rw [List.length_map, List.length_map] at hrun
  rw [RunWith.exec_bind_ok (RunWith.exec_lift_ok hrun p)]
  exact ⟨_, rfl⟩

/-- A sample that is tallied is no longer pending. -/
theorem exec_consume_cons (m : Model α) (c : Config α) (s : Sample α) (rest : List (Sample α))
    (t : Tally α) (p : Supply σ α) (j : Journal α) :
    RunWith.exec (consume m c (s :: rest) t) p j =
      let p : Supply σ α := { p with pending := p.pending.drop 1 }
      let t := t.add s.u s.z s.weight
      match c.judged m j t with
      | some status => (.ok (t, some status), p, c.noted m j t)
      | none => RunWith.exec (consume m c rest t) p (c.noted m j t) := by
  dsimp only
  rw [consume, RunWith.exec_bind_ok (RunWith.exec_modify _ p j),
    RunWith.exec_bind_ok (RunWith.exec_lift_ok (Config.exec_judge ..) _)]
  cases c.judged m j (t.add s.u s.z s.weight) <;> rfl

variable [RandomSource σ α]

def refillCount (m : Model α) (c : Config α) (t : Tally α) : Nat :=
  Nat.max (Nat.min (c.chunk m.threads) (c.maxSamples - t.count)) 1

def refilled (m : Model α) (c : Config α) (t : Tally α) (p : Supply σ α) : Supply σ α :=
  if p.pending.isEmpty then
    let drawn : List (List α) × σ :=
      RandomSource.vectors m.dimension (refillCount m c t) p.source
    { p with source := drawn.2, pending := drawn.1 }
  else p

omit [Scalar α] in
theorem exec_refill (m : Model α) (c : Config α) (t : Tally α) (p : Supply σ α)
    (j : Journal α) : RunWith.exec (refill m c t) p j = (.ok ⟨⟩, refilled m c t p, j) := by
  unfold refill refilled
  rw [RunWith.exec_bind_ok (RunWith.exec_get p j)]
  cases hp : p.pending.isEmpty with
  | true =>
    rw [if_pos rfl, if_pos rfl, RunWith.exec_bind_ok (Sampler.exec_drawAll ..)]
    rfl
  | false => rfl

omit [Scalar α] in
/-- After a refill the pending vectors are the next ones of the stream. -/
theorem yields_refilled {n : Nat} {m : Model α} (hn : m.dimension = n) {c : Config α}
    {t : Tally α} {q : σ} {p : Supply σ α} (h : RandomSource.Yields n q p.pending p.source) :
    RandomSource.Yields n q (refilled m c t p).pending (refilled m c t p).source := by
  subst hn
  unfold refilled
  split
  · rename_i hp
    rw [List.isEmpty_iff.mp hp] at h
    rw [RandomSource.yields_nil.mp h]
    exact RandomSource.yields_vectors ..
  · exact h

omit [Scalar α] in
@[simp] theorem circular_refilled (m : Model α) (c : Config α) (t : Tally α) (p : Supply σ α) :
    (refilled m c t p).circular = p.circular := by
  unfold refilled
  split <;> rfl

omit [Scalar α] in
/-- After a refill there is something to evaluate. -/
theorem pending_refilled_ne_nil (m : Model α) (c : Config α) (t : Tally α) (p : Supply σ α) :
    (refilled m c t p).pending ≠ [] := by
  unfold refilled
  split
  · intro h
    have hone : 1 ≤ refillCount m c t := Nat.le_max_right ..
    have hzero : refillCount m c t = 0 :=
      (RandomSource.length_vectors m.dimension (refillCount m c t) p.source).symm.trans
        (congrArg List.length h)
    omega
  · rename_i hp
    simpa using hp

/-- One round of the buffered engine that has answered, and how it goes on. -/
theorem exec_rounds_succ_eq_ok {m : Model α} {c : Config α} {d : Density α} {fuel : Nat}
    {t t' : Tally α} {status : Status} {p p' : Supply σ α} {j j' : Journal α}
    (h : RunWith.exec (rounds m c d (fuel + 1) t) p j = (.ok (t', status), p', j')) :
    ∃ samples t₁ ended p₁ j₁, Evaluated m d (refilled m c t p).pending samples ∧
      RunWith.exec (consume m c samples t) (refilled m c t p)
        (j.spend (refilled m c t p).pending.length) = (.ok (t₁, ended), p₁, j₁) ∧
      match ended with
      | some st => t' = t₁ ∧ status = st ∧ p' = p₁.settle ∧ j' = j₁
      | none => RunWith.exec (rounds m c d fuel t₁) p₁ j₁ = (.ok (t', status), p', j') := by
  rw [rounds, RunWith.exec_bind_ok (exec_refill m c t p j)] at h
  obtain ⟨samples, p₀, j₀, hsamples, h⟩ := RunWith.exec_bind_eq_ok.mp h
  obtain ⟨hevaluated, rfl, rfl⟩ := exec_evaluatePending_eq_ok hsamples
  obtain ⟨⟨t₁, ended⟩, p₁, j₁, hconsume, h⟩ := RunWith.exec_bind_eq_ok.mp h
  refine ⟨samples, t₁, ended, p₁, j₁, hevaluated, hconsume, ?_⟩
  cases ended with
  | none => exact h
  | some st =>
    cases h
    exact ⟨rfl, rfl, rfl, rfl⟩

/-! ## One sample at a time -/

/-- A sample of the sequential engine that has a value. -/
theorem exec_single_succ {m : Model α} {c : Config α} {d : Density α} {s : Supply σ α}
    {eps : List α} {z : α} (heps : (RandomSource.normals m.dimension s.source : List α × σ).1 = eps)
    (hz : m.value (d.sample eps).1 = .ok z) (fuel : Nat) (t : Tally α) (j : Journal α) :
    RunWith.exec (single m c d (fuel + 1) t) s j =
      let s : Supply σ α :=
        { s with source := (RandomSource.normals m.dimension s.source : List α × σ).2 }
      let t := t.add (d.sample eps).1 z (d.sample eps).2
      match c.judged m (j.spend 1) t with
      | some status => (.ok (t, status), s, c.noted m (j.spend 1) t)
      | none => RunWith.exec (single m c d fuel t) s (c.noted m (j.spend 1) t) := by
  dsimp only
  rw [single, RunWith.exec_bind_ok (Sampler.exec_draw m.dimension s j), heps]
  rw [RunWith.exec_bind_ok (RunWith.exec_lift_ok (Model.exec_z_of_value hz j) _),
    RunWith.exec_bind_ok (RunWith.exec_lift_ok (Config.exec_judge ..) _)]
  cases c.judged m (j.spend 1) (t.add (d.sample eps).1 z (d.sample eps).2) <;> rfl

theorem value_of_exec_single {m : Model α} {c : Config α} {d : Density α} {s s' : Supply σ α}
    {fuel : Nat} {t : Tally α} {j j' : Journal α} {b : Tally α × Status}
    (h : RunWith.exec (single m c d (fuel + 1) t) s j = (.ok b, s', j')) :
    ∃ z, m.value (d.sample (RandomSource.normals m.dimension s.source : List α × σ).1).1 =
      .ok z := by
  unfold single at h
  rw [RunWith.exec_bind_ok (Sampler.exec_draw m.dimension s j)] at h
  obtain ⟨z, s₁, j₁, hz, -⟩ := RunWith.exec_bind_eq_ok.mp h
  exact ⟨z, (Model.exec_z_eq_ok.mp (RunWith.exec_lift_eq_ok.mp hz).1).1⟩

end FailureProbability.Sampling
