import FailureProbability.Proofs.Directional.Walk
import FailureProbability.Proofs.Sampling.Budget
import FailureProbability.Proofs.Sampling.Stopping

/-!
# When a run of directions stops

Directional sampling searches all directions of a chunk before it tallies the first of them, and
stops by the same rule as the samplers. The searches make no report (`Runs.Silent`), so that the
reports of a run are those on its tallies.

The rule itself is not repeated: `Sampling.Config.Stops` asks only how a tally grows and what it
says of itself, and here the tally is one of directions. What is new is the order of things. A run
may end at a direction in the middle of a chunk, with others behind it that have been drawn and
searched already; they are neither tallied nor reported on, but their evaluations are spent. For
this reason no bound on the evaluations of directional sampling is stated, apart from those of its
rays.

The last theorem brings the samplers and directional sampling together, for any source, any monitor
and any limit state. It is about runs that have answered; the bounds on evaluations are about those
that have failed as well.
-/

namespace FailureProbability

variable {σ α β γ : Type}

variable [Scalar α]

namespace Directional

open Sampling (Standing Config.SampleCourse)

/-! ## Directions -/

namespace Drawn

variable {next : σ → List α × σ} {find : List α → Except (Error α) (Contribution α)}
  {q q' q'' : σ} {ds ds' : List (List α)} {rs rs' : List (Contribution α)}

omit [Scalar α] in
theorem length_eq (h : Drawn next find q ds rs q') : ds.length = rs.length := by
  induction h with
  | nil => rfl
  | cons hfind hrest ih => rw [List.length_cons, List.length_cons, ih]

omit [Scalar α] in
theorem append (h : Drawn next find q ds rs q') (h' : Drawn next find q' ds' rs' q'') :
    Drawn next find q (ds ++ ds') (rs ++ rs') q'' := by
  induction h with
  | nil => exact h'
  | cons hfind hrest ih => exact .cons hfind (ih h')

omit [Scalar α] in
/-- The first directions are drawn, too. -/
theorem take (h : Drawn next find q ds rs q') (k : Nat) :
    ∃ q₁, Drawn next find q (ds.take k) (rs.take k) q₁ := by
  induction h generalizing k with
  | @nil q => exact ⟨q, by simpa using Drawn.nil⟩
  | @cons q q' ds r rs hfind hrest ih =>
    cases k with
    | zero => exact ⟨q, .nil⟩
    | succ k =>
      obtain ⟨q₁, hq₁⟩ := ih k
      exact ⟨q₁, .cons hfind hq₁⟩

end Drawn

/-! ## Tallies -/

namespace Tally

def standing (t : Tally α) : Standing α := ⟨t.count, t.pf, t.covarFailure, t.covarNoFailure⟩

/-- One more direction with its contribution. -/
def addFound (t : Tally α) (f : List α × Contribution α) : Tally α := t.add f.1 f.2

theorem count_addFound (t : Tally α) (f : List α × Contribution α) :
    (t.addFound f).standing.count = t.standing.count + 1 := t.count_add f.1 f.2

end Tally

/-- The course of the directions of a run. -/
abbrev Config.Course (c : Config α) (m : Model α) (t t' : Tally α) (ended : Option Status)
    (before after : List (Report α)) (found : List (List α × Contribution α))
    (rs : List (Report α)) : Prop :=
  c.sampling.Course m.monitor Tally.addFound Tally.standing t t' ended before after found rs

/-- One direction that is tallied and reported on. -/
theorem course_added (c : Config α) (m : Model α) (t : Tally α) (j : Journal α)
    (f : List α × Contribution α) :
    let p := c.sampling.progressAt (t.addFound f).standing
    ∃ rs, c.Course m t (t.addFound f)
      (c.sampling.verdictAt (m.answer j p) (t.addFound f).standing) j.reports
      (j.record p (m.answer j p)).reports [f] rs := by
  intro p
  exact ⟨_, c.sampling.course_singleton m.monitor j.reports f
    (r := ⟨p, m.answer j p, j.evaluations⟩) ⟨rfl, rfl⟩⟩

/-- Tallied directions; the others come after the one at which the run ended. -/
theorem course_of_exec_consume {m : Model α} {c : Config α} {t t' : Tally α}
    {ended : Option Status} {j j' : Journal α} {found : List (List α × Contribution α)}
    (h : (consume c m found t).exec j = (.ok (t', ended), j')) :
    ∃ k rs, c.Course m t t' ended j.reports j'.reports (found.take k) rs ∧
      (ended = none → k = found.length) := by
  induction found generalizing t j with
  | nil =>
    cases h
    exact ⟨0, [], c.sampling.course_nil .., fun _ => rfl⟩
  | cons f found ih =>
    obtain ⟨r, hone⟩ := course_added c m t j f
    have hsettle : (c.sampling.settle m (t.add f.1 f.2).count (t.add f.1 f.2).pf
        (t.add f.1 f.2).covarFailure (t.add f.1 f.2).covarNoFailure).exec j = _ :=
      c.sampling.exec_settle_standing m (t.addFound f).standing j
    rw [consume, Run.exec_bind_ok hsettle] at h
    cases hj : c.sampling.verdictAt (m.answer j (c.sampling.progressAt (t.addFound f).standing))
        (t.addFound f).standing with
    | none =>
      rw [hj] at h hone
      obtain ⟨k, rs, hrest, hall⟩ := ih h
      exact ⟨k + 1, _, hone.append hrest, fun hended => by rw [hall hended, List.length_cons]⟩
    | some status =>
      rw [hj] at h hone
      cases h
      exact ⟨1, _, hone, fun hended => by cases hended⟩

/-! ## Runs

A round is taken apart into its three parts: directions are drawn, all of them are searched, and
then they are tallied until the run settles. The first two leave the reports as they are, so that
the course of a run is put together of what is tallied. -/

section

variable [RandomSource σ α]

/-- Drawing never fails and leaves the journal as it is. -/
theorem exec_drawDirections (n count : Nat) (s : Sampling.Supply σ α) (j : Journal α) :
    ∃ ds s', RunWith.exec (drawDirections n count) s j = (.ok ds, s', j) := by
  induction count generalizing s with
  | zero => exact ⟨[], s, rfl⟩
  | succ count ih =>
    rw [drawDirections, RunWith.exec_bind_ok (exec_drawDirection n Random.tries s j)]
    obtain ⟨ds, s', hds⟩ := ih _
    rw [RunWith.exec_bind_ok hds]
    exact ⟨_, s', rfl⟩

/-- A round draws and searches directions, and then tallies them. -/
def round (c : Config α) (m : Model α) (z0 : α) (t : Tally α) :
    Sampling.Sampler σ α (Tally α × Option Status) := do
  let directions ← drawDirections m.dimension
    (Nat.min (c.sampling.chunk m.threads) (c.sampling.maxSamples - t.count))
  let found ← Sampling.Sampler.lift (directions.mapM (search c m z0))
  Sampling.Sampler.lift (consume c m (directions.zip found) t)

/-- A round that has answered has tallied the first of the directions that it has drawn, and all of
them if the run goes on. -/
theorem course_of_exec_round {m : Model α} {c : Config α} {z0 : α} {t t' : Tally α}
    {ended : Option Status} {s s' : Sampling.Supply σ α} {j j' : Journal α}
    (h : RunWith.exec (round c m z0 t) s j = (.ok (t', ended), s', j')) :
    ∃ q ds rs reports, Drawn (nextDirection m.dimension Random.tries) (found c m z0) s.source ds rs
        q ∧ c.Course m t t' ended j.reports j'.reports (ds.zip rs) reports ∧
      (ended = none → q = s'.source ∧
        ds.length = min (c.sampling.chunk m.threads) (c.sampling.maxSamples - t.count)) := by
  unfold round at h
  obtain ⟨ds, s₁, j₁, hdraw, hrest⟩ := RunWith.exec_bind_eq_ok.mp h
  obtain ⟨rs, s₂, j₂, hfound, htallied⟩ := RunWith.exec_bind_eq_ok.mp hrest
  obtain ⟨hsearch, rfl⟩ := RunWith.exec_lift_eq_ok.mp hfound
  obtain ⟨hconsume, rfl⟩ := RunWith.exec_lift_eq_ok.mp htallied
  obtain ⟨hdrawn, hlength⟩ := drawn_of_exec hdraw hsearch
  obtain ⟨k, reports, hcourse, hall⟩ := course_of_exec_consume hconsume
  -- Neither drawing nor searching makes a report.
  have hsame : j₂.reports = j.reports := by
    obtain ⟨_, _, hdraw'⟩ := exec_drawDirections m.dimension _ s j
    have hj₁ : j₁ = j := by
      rw [hdraw] at hdraw'
      exact congrArg (fun r => r.2.2) hdraw'
    have hsilent := (Runs.silent_iff.mp (silent_searches c m z0 ds) j₁).1
    rw [hsearch, hj₁] at hsilent
    exact hsilent
  rw [hsame, List.zip, List.take_zipWith] at hcourse
  obtain ⟨q, hq⟩ := hdrawn.take k
  cases ended with
  | some status => exact ⟨q, _, _, reports, hq, hcourse, fun hended => by cases hended⟩
  | none =>
    have hk : ds.length = rs.length := hdrawn.length_eq
    have hkall : k = ds.length := by rw [hall rfl, List.length_zip, ← hk, Nat.min_self]
    rw [List.take_of_length_le (by omega), List.take_of_length_le (by omega)] at hcourse
    exact ⟨s'.source, ds, rs, reports, hdrawn, hcourse, fun _ => ⟨rfl, hlength⟩⟩

/-- A round after which the run goes on has tallied something and left some of the budget. -/
theorem count_lt_of_round {m : Model α} {c : Config α} {z0 : α} {t t' : Tally α}
    {s s' : Sampling.Supply σ α} {j j' : Journal α} (hlt : t.count < c.sampling.maxSamples)
    (h : RunWith.exec (round c m z0 t) s j = (.ok (t', none), s', j')) :
    t.count < t'.count ∧ t'.count < c.sampling.maxSamples := by
  obtain ⟨q, ds, rs, reports, hdrawn, hcourse, hall⟩ := course_of_exec_round h
  have hchunk : 1 ≤ c.sampling.chunk m.threads := Nat.le_max_right ..
  have hlength := (hall rfl).2
  have hzip : (ds.zip rs).length = ds.length := by
    rw [List.length_zip, ← hdrawn.length_eq, Nat.min_self]
  have hne : ds.zip rs ≠ [] := List.ne_nil_of_length_pos (by omega)
  have hcount : t'.count = t.count + (ds.zip rs).length := by
    have hfold : ((ds.zip rs).foldl Tally.addFound t).standing.count = t.standing.count + _ :=
      Sampling.count_foldl Tally.count_addFound t (ds.zip rs)
    rw [hcourse.tally]
    exact hfold
  have hleft := hcourse.settles.count_lt hne
  rw [← hcourse.tally] at hleft
  exact ⟨by omega, hleft⟩

/-- A run is its first round, and the rest of it if the round did not end it. -/
theorem exec_rounds_succ (c : Config α) (m : Model α) (z0 : α) (fuel : Nat) (t : Tally α)
    {b : Tally α × Option Status} {s s' : Sampling.Supply σ α} {j j' : Journal α}
    (h : RunWith.exec (round c m z0 t) s j = (.ok b, s', j')) :
    RunWith.exec (rounds c m z0 (fuel + 1) t) s j =
      match b with
      | (t, some status) => (.ok (t, status), s', j')
      | (t, none) => RunWith.exec (rounds c m z0 fuel t) s' j' := by
  obtain ⟨ds, s₁, j₁, hdraw, h⟩ := RunWith.exec_bind_eq_ok.mp h
  obtain ⟨rs, s₂, j₂, hsearch, h⟩ := RunWith.exec_bind_eq_ok.mp h
  rw [rounds, RunWith.exec_bind_ok hdraw, RunWith.exec_bind_ok hsearch, RunWith.exec_bind_ok h]
  obtain ⟨t', ended⟩ := b
  cases ended with
  | none => rfl
  | some status => rfl

theorem exists_round_of_rounds {c : Config α} {m : Model α} {z0 : α} {fuel : Nat} {t : Tally α}
    {b : Tally α × Status} {s s' : Sampling.Supply σ α} {j j' : Journal α}
    (h : RunWith.exec (rounds c m z0 (fuel + 1) t) s j = (.ok b, s', j')) :
    ∃ b' s₁ j₁, RunWith.exec (round c m z0 t) s j = (.ok b', s₁, j₁) := by
  obtain ⟨ds, s₁, j₁, hdraw, h⟩ := RunWith.exec_bind_eq_ok.mp h
  obtain ⟨rs, s₂, j₂, hsearch, h⟩ := RunWith.exec_bind_eq_ok.mp h
  obtain ⟨b', s₃, j₃, hconsume, -⟩ := RunWith.exec_bind_eq_ok.mp h
  refine ⟨b', s₃, j₃, ?_⟩
  rw [round, RunWith.exec_bind_ok hdraw, RunWith.exec_bind_ok hsearch, hconsume]

/-- A run from one round to its end. -/
theorem course_of_exec_rounds {m : Model α} {c : Config α} {z0 : α} {fuel : Nat}
    {t t' : Tally α} {status : Status} {s s' : Sampling.Supply σ α} {j j' : Journal α}
    (hready : Sampling.Ready c.sampling t.count fuel) (hlt : t.count < c.sampling.maxSamples)
    (h : RunWith.exec (rounds c m z0 fuel t) s j = (.ok (t', status), s', j')) :
    ∃ q ds rs reports, Drawn (nextDirection m.dimension Random.tries) (found c m z0) s.source ds rs
        q ∧ c.Course m t t' (some status) j.reports j'.reports (ds.zip rs) reports := by
  induction fuel generalizing t s j with
  | zero => exact absurd hready.positive (by omega)
  | succ fuel ih =>
    obtain ⟨⟨t₁, ended⟩, s₁, j₁, hround⟩ := exists_round_of_rounds h
    rw [exec_rounds_succ c m z0 fuel t hround] at h
    obtain ⟨q, ds, rs, reports, hdrawn, hcourse, hall⟩ := course_of_exec_round hround
    cases ended with
    | some status' =>
      cases h
      exact ⟨q, ds, rs, reports, hdrawn, hcourse⟩
    | none =>
      obtain ⟨hmore, hleft⟩ := count_lt_of_round hlt hround
      obtain ⟨q', ds', rs', reports', hdrawn', hrest⟩ := ih (hready.next hmore hleft) hleft h
      rw [← (hall rfl).1] at hdrawn'
      refine ⟨q', ds ++ ds', rs ++ rs', reports ++ reports', hdrawn.append hdrawn', ?_⟩
      rw [List.zip_append hdrawn.length_eq]
      exact hcourse.append hrest

/-- Directional sampling that has answered has tallied the first directions of its source and
stopped by the rule. -/
theorem stops_of_exec {m : Model α} {c : Config α} (hc : c.sampling.validate = .ok ()) {source : σ}
    {e : Estimate α} {j j' : Journal α} (h : (estimateOn c m source).exec j = (.ok e, j')) :
    ∃ z0 source' ds rs t, m.value (Coordinates.origin m.dimension) = .ok z0 ∧
      Drawn (nextDirection m.dimension Random.tries) (found c m z0) source ds rs source' ∧
      c.sampling.Stops m.monitor Tally.addFound Tally.standing (.empty m.dimension) j.reports
        j'.reports (ds.zip rs) t e.status ∧
      e.steps = t.count := by
  have hpos := Sampling.Config.maxSamples_pos hc
  obtain ⟨before, j₁, hbefore, h⟩ := Run.exec_bind_eq_ok.mp h
  cases hbefore
  obtain ⟨z0, j₂, hz0, h⟩ := Run.exec_bind_eq_ok.mp h
  obtain ⟨hvalue, rfl⟩ := Model.exec_z_eq_ok.mp hz0
  obtain ⟨⟨t, status⟩, j₃, hrounds, h⟩ := Run.exec_bind_eq_ok.mp h
  obtain ⟨x, j₄, hx, h⟩ := Run.exec_bind_eq_ok.mp h
  obtain rfl : j₃ = j₄ := (Prod.mk.inj hx).2
  cases h
  rw [Sampling.Sampler.exec_withSupply] at hrounds
  rcases hrun : RunWith.exec (rounds c m z0 c.sampling.fuel (.empty m.dimension))
    (Sampling.Supply.fresh source false) (j.spend 1) with ⟨answer, s', j₄⟩
  rw [hrun] at hrounds
  cases hrounds
  obtain ⟨q, ds, rs, reports, hdrawn, hcourse⟩ :=
    course_of_exec_rounds (Sampling.ready_fuel c.sampling) hpos hrun
  exact ⟨z0, q, ds, rs, t, hvalue, hdrawn,
    hcourse.stops hpos Tally.count_addFound rfl, rfl⟩

/-- Whenever directional sampling asks for what is left of its budget, something is. -/
theorem budget_left_of_rounds {c : Config α} (hc : c.sampling.validate = .ok ()) (m : Model α)
    (z0 : α) (source : σ) (j : Journal α) {b : Sampling.Stand (Tally α) σ α}
    (h : Relation.ReflTransGen (Sampling.GoesOn (round c m z0))
      ⟨.empty m.dimension, .fresh source false, j⟩ b) :
    b.tally.count < c.sampling.maxSamples ∧ ∃ k, ∀ fuel,
      RunWith.exec (rounds c m z0 (fuel + k) (.empty m.dimension)) (.fresh source false) j =
        RunWith.exec (rounds c m z0 fuel b.tally) b.supply b.journal := by
  refine ⟨?_, Sampling.exec_of_goesOn
    (fun fuel a b hstep => exec_rounds_succ c m z0 fuel a.tally hstep) h⟩
  induction h with
  | refl => exact Sampling.Config.maxSamples_pos hc
  | tail _ hstep ih => exact (count_lt_of_round ih hstep).2

end

end Directional

/-! ## All runs -/

namespace Sampling

variable [RandomSource σ α]

/-- **Stopping.** Both engines and directional sampling stop at the first sample at which they have
to, whatever the source yields and the monitor answers. No run evaluates more than its budget, and
what is left of it, wherever a run in rounds asks for it, is a difference that is positive. -/
theorem runs_stop_by_rule {c : Config α} (hc : c.validate = .ok ()) (m : Model α) (source : σ)
    (j : Journal α) :
    -- The engines: the samples are those of the first vectors of the source.
    (∀ (d : Density α) (circular : Bool) (o : Outcome α) (s' : Supply σ α) (j' : Journal α),
      RunWith.exec (sequential m c d) (.fresh source circular) j = (.ok o, s', j') ∨
        RunWith.exec (buffered m c d) (.fresh source circular) j = (.ok o, s', j') →
      ∃ source' vs samples, RandomSource.Yields m.dimension source vs source' ∧
        Evaluated m d vs samples ∧
        c.Stops m.monitor Tally.addSample Tally.standing .empty j.reports j'.reports samples
          o.tally o.status) ∧
    -- Directional sampling: the directions are the first ones of the source.
    (∀ dc : Directional.Config α, dc.sampling = c →
      ∀ (e : Estimate α) (j' : Journal α),
        (Directional.estimateOn dc m source).exec j = (.ok e, j') →
      ∃ z0 source' ds rs t, m.value (Coordinates.origin m.dimension) = .ok z0 ∧
        Directional.Drawn (Directional.nextDirection m.dimension Random.tries)
          (Directional.found dc m z0) source ds rs source' ∧
        c.Stops m.monitor Directional.Tally.addFound Directional.Tally.standing
          (.empty m.dimension) j.reports j'.reports (ds.zip rs) t e.status ∧
        e.steps = t.count) ∧
    -- Evaluations, of runs that fail as well.
    (∀ (d : Density α) (circular : Bool),
      (RunWith.exec (sequential m c d) (Supply.fresh source circular) j).2.2.evaluations ≤
        j.evaluations + c.maxSamples ∧
      (RunWith.exec (buffered m c d) (Supply.fresh source circular) j).2.2.evaluations ≤
        j.evaluations + c.maxSamples) ∧
    Runs.SpendsAtMost c.maxSamples (Crude.estimate c m) ∧
    (∀ ic : Importance.Config α, ic.sampling = c →
      Runs.SpendsAtMost c.maxSamples (Importance.estimate ic m) ∧
      ∀ earlier, Runs.SpendsAtMost c.maxSamples (Importance.estimateAfter ic earlier m)) ∧
    -- What is left of the budget at every stand that a run in rounds passes through.
    (∀ (d : Density α) (circular : Bool) (b : Stand (Tally α) σ α),
      Relation.ReflTransGen (GoesOn (round m c d)) ⟨.empty, .fresh source circular, j⟩ b →
      b.tally.count < c.maxSamples ∧ ∃ k, ∀ fuel,
        RunWith.exec (rounds m c d (fuel + k) .empty) (.fresh source circular) j =
          RunWith.exec (rounds m c d fuel b.tally) b.supply b.journal) ∧
    (∀ dc : Directional.Config α, dc.sampling = c →
      ∀ (z0 : α) (b : Stand (Directional.Tally α) σ α),
      Relation.ReflTransGen (GoesOn (Directional.round dc m z0))
        ⟨.empty m.dimension, .fresh source false, j⟩ b →
      b.tally.count < c.maxSamples ∧ ∃ k, ∀ fuel,
        RunWith.exec (Directional.rounds dc m z0 (fuel + k) (.empty m.dimension))
            (.fresh source false) j =
          RunWith.exec (Directional.rounds dc m z0 fuel b.tally) b.supply b.journal) := by
  refine ⟨?engines, ?directions, ?evaluations, Crude.spendsAtMost_estimate hc m, ?importance,
    ?rounds, ?directionRounds⟩
  case engines =>
    intro d circular o s' j' h
    exact stops_of_exec hc h
  case directions =>
    intro dc hdc e j' h
    subst hdc
    exact Directional.stops_of_exec hc h
  case evaluations =>
    intro d circular
    exact evaluations_engines_le hc m d source circular j
  case importance =>
    intro ic hic
    subst hic
    exact ⟨Importance.spendsAtMost_estimate hc m,
      fun earlier => Importance.spendsAtMost_estimateAfter hc earlier m⟩
  case rounds =>
    intro d circular b h
    exact budget_left_of_rounds hc m d source circular j h
  case directionRounds =>
    intro dc hdc z0 b h
    subst hdc
    exact Directional.budget_left_of_rounds hc m z0 source j h

/-- The run that is stopped in the middle of a chunk reports twice. -/
theorem runs_stop_by_rule_stoppedAtTwo : ∃ o s' j' reports standing,
    RunWith.exec (buffered stoppedAtTwo .byThrees (.standard 1))
        (.fresh (Random.Replay.new [0.5, -1, 2] : Random.Replay Float) false) .empty =
      (.ok o, s', j') ∧
    o.status = .abortedByUser ∧ reports.length = 2 ∧ j'.reports = reports.reverse ∧
    Config.byThrees.StopsByRule stoppedAtTwo.monitor [] standing reports o.status := by
  obtain ⟨hengines, -⟩ := runs_stop_by_rule Config.validate_byThrees stoppedAtTwo
    (Random.Replay.new [0.5, -1, 2] : Random.Replay Float) .empty
  obtain ⟨o, s', j', hrun, hstatus, hcount⟩ :
      ∃ o s' j', RunWith.exec (buffered stoppedAtTwo .byThrees (.standard 1))
          (Supply.fresh (Random.Replay.new [0.5, -1, 2] : Random.Replay Float) false) .empty =
        (.ok o, s', j') ∧ o.status = .abortedByUser ∧ o.tally.standing.count = 2 :=
    ⟨_, _, _, rfl, rfl, rfl⟩
  obtain ⟨source', vs, samples, -, -, hstops⟩ :=
    hengines (.standard 1) false o s' j' (.inr hrun)
  obtain ⟨reports, hreports, hlength, hrule⟩ := hstops.rule
  rw [show (Journal.empty : Journal Float).reports = [] from rfl, List.append_nil] at hreports
  have hsamples : samples.length = 2 := hstops.count.symm.trans hcount
  exact ⟨o, s', j', reports, _, hrun, hstatus, hlength.trans hsamples, hreports, hrule⟩

end Sampling

end FailureProbability
