import FailureProbability.Proofs.Sampling.Lockstep

/-!
# When a run of samples stops

After every sample a run reports where it stands, and the answer decides together with the number of
samples and the variation coefficients whether it ends there. `Settles` is this rule for a list of
standings, one after the other; all runs are read as such lists, whatever they draw and evaluate
ahead. It follows that a run stops at the first sample at which it has to (`StopsByRule`).

The rule is stated for any kind of tally, by how it grows and what it says of itself, and is used
for samples here and for directions in `Proofs.Directional.Stopping`. Variation coefficients are
what the tally says they are: their arithmetic plays no part, and a coefficient that is not a number
is simply not small enough.

Earlier reports belong to the statement. A monitor may remember them, and its answers are those to
the whole of what it has heard, from the journal that the run began with. Where several reasons to
stop come together, the order to stop goes first and the budget last.
-/

namespace FailureProbability.Sampling

variable {σ α : Type} [Scalar α]

/-! ## The rule

The rule sees a tally only as a number of samples, a probability and two variation
coefficients. A list of standings that settles has been reported on from the first to the last,
each with the answer that the monitor gives to it after all earlier ones, and only the last of
them ends the run. -/

/-- What the rule sees of a tally. -/
structure Standing (α : Type) where
  count : Nat
  pf : α
  /-- The variation coefficient of the failure probability. -/
  failure : α
  /-- The variation coefficient of its complement. -/
  noFailure : α

namespace Config

/-- A run goes on if nothing speaks against it. -/
theorem verdict_eq_none_iff {c : Config α} {answer : Control} {n : Nat} {failure noFailure : α} :
    c.verdict answer n failure noFailure = none ↔
      answer = .proceed ∧ c.isConverged n failure noFailure = false ∧ n < c.maxSamples := by
  unfold verdict
  cases answer with
  | abort => simp
  | proceed =>
    cases c.isConverged n failure noFailure with
    | true => simp
    | false => simp

/-- The order to stop comes before everything else, and the budget comes last. -/
theorem verdict_eq_some_iff {c : Config α} {answer : Control} {n : Nat} {failure noFailure : α}
    {status : Status} :
    c.verdict answer n failure noFailure = some status ↔
      (status = .abortedByUser ∧ answer = .abort) ∨
      (status = .success ∧ answer = .proceed ∧ c.isConverged n failure noFailure = true) ∨
      (status = .noConvergence ∧ answer = .proceed ∧
        c.isConverged n failure noFailure = false ∧ c.maxSamples ≤ n) := by
  unfold verdict
  cases answer with
  | abort => simp [eq_comm (b := status)]
  | proceed =>
    cases c.isConverged n failure noFailure with
    | true => simp [eq_comm (b := status)]
    | false =>
      by_cases h : c.maxSamples ≤ n
      · simp [h, eq_comm (b := status)]
      · simp [h]

/-- What is reported on a standing. -/
def progressAt (c : Config α) (s : Standing α) : Progress α :=
  c.progress s.count s.pf s.failure s.noFailure

def verdictAt (c : Config α) (answer : Control) (s : Standing α) : Option Status :=
  c.verdict answer s.count s.failure s.noFailure

theorem exec_settle_standing (c : Config α) (m : Model α) (s : Standing α) (j : Journal α) :
    (c.settle m s.count s.pf s.failure s.noFailure).exec j =
      (.ok (c.verdictAt (m.answer j (c.progressAt s)) s),
        j.record (c.progressAt s) (m.answer j (c.progressAt s))) :=
  exec_settle c m s.count s.pf s.failure s.noFailure j

/-- A report on a standing, with the answer of a monitor that has heard the earlier reports. -/
structure Reports (c : Config α) (monitor : Monitor α) (before : List (Report α))
    (s : Standing α) (r : Report α) : Prop where
  progress : r.progress = c.progressAt s
  answer : r.answer = monitor before r.progress

/-- Standings are reported on, one after the other; the run ends at the last of them or goes on. -/
inductive Settles (c : Config α) (monitor : Monitor α) :
    List (Report α) → List (Standing α) → List (Report α) → Option Status → Prop
  | nil {before : List (Report α)} : Settles c monitor before [] [] none
  | ends {before : List (Report α)} {s : Standing α} {r : Report α} {status : Status}
      (hr : c.Reports monitor before s r) (h : c.verdictAt r.answer s = some status) :
      Settles c monitor before [s] [r] (some status)
  | goes {before : List (Report α)} {s : Standing α} {r : Report α} {ss : List (Standing α)}
      {rs : List (Report α)} {ended : Option Status} (hr : c.Reports monitor before s r)
      (h : c.verdictAt r.answer s = none) (hrest : Settles c monitor (r :: before) ss rs ended) :
      Settles c monitor before (s :: ss) (r :: rs) ended

end Config

namespace Config.Settles

variable {c : Config α} {monitor : Monitor α} {before : List (Report α)}
  {ss ss' : List (Standing α)} {rs rs' : List (Report α)} {ended : Option Status}

theorem append (h : c.Settles monitor before ss rs none)
    (h' : c.Settles monitor (rs.reverse ++ before) ss' rs' ended) :
    c.Settles monitor before (ss ++ ss') (rs ++ rs') ended := by
  generalize hended : (none : Option Status) = e at h
  induction h with
  | nil => exact h'
  | ends hr h => cases hended
  | goes hr h hrest ih =>
    refine .goes hr h (ih ?_ hended)
    simpa using h'

/-- One report for each standing. -/
theorem length_eq (h : c.Settles monitor before ss rs ended) : rs.length = ss.length := by
  induction h with
  | nil => rfl
  | ends hr h => rfl
  | goes hr h hrest ih => rw [List.length_cons, List.length_cons, ih]

/-- Each report is on its standing, and its answer given after the reports before. -/
theorem reports_getElem (h : c.Settles monitor before ss rs ended) {k : Nat} (hk : k < rs.length)
    (hk' : k < ss.length) : c.Reports monitor ((rs.take k).reverse ++ before) ss[k] rs[k] := by
  induction h generalizing k with
  | nil => exact absurd hk (Nat.not_lt_zero k)
  | ends hr h =>
    obtain rfl : k = 0 := by simpa using hk
    exact hr
  | goes hr h hrest ih =>
    cases k with
    | zero => exact hr
    | succ k =>
      have hrest := ih (Nat.lt_of_succ_lt_succ hk) (Nat.lt_of_succ_lt_succ hk')
      simpa using hrest

/-- A run goes on after every standing but the last. -/
theorem verdict_getElem (h : c.Settles monitor before ss rs ended) {k : Nat}
    (hk : k + 1 < rs.length) (hk' : k < ss.length) : c.verdictAt rs[k].answer ss[k] = none := by
  induction h generalizing k with
  | nil => exact absurd hk (Nat.not_lt_zero _)
  | ends hr h => simp at hk
  | goes hr h hrest ih =>
    cases k with
    | zero => exact h
    | succ k => exact ih (Nat.lt_of_succ_lt_succ hk) (Nat.lt_of_succ_lt_succ hk')

/-- A run that ends does so at the last standing. -/
theorem verdict_last {status : Status} (h : c.Settles monitor before ss rs (some status)) :
    ∃ k, ∃ (hk : k < rs.length) (hk' : k < ss.length), rs.length = k + 1 ∧
      c.verdictAt rs[k].answer ss[k] = some status := by
  generalize hended : some status = e at h
  induction h with
  | nil => cases hended
  | ends hr h =>
    cases hended
    exact ⟨0, by simp, by simp, rfl, h⟩
  | goes hr h hrest ih =>
    obtain ⟨k, hk, hk', hlength, hlast⟩ := ih hended
    exact ⟨k + 1, Nat.succ_lt_succ hk, Nat.succ_lt_succ hk', by simp [hlength], hlast⟩

end Config.Settles

/-- A run of as many steps as it has made reports stops by the rule: where `standing k` is that of
the first `k` samples, the reports are those of the steps one, two and so on; at no earlier step was
the run told to stop or good enough, and the last step tells how it ended. -/
structure Config.StopsByRule (c : Config α) (monitor : Monitor α) (before : List (Report α))
    (standing : Nat → Standing α) (reports : List (Report α)) (status : Status) : Prop where
  positive : 1 ≤ reports.length
  budget : reports.length ≤ c.maxSamples
  reported : ∀ k (hk : k < reports.length), reports[k].progress =
    c.progress (k + 1) (standing (k + 1)).pf (standing (k + 1)).failure (standing (k + 1)).noFailure
  answered : ∀ k (hk : k < reports.length),
    reports[k].answer = monitor ((reports.take k).reverse ++ before) reports[k].progress
  going : ∀ k (hk : k + 1 < reports.length), reports[k].answer = .proceed ∧
    c.isConverged (k + 1) (standing (k + 1)).failure (standing (k + 1)).noFailure = false
  aborted : status = .abortedByUser ↔ reports.getLast?.map (·.answer) = some .abort
  success : status = .success ↔ reports.getLast?.map (·.answer) = some .proceed ∧
    c.isConverged reports.length (standing reports.length).failure
      (standing reports.length).noFailure = true
  noConvergence : status = .noConvergence ↔ reports.getLast?.map (·.answer) = some .proceed ∧
    c.isConverged reports.length (standing reports.length).failure
      (standing reports.length).noFailure = false
  exhausted : status = .noConvergence → reports.length = c.maxSamples

/-- A list of standings that has settled tells a run that has stopped by the rule, where the
standings are those of the first samples of the run, one after the other. -/
theorem Config.Settles.stopsByRule {c : Config α} (hc : 0 < c.maxSamples) {monitor : Monitor α}
    {before rs : List (Report α)} {ss : List (Standing α)} {status : Status}
    (h : c.Settles monitor before ss rs (some status)) {standing : Nat → Standing α}
    (hcount : ∀ k ≤ ss.length, (standing k).count = k)
    (hstanding : ∀ k (hk : k < ss.length), ss[k] = standing (k + 1)) :
    c.StopsByRule monitor before standing rs status := by
  have hlength := h.length_eq
  have hreport : ∀ k (hk : k < rs.length),
      c.Reports monitor ((rs.take k).reverse ++ before) (standing (k + 1)) rs[k] := by
    intro k hk
    rw [← hstanding k (hlength ▸ hk)]
    exact h.reports_getElem hk (hlength ▸ hk)
  have hgoing : ∀ k (hk : k + 1 < rs.length), rs[k].answer = .proceed ∧
      c.isConverged (k + 1) (standing (k + 1)).failure (standing (k + 1)).noFailure = false ∧
      k + 1 < c.maxSamples := by
    intro k hk
    have hnone := h.verdict_getElem hk (by omega)
    rw [hstanding k (by omega), Config.verdictAt, hcount (k + 1) (by omega)] at hnone
    exact Config.verdict_eq_none_iff.mp hnone
  obtain ⟨k, hk, hk', hn, hlast⟩ := h.verdict_last
  rw [hstanding k hk', Config.verdictAt, hcount (k + 1) hk', ← hn] at hlast
  have hend : rs.getLast?.map (·.answer) = some rs[k].answer := by
    simp [List.getLast?_eq_getElem?, hn]
  have hbudget : rs.length ≤ c.maxSamples := by
    rw [hn]
    cases k with
    | zero => exact hc
    | succ k => exact (hgoing k (by omega)).2.2
  have hprogress : ∀ k (hk : k < rs.length), rs[k].progress = c.progress (k + 1)
      (standing (k + 1)).pf (standing (k + 1)).failure (standing (k + 1)).noFailure := by
    intro k hk
    rw [(hreport k hk).progress, Config.progressAt, hcount (k + 1) (by omega)]
  have hgo : ∀ k (hk : k + 1 < rs.length), rs[k].answer = .proceed ∧
      c.isConverged (k + 1) (standing (k + 1)).failure (standing (k + 1)).noFailure = false :=
    fun k hk => ⟨(hgoing k hk).1, (hgoing k hk).2.1⟩
  -- The last verdict tells the status, and the three statuses exclude each other.
  rcases Config.verdict_eq_some_iff.mp hlast with
    ⟨rfl, hanswer⟩ | ⟨rfl, hanswer, hconverged⟩ | ⟨rfl, hanswer, hconverged, hmax⟩
  · rw [hanswer] at hend
    exact ⟨by omega, hbudget, hprogress, fun k hk => (hreport k hk).answer, hgo,
      by simp [hend], by simp [hend], by simp [hend], by simp⟩
  · rw [hanswer] at hend
    exact ⟨by omega, hbudget, hprogress, fun k hk => (hreport k hk).answer, hgo,
      by simp [hend], by simp [hend, hconverged], by simp [hend, hconverged], by simp⟩
  · rw [hanswer] at hend
    exact ⟨by omega, hbudget, hprogress, fun k hk => (hreport k hk).answer, hgo,
      by simp [hend], by simp [hend, hconverged], by simp [hend, hconverged], fun _ => by omega⟩

/-! ## Standings

A run is told by the list of what it has tallied: the standings are those after each member of the
list. Two runs follow upon each other when the first one goes on, and then the lists are appended;
this is how rounds and single samples are put together. -/

/-- The standings of a tally after each one of a list of additions. -/
def standings {τ ι : Type} (add : τ → ι → τ) (standing : τ → Standing α) :
    τ → List ι → List (Standing α)
  | _, [] => []
  | t, i :: is => standing (add t i) :: standings add standing (add t i) is

section

variable {τ ι : Type} {add : τ → ι → τ} {standing : τ → Standing α} {t : τ} {is is' : List ι}

omit [Scalar α] in
theorem length_standings : (standings add standing t is).length = is.length := by
  induction is generalizing t with
  | nil => rfl
  | cons i is ih => rw [standings, List.length_cons, List.length_cons, ih]

omit [Scalar α] in
theorem standings_append : standings add standing t (is ++ is') =
    standings add standing t is ++ standings add standing (is.foldl add t) is' := by
  induction is generalizing t with
  | nil => rfl
  | cons i is ih =>
    rw [List.cons_append, standings, standings, ih, List.foldl_cons, List.cons_append]

omit [Scalar α] in
theorem getElem_standings {k : Nat} (hk : k < (standings add standing t is).length) :
    (standings add standing t is)[k] = standing ((is.take (k + 1)).foldl add t) := by
  induction is generalizing t k with
  | nil => exact absurd hk (Nat.not_lt_zero k)
  | cons i is ih =>
    cases k with
    | zero => rfl
    | succ k => exact ih (Nat.lt_of_succ_lt_succ hk)

omit [Scalar α] in
theorem count_foldl (hcount : ∀ t i, (standing (add t i)).count = (standing t).count + 1)
    (t : τ) (is : List ι) :
    (standing (is.foldl add t)).count = (standing t).count + is.length := by
  induction is generalizing t with
  | nil => rfl
  | cons i is ih =>
    rw [List.foldl_cons, ih, hcount, List.length_cons]
    omega

/-- A run that goes on after some samples has left some of its budget. -/
theorem Config.Settles.count_lt {c : Config α} {monitor : Monitor α} {before rs : List (Report α)}
    (h : c.Settles monitor before (standings add standing t is) rs none) (hne : is ≠ []) :
    (standing (is.foldl add t)).count < c.maxSamples := by
  induction is generalizing t before rs with
  | nil => exact absurd rfl hne
  | cons i is ih =>
    cases is with
    | nil =>
      cases h with
      | goes hr hv hrest => exact lt_of_verdict hv
    | cons i' is =>
      cases h with
      | goes hr hv hrest => exact ih hrest (by simp)

/-- Samples that are tallied one after the other and reported on by the rule, between earlier
reports and later ones. -/
structure Config.Course (c : Config α) (monitor : Monitor α) (add : τ → ι → τ)
    (standing : τ → Standing α) (t t' : τ) (ended : Option Status) (before after : List (Report α))
    (is : List ι) (rs : List (Report α)) : Prop where
  tally : t' = is.foldl add t
  settles : c.Settles monitor before (standings add standing t is) rs ended
  reports : after = rs.reverse ++ before

theorem Config.course_nil (c : Config α) (monitor : Monitor α) (before : List (Report α)) :
    c.Course monitor add standing t t none before before [] [] := ⟨rfl, .nil, rfl⟩

/-- One sample, the report on it and the verdict. -/
theorem Config.course_singleton (c : Config α) (monitor : Monitor α) (before : List (Report α))
    (i : ι) {r : Report α} (hr : c.Reports monitor before (standing (add t i)) r) :
    c.Course monitor add standing t (add t i) (c.verdictAt r.answer (standing (add t i))) before
      (r :: before) [i] [r] := by
  refine ⟨rfl, ?_, rfl⟩
  cases h : c.verdictAt r.answer (standing (add t i)) with
  | none => exact .goes hr h .nil
  | some status => exact .ends hr h

/-- A run that goes on is followed by the rest of it. -/
theorem Config.Course.append {c : Config α} {monitor : Monitor α} {t t₁ t' : τ}
    {ended : Option Status} {before between after : List (Report α)} {is is' : List ι}
    {rs rs' : List (Report α)}
    (h : c.Course monitor add standing t t₁ none before between is rs)
    (h' : c.Course monitor add standing t₁ t' ended between after is' rs') :
    c.Course monitor add standing t t' ended before after (is ++ is') (rs ++ rs') where
  tally := by rw [h'.tally, h.tally, List.foldl_append]
  settles := by
    have hrest := h'.settles
    rw [h.tally, h.reports] at hrest
    rw [standings_append]
    exact h.settles.append hrest
  reports := by rw [h'.reports, h.reports, List.reverse_append, List.append_assoc]

/-- A run that has tallied some samples between earlier reports and later ones has made a report on
each of them and has stopped by the rule. -/
structure Config.Stops (c : Config α) (monitor : Monitor α) (add : τ → ι → τ)
    (standing : τ → Standing α) (start : τ) (before after : List (Report α)) (samples : List ι)
    (t : τ) (status : Status) : Prop where
  tally : t = samples.foldl add start
  count : (standing t).count = samples.length
  rule : ∃ reports, after = reports.reverse ++ before ∧ reports.length = samples.length ∧
    c.StopsByRule monitor before (fun k => standing ((samples.take k).foldl add start)) reports
      status

/-- A run whose samples count one each stops by the rule. -/
theorem Config.Course.stops {c : Config α} (hc : 0 < c.maxSamples) {monitor : Monitor α}
    {t' : τ} {before after rs : List (Report α)} {status : Status}
    (h : c.Course monitor add standing t t' (some status) before after is rs)
    (hcount : ∀ t i, (standing (add t i)).count = (standing t).count + 1)
    (ht : (standing t).count = 0) :
    c.Stops monitor add standing t before after is t' status := by
  refine ⟨h.tally, by rw [h.tally, count_foldl hcount, ht, Nat.zero_add], rs, h.reports, ?_, ?_⟩
  · rw [h.settles.length_eq, length_standings]
  · refine h.settles.stopsByRule hc (fun k hk => ?_) fun k hk => getElem_standings hk
    rw [length_standings] at hk
    rw [count_foldl hcount, ht, List.length_take]
    omega

end

/-! ## Samples

The engines differ in how they come by their samples and not in what they do with one. Each is
followed in its own way, sample by sample or round by round, and both lead to the same statement:
the vectors that were drawn first are those of the samples that were tallied. -/

namespace Tally

def standing (t : Tally α) : Standing α := ⟨t.count, t.pf, t.covarFailure, t.covarNoFailure⟩

def addSample (t : Tally α) (s : Sample α) : Tally α := t.add s.u s.z s.weight

theorem count_addSample (t : Tally α) (s : Sample α) :
    (t.addSample s).standing.count = t.standing.count + 1 := t.count_add s.u s.z s.weight

end Tally

theorem Evaluated.append {m : Model α} {d : Density α} {vs vs' : List (List α)}
    {samples samples' : List (Sample α)} (h : Evaluated m d vs samples)
    (h' : Evaluated m d vs' samples') : Evaluated m d (vs ++ vs') (samples ++ samples') := by
  induction h with
  | nil => exact h'
  | cons hs hz hrest ih => exact .cons hs hz ih

/-- The course of the samples of a run. -/
abbrev Config.SampleCourse (c : Config α) (m : Model α) (t t' : Tally α) (ended : Option Status)
    (before after : List (Report α)) (samples : List (Sample α)) (rs : List (Report α)) : Prop :=
  c.Course m.monitor Tally.addSample Tally.standing t t' ended before after samples rs

/-- One sample that is tallied and judged. -/
theorem Config.course_judged (c : Config α) (m : Model α) (t : Tally α) (j : Journal α)
    (s : Sample α) :
    ∃ rs, c.SampleCourse m t (t.addSample s) (c.judged m j (t.addSample s)) j.reports
      (c.noted m j (t.addSample s)).reports [s] rs :=
  ⟨_, c.course_singleton m.monitor j.reports s
    (r := ⟨c.reportOn (t.addSample s), m.answer j (c.reportOn (t.addSample s)), j.evaluations⟩)
    ⟨rfl, rfl⟩⟩

/-- Tallied samples, and the vectors that they took. -/
theorem course_of_exec_consume {m : Model α} {c : Config α} {d : Density α} {t t' : Tally α}
    {ended : Option Status} {p p' : Supply σ α} {j j' : Journal α} {samples : List (Sample α)}
    (hsamples : Evaluated m d p.pending samples)
    (h : RunWith.exec (consume m c samples t) p j = (.ok (t', ended), p', j')) :
    ∃ vs used rs, p.pending = vs ++ p'.pending ∧ Evaluated m d vs used ∧
      c.SampleCourse m t t' ended j.reports j'.reports used rs := by
  generalize hvs : p.pending = vs at hsamples
  induction hsamples generalizing t p j with
  | nil =>
    cases h
    exact ⟨[], [], [], hvs.symm, .nil, c.course_nil ..⟩
  | @cons v s vs samples hs hz _ ih =>
    have hdrop : p.pending.drop 1 = vs := by rw [hvs]; rfl
    obtain ⟨r, hone⟩ := c.course_judged m t j s
    rw [exec_consume_cons] at h
    dsimp only at h
    rw [show t.add s.u s.z s.weight = t.addSample s from rfl] at h
    cases hj : c.judged m j (t.addSample s) with
    | none =>
      rw [hj] at h hone
      obtain ⟨vs', used, rs, hpending, hevaluated, hrest⟩ := ih h hdrop
      exact ⟨v :: vs', s :: used, _, by rw [hpending]; rfl, .cons hs hz hevaluated,
        hone.append hrest⟩
    | some status =>
      rw [hj] at h hone
      cases h
      exact ⟨[v], [s], _, by rw [hdrop]; rfl, .cons hs hz .nil, hone⟩

variable [RandomSource σ α]

/-- The sequential engine from one sample to its end. -/
theorem course_of_exec_single {m : Model α} {c : Config α} {d : Density α} {fuel : Nat}
    {t t' : Tally α} {status : Status} {s s' : Supply σ α} {j j' : Journal α}
    (hready : Ready c t.count fuel)
    (h : RunWith.exec (single m c d fuel t) s j = (.ok (t', status), s', j')) :
    ∃ vs samples rs, RandomSource.Yields m.dimension s.source vs s'.source ∧
      Evaluated m d vs samples ∧
      c.SampleCourse m t t' (some status) j.reports j'.reports samples rs := by
  induction fuel generalizing t s j with
  | zero => exact absurd hready.positive (by omega)
  | succ fuel ih =>
    obtain ⟨z, hz⟩ := value_of_exec_single h
    rw [exec_single_succ rfl hz] at h
    dsimp only at h
    generalize heps : (RandomSource.normals m.dimension s.source : List α × σ) = eps at h hz
    have hsample : d.sample eps.1 = ((d.sample eps.1).1, (d.sample eps.1).2) := rfl
    obtain ⟨r, hone⟩ :=
      c.course_judged m t (j.spend 1) ⟨(d.sample eps.1).1, (d.sample eps.1).2, z⟩
    have hadd : t.add (d.sample eps.1).1 z (d.sample eps.1).2 =
      t.addSample ⟨(d.sample eps.1).1, (d.sample eps.1).2, z⟩ := rfl
    rw [hadd] at h
    -- The sample is the first of those to come, and the rest of them is empty if it ends the run.
    cases hj : c.judged m (j.spend 1)
        (t.addSample ⟨(d.sample eps.1).1, (d.sample eps.1).2, z⟩) with
    | none =>
      rw [hj] at h hone
      have hcount : (t.addSample ⟨(d.sample eps.1).1, (d.sample eps.1).2, z⟩).count =
        t.count + 1 := Tally.count_add ..
      obtain ⟨vs, samples, rs, hstream, hevaluated, hrest⟩ :=
        ih (hready.next (by omega) (Config.lt_of_judged hj)) h
      refine ⟨_, _, _, RandomSource.yields_cons.mpr ⟨by rw [heps], ?_⟩,
        .cons hsample hz hevaluated, hone.append hrest⟩
      rw [heps]
      exact hstream
    | some status' =>
      rw [hj] at h hone
      cases h
      refine ⟨_, _, _, RandomSource.yields_cons.mpr ⟨by rw [heps], ?_⟩, .cons hsample hz .nil, hone⟩
      rw [heps]
      exact RandomSource.yields_nil.mpr rfl

/-- The buffered engine from one round to its end. What it has drawn ahead comes after its
samples. -/
theorem course_of_exec_rounds {m : Model α} {c : Config α} {d : Density α} {fuel : Nat}
    {t t' : Tally α} {status : Status} {q : σ} {p p' : Supply σ α} {j j' : Journal α}
    (hready : Ready c t.count fuel) (hq : RandomSource.Yields m.dimension q p.pending p.source)
    (h : RunWith.exec (rounds m c d fuel t) p j = (.ok (t', status), p', j')) :
    ∃ q' vs samples rs, RandomSource.Yields m.dimension q vs q' ∧ Evaluated m d vs samples ∧
      c.SampleCourse m t t' (some status) j.reports j'.reports samples rs := by
  induction fuel generalizing t q p j with
  | zero => exact absurd hready.positive (by omega)
  | succ fuel ih =>
    obtain ⟨samples, t₁, ended, p₁, j₁, hsamples, hconsume, hrest⟩ := exec_rounds_succ_eq_ok h
    obtain ⟨vs, used, rs, hpending, hevaluated, hcourse⟩ := course_of_exec_consume hsamples hconsume
    rw [Journal.reports_spend] at hcourse
    have hyields := yields_refilled (c := c) (t := t) rfl hq
    rw [hpending] at hyields
    obtain ⟨q₁, hq₁, hahead⟩ := RandomSource.yields_append.mp hyields
    cases ended with
    | some st =>
      obtain ⟨rfl, rfl, rfl, rfl⟩ := hrest
      exact ⟨q₁, vs, used, rs, hq₁, hevaluated, hcourse⟩
    | none =>
      -- A round that goes on has left nothing pending, so that the next one begins at the source.
      obtain ⟨_, hused⟩ := consumed_of_exec hsamples hconsume
      have hnil := (hused.goes_on rfl).1
      obtain ⟨hless, hgoing⟩ := hused.progress (pending_refilled_ne_nil m c t p)
      rw [hnil] at hahead
      rw [RandomSource.yields_nil.mp hahead, ← hused.source] at hq₁
      obtain ⟨q₂, vs', samples', rs', hstream, hevaluated', hlast⟩ :=
        ih (hready.next hless hgoing) (RandomSource.yields_of_eq_nil hnil) hrest
      exact ⟨q₂, _, _, _, hq₁.append hstream, hevaluated.append hevaluated', hcourse.append hlast⟩

/-- An engine that has answered on a fresh supply has tallied the first vectors of the stream and
stopped by the rule. -/
theorem stops_of_exec {m : Model α} {c : Config α} (hc : c.validate = .ok ()) {d : Density α}
    {source : σ} {circular : Bool} {o : Outcome α} {s' : Supply σ α} {j j' : Journal α}
    (h : RunWith.exec (sequential m c d) (.fresh source circular) j = (.ok o, s', j') ∨
      RunWith.exec (buffered m c d) (.fresh source circular) j = (.ok o, s', j')) :
    ∃ source' vs samples, RandomSource.Yields m.dimension source vs source' ∧
      Evaluated m d vs samples ∧
      c.Stops m.monitor Tally.addSample Tally.standing .empty j.reports j'.reports samples o.tally
        o.status := by
  have hpos := Config.maxSamples_pos hc
  rcases h with h | h
  · obtain ⟨vs, samples, rs, hstream, hevaluated, hcourse⟩ :=
      course_of_exec_single (ready_fuel c) (exec_counted_eq_ok.mp h).1
    exact ⟨s'.source, vs, samples, hstream, hevaluated,
      hcourse.stops hpos Tally.count_addSample rfl⟩
  · obtain ⟨source', vs, samples, rs, hstream, hevaluated, hcourse⟩ :=
      course_of_exec_rounds (ready_fuel c) (RandomSource.yields_nil.mpr rfl)
        (exec_counted_eq_ok.mp h).1
    exact ⟨source', vs, samples, hstream, hevaluated,
      hcourse.stops hpos Tally.count_addSample rfl⟩

end FailureProbability.Sampling
