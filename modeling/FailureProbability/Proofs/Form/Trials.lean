import FailureProbability.Proofs.Estimator.Tree
import FailureProbability.Proofs.Form.Course

/-!
# The trials of a search

A search for the design point is a sequence of trials from one start, each with half the relaxation
of the one before. All of them but the last have not converged, and the last one gives the estimate;
only the counts are those of all trials together (`Tries`). As every point of a trial takes one
gradient, the evaluations are a multiple of the steps, whichever ways the trials have ended.

Trials are numbered from zero, and what they answered is kept as a function of the number; of later
numbers nothing is said. A trial that was stopped is the last one, too, although trials are left.

The evaluations are those of the trials. What it took to find a start is added to them where a
search finds its own, before any trial has begun.
-/

namespace FailureProbability.Form

open Finset

variable {α : Type} [Scalar α]

/-! ## Single trials -/

/-- A trial that has answered tells the ending of its course and counts its points. -/
theorem course_of_exec_trial {m : Model α} {c : Config α} {start : List α} {relaxation : α}
    {e : Estimate α} {j j' : Journal α} (h : (trial m c start relaxation).exec j = (.ok e, j')) :
    ∃ us b x, Course m c relaxation c.maxIterations 0 ⟨start, [], none⟩ j us b j' ∧
      m.x b.u = .ok x ∧ e = ⟨b.status, b.direction, x, b.u, name, us.length,
        (2 * m.dimension + 1) * us.length⟩ := by
  obtain ⟨us, b, hcourse⟩ := course_of_exec_iterate h
  have hanswer := congrArg Prod.fst (h.symm.trans (exec_iterate_of_course hcourse 0))
  obtain ⟨x, hx, he⟩ := bind_eq_ok.mp hanswer.symm
  rw [Nat.zero_add, Nat.zero_add] at he
  exact ⟨us, b, x, hcourse, hx, (Except.ok.inj he).symm⟩

/-! ## Sequences of trials -/

/-- The relaxation of a trial, by the number of trials before it. -/
def halved (relaxation : α) (t : ℕ) : α := (· * 0.5)^[t] relaxation

/-- After `n` trials that have not converged comes the last one. Trial `t` takes the journal from
`js t` to `js (t + 1)` and answers `es t`. -/
structure Tries (m : Model α) (c : Config α) (start : List α) (relaxation : α) (n : ℕ)
    (es : ℕ → Estimate α) (js : ℕ → Journal α) : Prop where
  ran : ∀ t ≤ n, (trial m c start (halved relaxation t)).exec (js t) = (.ok (es t), js (t + 1))
  retried : ∀ t < n, (es t).status = .noConvergence

/-- The estimate of a sequence of trials, after so many steps and evaluations of earlier ones. -/
def lastOf (n : ℕ) (es : ℕ → Estimate α) (steps evaluations : ℕ) : Estimate α :=
  { es n with
    steps := steps + ∑ t ∈ range (n + 1), (es t).steps
    evaluations := evaluations + ∑ t ∈ range (n + 1), (es t).evaluations }

/-- A sequence with one more at its beginning. -/
def prepend {β : Type} (b : β) (bs : ℕ → β) : ℕ → β
  | 0 => b
  | t + 1 => bs t

section

variable {m : Model α} {c : Config α} {start : List α} {relaxation : α} {n : ℕ}
  {es : ℕ → Estimate α} {js : ℕ → Journal α} {e₀ : Estimate α} {j : Journal α}

/-- A single trial is a sequence of one. -/
theorem tries_single (h : (trial m c start relaxation).exec j = (.ok e₀, js 0)) :
    Tries m c start relaxation 0 (prepend e₀ es) (prepend j js) := by
  refine ⟨fun t ht => ?_, fun t ht => absurd ht (Nat.not_lt_zero t)⟩
  obtain rfl := Nat.le_zero.mp ht
  exact h

/-- A trial that has not converged, and those after it. -/
theorem Tries.prepend (h : Tries m c start (relaxation * 0.5) n es js)
    (hfirst : (trial m c start relaxation).exec j = (.ok e₀, js 0))
    (hretried : e₀.status = .noConvergence) :
    Tries m c start relaxation (n + 1) (prepend e₀ es) (prepend j js) := by
  constructor
  · intro t ht
    cases t with
    | zero => exact hfirst
    | succ t => exact h.ran t (Nat.le_of_succ_le_succ ht)
  · intro t ht
    cases t with
    | zero => exact hretried
    | succ t => exact h.retried t (Nat.lt_of_succ_lt_succ ht)

omit [Scalar α] in
theorem lastOf_single (steps evaluations : ℕ) :
    lastOf 0 (prepend e₀ es) steps evaluations =
      { e₀ with steps := steps + e₀.steps, evaluations := evaluations + e₀.evaluations } := by
  unfold lastOf
  rw [Nat.zero_add, sum_range_one, sum_range_one]
  rfl

omit [Scalar α] in
/-- What the first trial counted is carried along to the last one. -/
theorem lastOf_prepend (steps evaluations : ℕ) :
    lastOf (n + 1) (prepend e₀ es) steps evaluations =
      lastOf n es (steps + e₀.steps) (evaluations + e₀.evaluations) := by
  unfold lastOf
  rw [sum_range_succ' _ (n + 1), sum_range_succ' _ (n + 1), Nat.add_assoc, Nat.add_assoc,
    Nat.add_comm e₀.steps, Nat.add_comm e₀.evaluations]
  rfl

end

/-- Trials that have answered are such a sequence, which has gone on for as long as none
converged. -/
theorem tries_of_exec_trials {m : Model α} {c : Config α} {start : List α} {left steps evaluations : ℕ}
    {relaxation : α} {e : Estimate α} {j j' : Journal α}
    (h : (trials m c start left steps evaluations relaxation).exec j = (.ok e, j')) :
    ∃ n ≤ left, ∃ es js, js 0 = j ∧ js (n + 1) = j' ∧ Tries m c start relaxation n es js ∧
      e = lastOf n es steps evaluations ∧ (e.status = .noConvergence → n = left) := by
  induction left generalizing steps evaluations relaxation j with
  | zero =>
    obtain ⟨e₀, j₁, hfirst, h⟩ := Run.exec_bind_eq_ok.mp h
    cases h
    exact ⟨0, le_rfl, prepend e₀ fun _ => e₀, prepend j fun _ => j', rfl, rfl, tries_single hfirst,
      (lastOf_single steps evaluations).symm, fun _ => rfl⟩
  | succ left ih =>
    obtain ⟨e₀, j₁, hfirst, h⟩ := Run.exec_bind_eq_ok.mp h
    dsimp only at h
    by_cases hretried : e₀.status = .noConvergence
    · rw [if_neg (not_not.mpr hretried)] at h
      obtain ⟨n, hn, es, js, rfl, hend, htries, rfl, hall⟩ := ih h
      exact ⟨n + 1, Nat.succ_le_succ hn, prepend e₀ es, prepend j js, rfl, hend,
        htries.prepend hfirst hretried, (lastOf_prepend steps evaluations).symm,
        fun hstatus => congrArg Nat.succ (hall hstatus)⟩
    · rw [if_pos hretried] at h
      cases h
      exact ⟨0, Nat.zero_le _, prepend e₀ fun _ => e₀, prepend j fun _ => j', rfl, rfl,
        tries_single hfirst, (lastOf_single steps evaluations).symm,
        fun hstatus => absurd hstatus hretried⟩

/-- A search that has answered from a start of the model. -/
theorem tries_of_exec {m : Model α} {c : Config α} {start : List α} {e : Estimate α}
    {j j' : Journal α} (h : (estimateFrom c start m).exec j = (.ok e, j')) :
    start.length = m.dimension ∧
      ∃ n ≤ c.trialLoops - 1, ∃ es js, js 0 = j ∧ js (n + 1) = j' ∧
        Tries m c start c.relaxation n es js ∧ e = lastOf n es 0 0 ∧
        (e.status = .noConvergence → n = c.trialLoops - 1) := by
  unfold estimateFrom at h
  by_cases hstart : start.length ≠ m.dimension
  · rw [if_pos hstart] at h
    cases h
  · rw [if_neg hstart] at h
    exact ⟨not_not.mp hstart, tries_of_exec_trials h⟩

/-- A trial that has not failed to converge is the last one. -/
theorem exec_trials_of_ended {m : Model α} {c : Config α} {start : List α} {relaxation : α}
    {e : Estimate α} {j j' : Journal α} (h : (trial m c start relaxation).exec j = (.ok e, j'))
    (hstatus : e.status ≠ .noConvergence) (left steps evaluations : ℕ) :
    (trials m c start left steps evaluations relaxation).exec j =
      (.ok { e with steps := steps + e.steps, evaluations := evaluations + e.evaluations }, j') := by
  cases left with
  | zero =>
    rw [trials, Run.exec_bind_ok h]
    rfl
  | succ left =>
    rw [trials, Run.exec_bind_ok h]
    exact congrArg (Run.exec · j') (if_pos hstatus)

/-! ## The work of all trials -/

/-- The points of the trials, one list for each of them. -/
def Visits (m : Model α) (c : Config α) (start : List α) (relaxation : α) (n : ℕ)
    (js : ℕ → Journal α) (us : ℕ → List (List α)) : Prop :=
  ∀ t ≤ n, ∃ b, Course m c (halved relaxation t) c.maxIterations 0 ⟨start, [], none⟩ (js t) (us t) b
    (js (t + 1))

section

variable {m : Model α} {c : Config α} {start : List α} {relaxation : α} {n : ℕ}
  {es : ℕ → Estimate α} {js : ℕ → Journal α}

/-- Each trial has its points, and counts them. -/
theorem Tries.exists_visits (h : Tries m c start relaxation n es js) :
    ∃ us, Visits m c start relaxation n js us ∧ ∀ t ≤ n, (es t).steps = (us t).length ∧
      (es t).evaluations = (2 * m.dimension + 1) * (us t).length := by
  choose! us b x hcourse _ hes using fun t (ht : t ≤ n) => course_of_exec_trial (h.ran t ht)
  refine ⟨us, fun t ht => ⟨b t ht, hcourse t ht⟩, fun t ht => ?_⟩
  rw [hes t ht]
  exact ⟨rfl, rfl⟩

/-- No trial visits more points than it may. -/
theorem Visits.length_le {us : ℕ → List (List α)} (h : Visits m c start relaxation n js us)
    {trialLoops : ℕ} (hn : n + 1 ≤ trialLoops) :
    ∑ t ∈ range (n + 1), (us t).length ≤ trialLoops * c.maxIterations := by
  have hpoints : ∀ t ∈ range (n + 1), (us t).length ≤ c.maxIterations := fun t ht => by
    obtain ⟨b, hcourse⟩ := h t (Nat.le_of_lt_succ (mem_range.mp ht))
    exact hcourse.length_le
  calc ∑ t ∈ range (n + 1), (us t).length
      ≤ (range (n + 1)).card • c.maxIterations := sum_le_card_nsmul _ _ _ hpoints
    _ = (n + 1) * c.maxIterations := by rw [card_range, smul_eq_mul]
    _ ≤ trialLoops * c.maxIterations := Nat.mul_le_mul_right _ hn

/-- The counter of a journal grows by what the points of all trials take. -/
theorem Visits.evaluations_eq {us : ℕ → List (List α)} (h : Visits m c start relaxation n js us) :
    (js (n + 1)).evaluations =
      (js 0).evaluations + (2 * m.dimension + 1) * ∑ t ∈ range (n + 1), (us t).length := by
  have hprefix : ∀ k ≤ n + 1, (js k).evaluations =
      (js 0).evaluations + (2 * m.dimension + 1) * ∑ t ∈ range k, (us t).length := by
    intro k
    induction k with
    | zero => exact fun _ => rfl
    | succ k ih =>
      intro hk
      obtain ⟨b, hcourse⟩ := h k (Nat.le_of_succ_le_succ hk)
      rw [hcourse.evaluations_eq, ih (Nat.le_of_succ_le hk), sum_range_succ]
      ring
  exact hprefix (n + 1) le_rfl

end

/-- **Trials.** An estimate is that of its last trial. All trials begin at the same start, the
relaxation being halved from one to the next, and all but the last have not converged; there are no
more than allowed, and all of these if the last one has not converged, either. The steps are the
points of all trials, and each of them has taken the evaluations of one gradient. -/
theorem estimate_is_of_last_trial {c : Config α} (hc : c.validate = .ok ()) {m : Model α}
    {start : List α} {e : Estimate α} {j j' : Journal α}
    (h : (estimateFrom c start m).exec j = (.ok e, j')) :
    ∃ n es js us, n < c.trialLoops ∧ js 0 = j ∧ js (n + 1) = j' ∧
      Tries m c start c.relaxation n es js ∧ Visits m c start c.relaxation n js us ∧
      e.status = (es n).status ∧ e.direction = (es n).direction ∧ e.u = (es n).u ∧
      e.x = (es n).x ∧ (e.status = .noConvergence → n + 1 = c.trialLoops) ∧
      e.steps = ∑ t ∈ range (n + 1), (us t).length ∧
      e.steps ≤ c.trialLoops * c.maxIterations ∧
      e.evaluations = (2 * m.dimension + 1) * e.steps ∧
      j'.evaluations = j.evaluations + e.evaluations := by
  have htrials : c.trialLoops ≠ 0 := (Config.validate_iff.mp hc).2.2.2
  obtain ⟨-, n, hn, es, js, rfl, rfl, htries, rfl, hall⟩ := tries_of_exec h
  obtain ⟨us, hvisits, hcounts⟩ := htries.exists_visits
  have hsteps : (lastOf n es 0 0).steps = ∑ t ∈ range (n + 1), (us t).length := by
    refine (Nat.zero_add _).trans (sum_congr rfl fun t ht => ?_)
    exact (hcounts t (Nat.le_of_lt_succ (mem_range.mp ht))).1
  have hevaluations : (lastOf n es 0 0).evaluations =
      (2 * m.dimension + 1) * ∑ t ∈ range (n + 1), (us t).length := by
    rw [mul_sum]
    refine (Nat.zero_add _).trans (sum_congr rfl fun t ht => ?_)
    exact (hcounts t (Nat.le_of_lt_succ (mem_range.mp ht))).2
  refine ⟨n, es, js, us, by omega, rfl, rfl, htries, hvisits, rfl, rfl, rfl, rfl, ?_, hsteps,
    hsteps.trans_le (hvisits.length_le (by omega)), hevaluations.trans (by rw [hsteps]), ?_⟩
  · intro hstatus
    have hlast := hall hstatus
    omega
  · rw [hevaluations]
    exact hvisits.evaluations_eq

/-- Three trials of two points each. -/
def shortTrials : Config Float := ⟨2, 0.5, 0.01, 0.01, 0.3, 3, .zero⟩

/-- Two points with half a step between them are too few to converge, and fewer steps do not
help. -/
theorem estimate_is_of_last_trial_unconverged : shortTrials.validate = .ok () ∧ ∃ e j',
    (estimateFrom shortTrials [0] Estimator.Tree.belowMinusOne).exec .empty = (.ok e, j') ∧
      e.status = .noConvergence ∧ e.steps = 6 ∧ e.evaluations = 18 ∧
      ∃ n es js, n + 1 = 3 ∧
        Tries Estimator.Tree.belowMinusOne shortTrials [0] shortTrials.relaxation n es js ∧
        e.u = (es n).u ∧ j'.evaluations = 18 := by
  have hvalid : shortTrials.validate = .ok () := rfl
  have hrun : (((estimateFrom shortTrials [0] Estimator.Tree.belowMinusOne).exec
      .empty).1.toOption.map fun e => (e.status, e.steps, e.evaluations)) =
      some (.noConvergence, 6, 18) := by decide +kernel
  rcases h : (estimateFrom shortTrials [0] Estimator.Tree.belowMinusOne).exec .empty with
    ⟨err | e, j'⟩
  · rw [h] at hrun
    cases hrun
  · rw [h] at hrun
    have htriple : (e.status, e.steps, e.evaluations) = (.noConvergence, 6, 18) :=
      Option.some.inj hrun
    obtain ⟨hstatus, hcounts⟩ := Prod.mk.inj htriple
    obtain ⟨hsteps, hevaluations⟩ := Prod.mk.inj hcounts
    obtain ⟨n, es, js, us, -, -, -, htries, -, -, -, hu, -, hall, -, -, -, hjournal⟩ :=
      estimate_is_of_last_trial hvalid h
    refine ⟨hvalid, e, j', rfl, hstatus, hsteps, hevaluations, n, es, js, hall hstatus, htries, hu, ?_⟩
    rw [hjournal, hevaluations]
    rfl

end FailureProbability.Form
