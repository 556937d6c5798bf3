import FailureProbability.Estimator.Chain
import FailureProbability.Proofs.Directional
import FailureProbability.Proofs.Grid
import FailureProbability.Scalar.Double

/-!
# Trees of estimators

Chains may be nested, so that an estimator is a tree with single methods at its leaves (`Tree`). A
run of a tree makes some of its leaves run, one after the other; `Tree.logged` is the same run with
these runs written down. The estimate of a tree accounts for all of them: its method joins their
names, and its steps and evaluations are the sums of theirs, as far as a count of 64 binary digits
goes (`CountsTo`).

Leaves are the methods of this library with settings that were accepted (`Estimator.IsSingle`). An
estimator is a record of functions otherwise, and a record made by hand could tell any number of
evaluations. The monitor must have no memory: one that remembers the first run may stop the second
one elsewhere, and then the two need not agree.

Work that is lost is not part of an estimate. A run that fails has spent evaluations as well, but it
gives no estimate that could tell of them.
-/

namespace FailureProbability

variable {α : Type}

/-! ## Counts -/

/-- A count of 64 binary digits stands for a number: it is the number, if that fits, and otherwise
its last digits. -/
def CountsTo (count n : Nat) : Prop :=
  count % Nat.pow 2 64 = n % Nat.pow 2 64 ∧ (n < Nat.pow 2 64 → count = n)

/-- A count stands for itself, whatever its size. -/
theorem countsTo_self (n : Nat) : CountsTo n n := ⟨rfl, fun _ => rfl⟩

/-- The sum of two counts stands for the sum of their numbers. -/
theorem CountsTo.add {a b k n : Nat} (ha : CountsTo a k) (hb : CountsTo b n) :
    CountsTo (Estimate.addCounts a b) (k + n) := by
  constructor
  · rw [Estimate.addCounts, Nat.mod_mod, Nat.add_mod, ha.1, hb.1, ← Nat.add_mod]
  · intro h
    rw [ha.2 (by omega), hb.2 (by omega)]
    exact Estimate.addCounts_of_lt h

variable [Scalar α]

namespace Estimator

/-- The estimate from nothing, or from an earlier estimate. -/
def estimateFrom (e : Estimator α) : Option (Estimate α) → Model α → Run α (Estimate α)
  | none => e.estimate
  | some earlier => e.estimateAfter earlier

omit [Scalar α] in
theorem estimateFrom_none (e : Estimator α) (m : Model α) :
    e.estimateFrom none m = e.estimate m := rfl

omit [Scalar α] in
theorem estimateFrom_some (e : Estimator α) (earlier : Estimate α) (m : Model α) :
    e.estimateFrom (some earlier) m = e.estimateAfter earlier m := rfl

omit [Scalar α] in
theorem estimateFrom_unseeded (name : String) (estimate : Model α → Run α (Estimate α))
    (seed : Option (Estimate α)) (m : Model α) :
    (unseeded name estimate).estimateFrom seed m = estimate m := by
  cases seed <;> rfl

/-! ## Single methods -/

/-- A method of this library, with settings that passed their check. -/
inductive IsSingle : Estimator α → Prop
  | form {c : Form.Config α} {e : Estimator α} (h : Form.estimator c = .ok e) : IsSingle e
  | directional {c : Directional.Config α} {e : Estimator α}
      (h : Directional.estimator c = .ok e) : IsSingle e
  | crude {c : Sampling.Config α} {e : Estimator α} (h : Sampling.Crude.estimator c = .ok e) :
      IsSingle e
  | importance {c : Sampling.Importance.Config α} {e : Estimator α}
      (h : Sampling.Importance.estimator c = .ok e) : IsSingle e
  | adaptive {c : Sampling.Adaptive.Config α} {e : Estimator α}
      (h : Sampling.Adaptive.estimator c = .ok e) : IsSingle e
  | grid {c : Grid.Config α} {e : Estimator α} (h : Grid.estimator c = .ok e) : IsSingle e

omit [Scalar α] in
theorem eq_of_checked {check : Except (Error α) Unit} {e e' : Estimator α}
    (h : (do check; return e) = Except.ok e') : e' = e := by
  cases check with
  | error err => cases h
  | ok _ =>
    cases h
    rfl

/-- A single method gives its own name to an estimate, and tells the evaluations that it took. -/
theorem IsSingle.meets_estimateFrom {e : Estimator α} (h : e.IsSingle) {m : Model α}
    (hm : m.monitor.IsStateless) (seed : Option (Estimate α)) :
    Runs.Meets True (e.estimateFrom seed m) (Estimate.Accounts e.name) := by
  cases h with
  | @form c _ h =>
    rw [eq_of_checked h]
    cases seed with
    | none => exact Form.meets_estimate hm c
    | some earlier => exact Form.meets_estimateAfter hm c earlier
  | @directional c _ h =>
    rw [eq_of_checked h]
    cases seed <;> exact Directional.meets_estimate hm c
  | @crude c _ h =>
    rw [eq_of_checked h]
    cases seed <;> exact Sampling.Crude.meets_estimate hm c
  | @importance c _ h =>
    rw [eq_of_checked h]
    cases seed with
    | none => exact Sampling.Importance.meets_estimate hm c
    | some earlier => exact Sampling.Importance.meets_estimateAfter hm c earlier
  | @adaptive c _ h =>
    rw [eq_of_checked h]
    cases seed <;> exact Sampling.Adaptive.meets_estimate hm c
  | @grid c _ h =>
    rw [eq_of_checked h]
    cases seed <;> exact Grid.meets_estimate hm c

/-! ## Trees -/

/-- Single methods, and chains of chains of them. -/
inductive Tree (α : Type) [Scalar α] where
  | single (e : Estimator α) (h : e.IsSingle)
  | fallback (name : String) (first second : Tree α) (envelope : Envelope α)
  | refine (name : String) (first second : Tree α)

/-- The run of a leaf: the name of the method and what it found. -/
structure Stage (α : Type) where
  name : String
  estimate : Estimate α

def stepsOf : List (Stage α) → Nat
  | [] => 0
  | s :: log => s.estimate.steps + stepsOf log

omit [Scalar α] in
theorem stepsOf_append (log log' : List (Stage α)) :
    stepsOf (log ++ log') = stepsOf log + stepsOf log' := by
  induction log with
  | nil => simp [stepsOf]
  | cons s log ih => rw [List.cons_append, stepsOf, stepsOf, ih, Nat.add_assoc]

namespace Tree

/-- The estimator that a tree stands for. -/
def estimator : Tree α → Estimator α
  | single e _ => e
  | fallback name first second envelope =>
    Estimator.fallback name first.estimator second.estimator envelope
  | refine name first second => Estimator.refine name first.estimator second.estimator

/-- The run of a tree together with the runs of its single methods, in their order. -/
def logged (m : Model α) :
    Tree α → Option (Estimate α) → Run α (Estimate α × List (Stage α))
  | single e _, seed => do
    let a ← e.estimateFrom seed m
    return (a, [⟨e.name, a⟩])
  | fallback _ first second envelope, _ => do
    let (a, before) ← logged m first none
    if a.status = .abortedByUser then return (a, before)
    else if envelope.accepts a then return (a, before)
    else
      let (b, after) ← logged m second (some a)
      return (b.afterStage a, before ++ after)
  | refine _ first second, _ => do
    let (a, before) ← logged m first none
    if a.status = .abortedByUser then return (a, before)
    else
      let (b, after) ← logged m second (some a)
      if b.status = .abortedByUser then return (b.afterStage a, before ++ after)
      else
        let e ← mergeDirection m a b
        return (e, before ++ after)

/-- The log changes nothing. -/
theorem estimateFrom_estimator (t : Tree α) (seed : Option (Estimate α)) (m : Model α) :
    t.estimator.estimateFrom seed m = do
      let b ← t.logged m seed
      return b.1 := by
  induction t generalizing seed with
  | single e h => simp only [logged, estimator, bind_assoc, pure_bind, bind_pure]
  | fallback name first second envelope ihf ihs =>
    rw [estimator, Estimator.fallback, estimateFrom_unseeded]
    simp only [logged, ← estimateFrom_none, ← estimateFrom_some, ihf, ihs, bind_assoc, pure_bind]
    congr 1
    funext b
    split
    · rw [pure_bind]
    · split
      · rw [pure_bind]
      · simp only [bind_assoc, pure_bind]
  | refine name first second ihf ihs =>
    rw [estimator, Estimator.refine, estimateFrom_unseeded]
    simp only [logged, ← estimateFrom_none, ← estimateFrom_some, ihf, ihs, bind_assoc, pure_bind]
    congr 1
    funext b
    split
    · rw [pure_bind]
    · simp only [bind_assoc]
      congr 1
      funext b'
      split
      · rw [pure_bind]
      · simp only [bind_assoc, pure_bind, bind_pure]

/-! ## Accounts -/

/-- An estimate accounts for the runs of a log and for the evaluations that they took. -/
structure Accounts (e : Estimate α) (log : List (Stage α)) (k : Nat) : Prop where
  ran : log ≠ []
  method : e.method = "+".intercalate (log.map (·.name))
  steps : CountsTo e.steps (stepsOf log)
  evaluations : CountsTo e.evaluations k

omit [Scalar α] in
/-- What is in the first log and what is in the second is in both together. -/
theorem Accounts.join {a b e : Estimate α} {before after : List (Stage α)} {k n : Nat}
    (ha : Accounts a before k) (hb : Accounts b after n)
    (hmethod : e.method = a.method ++ "+" ++ b.method)
    (hsteps : e.steps = Estimate.addCounts a.steps b.steps)
    (hevaluations : e.evaluations = Estimate.addCounts a.evaluations b.evaluations) :
    Accounts e (before ++ after) (k + n) := by
  refine ⟨by simp [ha.ran], ?_, ?_, ?_⟩
  · rw [hmethod, ha.method, hb.method, List.map_append,
      String.intercalate_append_of_ne_nil (by simp [ha.ran]) (by simp [hb.ran])]
  · rw [hsteps, stepsOf_append]
    exact ha.steps.add hb.steps
  · rw [hevaluations]
    exact ha.evaluations.add hb.evaluations

omit [Scalar α] in
theorem Accounts.afterStage {a b : Estimate α} {before after : List (Stage α)} {k n : Nat}
    (ha : Accounts a before k) (hb : Accounts b after n) :
    Accounts (b.afterStage a) (before ++ after) (k + n) :=
  ha.join hb rfl (Estimate.addCounts_comm ..) (Estimate.addCounts_comm ..)

/-- A refined direction accounts for both stages, whether it is taken or not. -/
theorem meets_mergeDirection (m : Model α) {a b : Estimate α} {before after : List (Stage α)}
    {k n : Nat} (ha : Accounts a before k) (hb : Accounts b after n) :
    Runs.Meets True (mergeDirection m a b) fun e l => Accounts e (before ++ after) (k + n) ∧ l = 0 := by
  unfold mergeDirection
  refine (Runs.contract (Run α) True).ite (fun _ => ?_) fun _ => ?_
  · refine (Runs.contract (Run α) True).bind_free (Runs.meets_ofExcept (.inr trivial)) fun x _ => ?_
    exact Runs.meets_pure
      ⟨ha.join hb rfl (Estimate.addCounts_comm ..) (Estimate.addCounts_comm ..), rfl⟩
  · exact Runs.meets_pure ⟨ha.join hb rfl rfl rfl, rfl⟩

/-- Every run of a tree does the same from every journal and accounts for its single methods. -/
theorem meets_logged {m : Model α} (hm : m.monitor.IsStateless) (t : Tree α)
    (seed : Option (Estimate α)) :
    Runs.Meets True (t.logged m seed) fun b k => Accounts b.1 b.2 k := by
  let C := Runs.contract (Run α) True
  induction t generalizing seed with
  | single e h =>
    refine C.of_bind (h.meets_estimateFrom hm seed) fun a k ha => ?_
    refine C.of_pure ⟨by simp, ?_, ?_, ?_⟩
    · simpa using ha.1
    · simpa [stepsOf] using countsTo_self a.steps
    · rw [Nat.add_zero, ← ha.2]
      exact countsTo_self _
  | fallback name first second envelope ihf ihs =>
    unfold logged
    refine C.of_bind (ihf none) fun a k ha => ?_
    -- Only the first stage was run if it was stopped or is accepted.
    refine C.ite (fun _ => C.of_pure ha) fun _ => ?_
    refine C.ite (fun _ => C.of_pure ha) fun _ => ?_
    refine C.of_bind (ihs (some a.1)) fun b n hb => ?_
    exact C.of_pure (ha.afterStage hb)
  | refine name first second ihf ihs =>
    unfold logged
    refine C.of_bind (ihf none) fun a k ha => ?_
    refine C.ite (fun _ => C.of_pure ha) fun _ => ?_
    refine C.of_bind (ihs (some a.1)) fun b n hb => ?_
    refine C.ite (fun _ => C.of_pure (ha.afterStage hb)) fun _ => ?_
    refine C.of_bind (meets_mergeDirection m ha hb) fun e l he => ?_
    obtain ⟨he, rfl⟩ := he
    exact C.of_pure he

/-- The work of a tree is conserved. The estimate counts the evaluations by which the counter of
the model has grown, and the steps of the single methods that were run, whose names its method
joins in their order. It does not depend on what the journal held before: a second run gives the
same estimate. -/
theorem work_is_conserved {m : Model α} (hm : m.monitor.IsStateless) (t : Tree α)
    (seed : Option (Estimate α)) {j j' : Journal α} {e : Estimate α}
    (h : (t.estimator.estimateFrom seed m).exec j = (.ok e, j')) :
    (∃ log, (t.logged m seed).exec j = (.ok (e, log), j') ∧ log ≠ [] ∧
      e.method = "+".intercalate (log.map (·.name)) ∧
      CountsTo e.steps (stepsOf log)) ∧
    j.evaluations ≤ j'.evaluations ∧
    CountsTo e.evaluations (j'.evaluations - j.evaluations) ∧
    ∀ i : Journal α, ((t.estimator.estimateFrom seed m).exec i).1 = .ok e := by
  rw [estimateFrom_estimator] at h
  obtain ⟨⟨a, log⟩, j₁, hlog, h⟩ := Run.exec_bind_eq_ok.mp h
  cases h
  obtain ⟨x, k, hx, haccounts⟩ := Runs.meets_iff.mp (t.meets_logged hm seed)
  obtain ⟨hans, hev⟩ := hx j
  rw [hlog] at hans hev
  dsimp only at hans hev
  subst hans
  refine ⟨⟨log, hlog, haccounts.ran, haccounts.method, haccounts.steps⟩, by omega, ?_, ?_⟩
  · rw [hev, Nat.add_sub_cancel_left]
    exact haccounts.evaluations
  · intro i
    rw [estimateFrom_estimator, Run.exec_bind_ok (Prod.ext (hx i).1 rfl)]
    rfl

/-- A single variable, and failure below minus one. -/
def belowMinusOne : Model Float := ⟨.standardNormals 1, fun d => .ok (1 + d.u.headD 0), 1, .silent⟩

def fullSteps : Form.Config Float := { Form.Config.standard with relaxation := 1 }

theorem isSingle_fullSteps :
    (⟨Form.name, Form.estimate fullSteps, Form.estimateAfter fullSteps⟩ : Estimator Float).IsSingle :=
  .form (by rfl : Form.estimator fullSteps = _)

/-- The first-order method, and once more from where it ended. -/
def twice : Tree Float :=
  .refine "FORM twice" (.single _ isSingle_fullSteps) (.single _ isSingle_fullSteps)

/-- The first run takes two steps and the second one, with three evaluations each. -/
theorem work_is_conserved_twice : ∃ e j',
    (twice.estimator.estimateFrom none belowMinusOne).exec .empty = (.ok e, j') ∧
      e.steps = 3 ∧ e.evaluations = 9 ∧
      (∃ log, (twice.logged belowMinusOne none).exec .empty = (.ok (e, log), j') ∧ log ≠ [] ∧
        e.method = "+".intercalate (log.map (·.name)) ∧
        CountsTo e.steps (stepsOf log)) ∧
      CountsTo e.evaluations (j'.evaluations - (Journal.empty : Journal Float).evaluations) := by
  have hrun : (((twice.estimator.estimateFrom none belowMinusOne).exec .empty).1.toOption.map
      fun e => (e.steps, e.evaluations)) = some (3, 9) := by decide +kernel
  rcases h : (twice.estimator.estimateFrom none belowMinusOne).exec .empty with ⟨err | e, j'⟩
  · rw [h] at hrun
    cases hrun
  · rw [h] at hrun
    obtain ⟨hlog, -, hcount, -⟩ := work_is_conserved Monitor.isStateless_silent twice none h
    have hpair : (e.steps, e.evaluations) = (3, 9) := Option.some.inj hrun
    exact ⟨e, j', rfl, congrArg Prod.fst hpair, congrArg Prod.snd hpair, hlog, hcount⟩

end Tree

end Estimator

end FailureProbability
