import FailureProbability.Proofs.Coherence
import FailureProbability.Proofs.Estimator.Tree

/-!
# Coherence of trees of estimators

The estimate of a chain has its direction and its point from one of the two stages, or it is merged:
the direction of the second stage with the index of the first, and then the point and the physical
values are new. `Tree.sourced` is the run of a tree that also tells the single method from which its
estimate has them. Every estimate is coherent, and its point is the design point of its direction
unless it comes from the first-order method as it is.

The source cannot be read off an estimate: names of methods are joined when stages follow each
other, and a chain has a name of its own. It is therefore told by a second run, which is shown to be
the same one with a further answer (`estimateFrom_eq_sourced`), and not by a function of the
estimate.

A merged estimate has no source, even where both stages are the first-order method. Its point is
then a design point again, whichever point the second stage has ended at.
-/

namespace FailureProbability

variable {α : Type} [Scalar α]

theorem Estimate.Coherent.afterStage {m : Model α} {e : Estimate α} (h : e.Coherent m)
    (earlier : Estimate α) : (e.afterStage earlier).Coherent m := ⟨h.alpha, h.values⟩

namespace Estimator

variable {m : Model α}

/-- A single method other than the first-order one ends at a design point. -/
theorem IsSingle.ensures_estimateFrom {e : Estimator α} (h : e.IsSingle)
    (seed : Option (Estimate α)) :
    Runs.Ensures (e.estimateFrom seed m) fun a =>
      a.Coherent m ∧ (e.name ≠ Form.name → a.u = a.direction.designPoint) := by
  -- For all methods but one there is nothing to distinguish.
  have hpoint : ∀ {r : Run α (Estimate α)}, Runs.Ensures r (fun a => a.AtDesignPoint m) →
      Runs.Ensures r fun a =>
        a.Coherent m ∧ (e.name ≠ Form.name → a.u = a.direction.designPoint) :=
    fun hr => hr.mono fun a ha => ⟨ha.coherent, fun _ => ha.point⟩
  cases h with
  | @form c _ h =>
    rw [eq_of_checked h]
    cases seed with
    | none => exact (Form.ensures_estimate c).mono fun a ha => ⟨ha, fun hne => absurd rfl hne⟩
    | some earlier =>
      exact (Form.ensures_estimateAfter c earlier).mono fun a ha =>
        ⟨ha, fun hne => absurd rfl hne⟩
  | @directional c _ h =>
    rw [eq_of_checked h] at hpoint ⊢
    cases seed <;> exact hpoint (Directional.ensures_estimate c)
  | @crude c _ h =>
    rw [eq_of_checked h] at hpoint ⊢
    cases seed <;> exact hpoint (Sampling.Crude.ensures_estimate c)
  | @importance c _ h =>
    rw [eq_of_checked h] at hpoint ⊢
    cases seed with
    | none => exact hpoint (Sampling.Importance.ensures_estimate c)
    | some earlier => exact hpoint (Sampling.Importance.ensures_estimateAfter c earlier)
  | @adaptive c _ h =>
    obtain ⟨_, hc, -⟩ := bind_eq_ok.mp h
    rw [eq_of_checked h] at hpoint ⊢
    cases seed <;> exact hpoint (Sampling.Adaptive.ensures_estimate hc)
  | @grid c _ h =>
    rw [eq_of_checked h] at hpoint ⊢
    cases seed <;> exact hpoint (Grid.ensures_estimate c)

/-- A refined direction comes with the values at its own design point; where it is not taken, all
stays as it was. -/
theorem ensures_mergeDirection {a : Estimate α} (ha : a.Coherent m) (b : Estimate α) :
    Runs.Ensures (mergeDirection m a b) fun e => e.Coherent m ∧
      if b.converged then e.u = e.direction.designPoint
      else e.direction = a.direction ∧ e.u = a.u ∧ e.x = a.x := by
  unfold mergeDirection
  by_cases hconverged : b.converged = true
  · simp only [if_pos hconverged]
    refine Runs.ensures_bind (Runs.ensures_ofExcept _) fun x hx => ?_
    exact Runs.ensures_pure ⟨⟨(Direction.length_designPoint _).symm, hx⟩, rfl⟩
  · simp only [if_neg hconverged]
    exact Runs.ensures_pure ⟨⟨ha.alpha, ha.values⟩, rfl, rfl, rfl⟩

namespace Tree

/-- The run of a tree together with the single method that its estimate has direction and point
from, unless they are merged. -/
def sourced (m : Model α) :
    Tree α → Option (Estimate α) → Run α (Estimate α × Option (Stage α))
  | single e _, seed => do
    let a ← e.estimateFrom seed m
    return (a, some ⟨e.name, a⟩)
  | fallback _ first second envelope, _ => do
    let (a, source) ← sourced m first none
    if a.status = .abortedByUser then return (a, source)
    else if envelope.accepts a then return (a, source)
    else
      let (b, source) ← sourced m second (some a)
      return (b.afterStage a, source)
  | refine _ first second, _ => do
    let (a, source) ← sourced m first none
    if a.status = .abortedByUser then return (a, source)
    else
      let (b, refined) ← sourced m second (some a)
      if b.status = .abortedByUser then return (b.afterStage a, refined)
      else
        let e ← mergeDirection m a b
        return (e, if b.converged then none else source)

/-- The source changes nothing. -/
theorem estimateFrom_eq_sourced (t : Tree α) (seed : Option (Estimate α)) (m : Model α) :
    t.estimator.estimateFrom seed m = do
      let b ← t.sourced m seed
      return b.1 := by
  -- Both runs take the same steps; only what they return in the end differs.
  induction t generalizing seed with
  | single e h => simp only [sourced, estimator, bind_assoc, pure_bind, bind_pure]
  | fallback name first second envelope ihf ihs =>
    rw [estimator, Estimator.fallback, estimateFrom_unseeded]
    simp only [sourced, ← estimateFrom_none, ← estimateFrom_some, ihf, ihs, bind_assoc, pure_bind]
    congr 1
    funext b
    split
    · rw [pure_bind]
    · split
      · rw [pure_bind]
      · simp only [bind_assoc, pure_bind]
  | refine name first second ihf ihs =>
    rw [estimator, Estimator.refine, estimateFrom_unseeded]
    simp only [sourced, ← estimateFrom_none, ← estimateFrom_some, ihf, ihs, bind_assoc, pure_bind]
    congr 1
    funext b
    split
    · rw [pure_bind]
    · simp only [bind_assoc]
      congr 1
      funext b'
      split
      · rw [pure_bind]
      · simp only [bind_assoc, pure_bind, bind_pure]

/-- What an estimate has from its source, and when its point is a design point. -/
inductive Supplied (e : Estimate α) : Option (Stage α) → Prop
  | stage (s : Stage α) (direction : s.estimate.direction = e.direction) (u : s.estimate.u = e.u)
      (x : s.estimate.x = e.x) (point : s.name ≠ Form.name → e.u = e.direction.designPoint) :
      Supplied e (some s)
  | merged (point : e.u = e.direction.designPoint) : Supplied e none

/-- Another estimate with the same direction, point and values has the same source. -/
theorem Supplied.congr {e e' : Estimate α} {source : Option (Stage α)} (h : Supplied e source)
    (hdirection : e'.direction = e.direction) (hu : e'.u = e.u) (hx : e'.x = e.x) :
    Supplied e' source := by
  cases h with
  | stage s direction u x point =>
    refine .stage s (direction.trans hdirection.symm) (u.trans hu.symm) (x.trans hx.symm) ?_
    rw [hdirection, hu]
    exact point
  | merged point =>
    refine .merged ?_
    rw [hdirection, hu]
    exact point

/-- Every estimate of a tree is coherent and has its direction and point from its source. -/
theorem ensures_sourced (t : Tree α) (seed : Option (Estimate α)) :
    Runs.Ensures (t.sourced m seed) fun b => b.1.Coherent m ∧ Supplied b.1 b.2 := by
  induction t generalizing seed with
  | single e h =>
    unfold sourced
    refine Runs.ensures_bind (h.ensures_estimateFrom seed) fun a ha => ?_
    exact Runs.ensures_pure ⟨ha.1, .stage _ rfl rfl rfl ha.2⟩
  | fallback name first second envelope ihf ihs =>
    unfold sourced
    refine Runs.ensures_bind (ihf none) fun a ha => ?_
    dsimp only
    split
    · exact Runs.ensures_pure ha
    · split
      · exact Runs.ensures_pure ha
      · refine Runs.ensures_bind (ihs (some a.1)) fun b hb => ?_
        exact Runs.ensures_pure ⟨hb.1.afterStage a.1, hb.2.congr rfl rfl rfl⟩
  | refine name first second ihf ihs =>
    unfold sourced
    refine Runs.ensures_bind (ihf none) fun a ha => ?_
    dsimp only
    split
    · exact Runs.ensures_pure ha
    · refine Runs.ensures_bind (ihs (some a.1)) fun b hb => ?_
      split
      · exact Runs.ensures_pure ⟨hb.1.afterStage a.1, hb.2.congr rfl rfl rfl⟩
      · refine Runs.ensures_bind (ensures_mergeDirection ha.1 b.1) fun e he => ?_
        obtain ⟨hcoherent, hmerged⟩ := he
        refine Runs.ensures_pure ⟨hcoherent, ?_⟩
        -- A direction that is not taken leaves the estimate with the source that it had.
        by_cases hconverged : b.1.converged = true
        · rw [if_pos hconverged] at hmerged ⊢
          exact .merged hmerged
        · rw [if_neg hconverged] at hmerged ⊢
          exact ha.2.congr hmerged.1 hmerged.2.1 hmerged.2.2

/-- Every result of a tree is coherent: direction and point have a coordinate for every active
variable, and the physical values, one for every variable, are those at just this point. The tree
tells from which single method it has direction, point and values as they are; unless that is the
first-order method, the point is the design point of the direction. -/
theorem result_is_coherent (t : Tree α) (seed : Option (Estimate α)) {j j' : Journal α}
    {e : Estimate α} (h : (t.estimator.estimateFrom seed m).exec j = (.ok e, j')) :
    e.direction.alpha.length = m.dimension ∧ e.u.length = m.dimension ∧
    e.x.length = m.setup.marginals.length ∧ m.x e.u = .ok e.x ∧
    ∃ source, (t.sourced m seed).exec j = (.ok (e, source), j') ∧
      (∀ s ∈ source, s.estimate.direction = e.direction ∧ s.estimate.u = e.u ∧
        s.estimate.x = e.x) ∧
      ((∀ s ∈ source, s.name ≠ Form.name) →
        e.u = Coordinates.scale (-e.direction.beta) e.direction.alpha) := by
  rw [estimateFrom_eq_sourced] at h
  obtain ⟨⟨a, source⟩, j₁, hsourced, h⟩ := Run.exec_bind_eq_ok.mp h
  cases h
  obtain ⟨hcoherent, hsupplied⟩ := Runs.ensures_iff.mp (t.ensures_sourced seed) j _ _ hsourced
  obtain ⟨hu, hx⟩ := Model.length_of_x hcoherent.values
  refine ⟨hcoherent.alpha.trans hu, hu, hx, hcoherent.values, source, hsourced, ?_⟩
  cases hsupplied with
  | stage s direction u x point =>
    refine ⟨fun s' hs' => ?_, fun hform => point (hform s rfl)⟩
    cases hs'
    exact ⟨direction, u, x⟩
  | merged point =>
    refine ⟨fun s' hs' => ?_, fun _ => point⟩
    cases hs'

/-- The second run of the first-order method converges, so that its direction is merged with the
index of the first one. -/
theorem result_is_coherent_twice : ∃ e j',
    (twice.estimator.estimateFrom none belowMinusOne).exec .empty = (.ok e, j') ∧
      e.direction.alpha.length = 1 ∧ e.u.length = 1 ∧ e.x.length = 1 ∧
      belowMinusOne.x e.u = .ok e.x ∧
      (twice.sourced belowMinusOne none).exec .empty = (.ok (e, none), j') ∧
      e.u = Coordinates.scale (-e.direction.beta) e.direction.alpha := by
  have hrun : ((twice.sourced belowMinusOne none).exec .empty).1.toOption.map
      (fun b => b.2.isNone) = some true := by decide +kernel
  rcases hsourced : (twice.sourced belowMinusOne none).exec .empty with ⟨err | ⟨e, source⟩, j'⟩
  · rw [hsourced] at hrun
    cases hrun
  · rw [hsourced] at hrun
    obtain rfl : source = none := Option.isNone_iff_eq_none.mp (Option.some.inj hrun)
    have h : (twice.estimator.estimateFrom none belowMinusOne).exec .empty = (.ok e, j') := by
      rw [estimateFrom_eq_sourced, Run.exec_bind_ok hsourced]
      rfl
    obtain ⟨halpha, hu, hx, hvalues, source', hsource, -, hpoint⟩ :=
      result_is_coherent twice none h
    obtain rfl : none = source' := congrArg Prod.snd (Except.ok.inj
      (congrArg Prod.fst (hsourced.symm.trans hsource)))
    refine ⟨e, j', h, halpha, hu, hx, hvalues, rfl, hpoint fun s hs => ?_⟩
    cases hs

end Tree

end Estimator

end FailureProbability
