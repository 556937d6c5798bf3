import FailureProbability.Directional
import FailureProbability.Proofs.Cancellation
import FailureProbability.Proofs.Sampling.Work

/-!
# The work of directional sampling

A search along a direction asks for values on its ray only; where all of them are finite it never
fails. The evaluations of a run are the increase of the counter. Searches make no report either: the
reports of a run are those on its tallies.

Three things may make a run fail: a value on a ray, the value at the origin, and the physical values
at the design point at the end. Whether the first one can happen is kept apart (`meets_rounds`): the
rounds of a limit state that is finite everywhere are sure to answer. For the run as a whole failing
is simply allowed for (`mayFail`). The source of the directions is any source at all. A vector
without a length is drawn again a fixed number of times, after which the direction is the origin,
and nothing here depends on how likely that is.
-/

namespace FailureProbability.Directional

variable {σ α : Type} {mayFail : Prop} [Scalar α]

/-! ## One direction

A search along a direction is a search for a root, for which every value is one of the limit state.
What it may do is therefore told by the contract of root searches: it costs what it asks for, makes
no report, and fails where a value does. -/

/-- A point of the ray costs one evaluation, and fails where its value does. -/
theorem meets_alongRay (m : Model α) (direction : List α)
    (hfail : (∀ r, ∃ z, m.value (Coordinates.scale r direction) = .ok z) ∨ mayFail) (r : α) :
    Runs.Meets mayFail (alongRay m direction r) fun _ k => k = 1 := by
  unfold alongRay
  refine Runs.meets_bind (Runs.meets_lift (m.meets_z _ (hfail.imp_left fun h => h r)))
    fun z k hz => ?_
  refine Runs.meets_bind (Runs.meets_modify _ (P := fun _ k => k = 0) rfl) fun _ n hn => ?_
  have hk := hz.2
  exact Runs.meets_pure (by omega)

/-- A search starts from the value at the origin, which it does not ask for again. -/
theorem exec_search (c : Config α) (m : Model α) (z0 : α) (direction : List α) (j : Journal α) :
    (search c m z0 direction).exec j =
      let r := RunWith.exec (c.ray.find z0 (alongRay m direction)) (noteSide none z0) j
      (r.1.map fun s => contribution direction.length r.2.1 s.root, r.2.2) := rfl

/-- A search along a ray charges what it evaluates, and fails only where a value on the ray does. -/
theorem meets_search (c : Config α) {m : Model α} (z0 : α) {direction : List α}
    (hfail : (∀ r, ∃ z, m.value (Coordinates.scale r direction) = .ok z) ∨ mayFail) :
    Runs.Meets mayFail (search c m z0 direction) fun _ _ => True := by
  obtain ⟨x, side, k, hx, hP⟩ :=
    Root.Ray.holds_find (Runs.contract (RunWith (Option α) α) mayFail) (meets_alongRay m direction hfail)
      c.ray z0 (noteSide none z0)
  refine Runs.meets_iff.mpr
    ⟨x.map fun s => contribution direction.length side s.root, k, fun j => ?_, ?_⟩
  · obtain ⟨hans, hside, hev⟩ := hx j
    rw [Runs.exec_runWith] at hans hside hev
    rw [exec_search]
    dsimp only
    rw [hans, hside]
    exact ⟨rfl, hev⟩
  · cases x with
    | error e => exact hP
    | ok s => trivial

theorem silent_alongRay (m : Model α) (direction : List α) (r : α) :
    Runs.Silent (alongRay m direction r) fun _ => True := by
  refine Runs.silent_bind (Runs.silent_lift (m.silent_z _)) fun z _ => ?_
  exact Runs.silent_bind (Runs.silent_modify _) fun _ _ => Runs.silent_pure trivial

theorem silent_search (c : Config α) (m : Model α) (z0 : α) (direction : List α) :
    Runs.Silent (search c m z0 direction) fun _ => True := by
  refine Runs.silent_iff.mpr fun j => ?_
  have hfind := Root.Ray.holds_find (Runs.silent (RunWith (Option α) α)) (f := alongRay m direction)
    (fun r => (silent_alongRay m direction r).mono fun _ _ => ⟨1, rfl⟩) c.ray z0
    (noteSide none z0) j
  rw [Runs.exec_runWith] at hfind
  rw [exec_search]
  exact ⟨hfind.1, fun _ _ => trivial⟩

theorem silent_searches (c : Config α) (m : Model α) (z0 : α) (directions : List (List α)) :
    Runs.Silent (directions.mapM (search c m z0)) fun _ => True := by
  have hall := (Runs.silent (Run α)).mapM (f := search c m z0) (l := directions)
    (P := fun _ _ => True) (Q := fun _ _ => True) trivial (fun _ _ _ _ _ _ => trivial)
    fun d _ => (silent_search c m z0 d).mono fun _ _ => ⟨0, trivial⟩
  exact hall.mono fun _ _ => trivial

/-! ## The run -/

variable [RandomSource σ α]

theorem meets_drawDirection (n tries : Nat) :
    Runs.Meets mayFail (drawDirection n tries : Sampling.Sampler σ α (List α)) fun d _ =>
      d.length = n := by
  induction tries with
  | zero => exact Runs.meets_pure (Coordinates.length_origin n)
  | succ tries ih =>
    unfold drawDirection
    refine Runs.meets_bind (Sampling.Sampler.meets_draw n) fun v k hv => ?_
    refine (Runs.contract (Sampling.Sampler σ α) mayFail).ite (fun _ => ?_) fun _ => ih
    exact Runs.meets_pure ((Coordinates.length_divide ..).trans hv.1)

/-- Drawing never fails, and a direction has a coordinate for every variable. -/
theorem meets_drawDirections (n count : Nat) :
    Runs.Meets mayFail (drawDirections n count : Sampling.Sampler σ α (List (List α)))
      fun ds _ => ∀ d ∈ ds, d.length = n := by
  induction count with
  | zero => exact Runs.meets_pure (by simp)
  | succ count ih =>
    unfold drawDirections
    refine Runs.meets_bind (meets_drawDirection n Random.tries) fun d k hd => ?_
    refine Runs.meets_bind ih fun ds k' hds => ?_
    refine Runs.meets_pure fun d' hd' => ?_
    rcases List.mem_cons.mp hd' with rfl | hd'
    · exact hd
    · exact hds d' hd'

variable {m : Model α} (hm : m.monitor.IsStateless)
include hm

omit [RandomSource σ α] in
theorem meets_consume (c : Config α) (found : List (List α × Contribution α)) (t : Tally α) :
    Runs.Meets mayFail (consume c m found t) fun _ _ => True := by
  induction found generalizing t with
  | nil => exact Runs.meets_pure trivial
  | cons e found ih =>
    unfold consume
    refine Runs.meets_bind (Sampling.Config.meets_settle hm c.sampling _ _ _ _) fun v _ _ => ?_
    cases v with
    | none => exact ih _
    | some status => exact Runs.meets_pure trivial

/-- A run fails only where a search does. -/
theorem meets_rounds (c : Config α) (z0 : α)
    (hfail : (∀ d, d.length = m.dimension → ∀ r, ∃ z, m.value (Coordinates.scale r d) = .ok z) ∨
      mayFail) (fuel : Nat) (t : Tally α) :
    Runs.Meets mayFail (rounds c m z0 fuel t : Sampling.Sampler σ α (Tally α × Status))
      fun _ _ => True := by
  induction fuel generalizing t with
  | zero => exact Runs.meets_pure trivial
  | succ fuel ih =>
    unfold rounds
    refine Runs.meets_bind (meets_drawDirections m.dimension _) fun directions _ hds => ?_
    have hsearch : Runs.Meets mayFail (directions.mapM (search c m z0)) fun _ _ => True :=
      (Runs.contract (Run α) mayFail).mapM (P := fun _ _ => True) (Q := fun _ _ => True) trivial
        (fun _ _ _ _ _ _ => trivial)
        fun d hd => meets_search c z0 (hfail.imp_left fun h => h d (hds d hd))
    refine Runs.meets_bind (Runs.meets_lift hsearch) fun found _ _ => ?_
    refine Runs.meets_bind (Runs.meets_lift (meets_consume hm c _ t)) fun b _ _ => ?_
    obtain ⟨t', ended⟩ := b
    cases ended with
    | none => exact ih t'
    | some status => exact Runs.meets_pure trivial

omit hm in
/-- What a run finds: its tally, how it ended, and the physical values at the design point. -/
def findings (c : Config α) (m : Model α) (source : σ) : Run α (Tally α × Status × List α) := do
  let z0 ← m.z (Coordinates.origin m.dimension)
  let (t, status) ← Sampling.Sampler.withSupply (Sampling.Supply.fresh source false)
    (rounds c m z0 c.sampling.fuel (.empty m.dimension))
  let x ← Run.ofExcept (m.x t.direction.designPoint)
  return (t, status, x)

omit hm in
/-- The estimate is made of what was found and of the increase of the counter. -/
theorem estimateOn_eq (c : Config α) (m : Model α) (source : σ) :
    estimateOn c m source = do
      let before ← Run.evaluations
      let b ← findings c m source
      let after ← Run.evaluations
      return ⟨b.2.1, b.1.direction, b.2.2, b.1.direction.designPoint, name, b.1.count,
        after - before⟩ := by
  simp only [findings, bind_assoc, pure_bind]
  rfl

theorem meets_findings (c : Config α) (source : σ) :
    Runs.Meets True (findings c m source) fun _ _ => True := by
  refine Runs.meets_bind (m.meets_z _ (.inr trivial)) fun z0 _ _ => ?_
  refine Runs.meets_bind (Sampling.Sampler.meets_withSupply (meets_rounds hm c z0 (.inr trivial) _ _) _)
    fun b _ _ => ?_
  refine Runs.meets_bind (Runs.meets_ofExcept (.inr trivial)) fun x _ _ => ?_
  exact Runs.meets_pure trivial

theorem meets_estimateOn (c : Config α) (source : σ) :
    Runs.Meets True (estimateOn c m source) (Estimate.Accounts name) := by
  rw [estimateOn_eq]
  exact Runs.meets_measured (meets_findings hm c source) fun b k _ => ⟨rfl, rfl⟩

omit [RandomSource σ α] in
theorem meets_estimate (c : Config α) :
    Runs.Meets True (estimate c m) (Estimate.Accounts name) :=
  meets_estimateOn hm c c.sampling.source

end FailureProbability.Directional
