import FailureProbability.Proofs.Batching.Methods
import FailureProbability.Scalar.Double

/-!
# Settings with any batching

Two estimators match when they give alike estimates, from nothing and after alike estimates
(`Estimator.Matches`). Chains of matching estimators match, and so do the estimators of all methods
that settings with different batchings name. A run therefore gives the same estimate, or fails with
the same error, however many points are evaluated together; it may take other evaluations.

Arithmetic is arbitrary throughout. Samples are tallied in the order in which they were drawn in any
batching, so that not even a sum that rounds can tell one from another.
-/

namespace FailureProbability

variable {α : Type} [Scalar α]

/-! ## Estimators -/

namespace Estimator

/-- Two estimators give alike estimates for two models. -/
structure Matches (m m' : Model α) (e e' : Estimator α) : Prop where
  estimate : Run.Related Estimate.Alike (e.estimate m) (e'.estimate m')
  estimateAfter : ∀ a a', Estimate.Alike a a' →
    Run.Related Estimate.Alike (e.estimateAfter a m) (e'.estimateAfter a' m')

omit [Scalar α] in
theorem matches_unseeded {m m' : Model α} (name : String)
    {estimate estimate' : Model α → Run α (Estimate α)}
    (h : Run.Related Estimate.Alike (estimate m) (estimate' m')) :
    Matches m m' (unseeded name estimate) (unseeded name estimate') :=
  ⟨h, fun _ _ _ => h⟩

variable {m : Model α} {b b' : Batching} {first first' second second' : Estimator α}

/-- The two first stages are accepted or refused together, because they are alike. -/
theorem matches_fallback (name : String) (envelope : Envelope α)
    (hfirst : Matches (m.batch b) (m.batch b') first first')
    (hsecond : Matches (m.batch b) (m.batch b') second second') :
    Matches (m.batch b) (m.batch b') (fallback name first second envelope)
      (fallback name first' second' envelope) := by
  refine matches_unseeded name (Run.related_bind hfirst.estimate fun a a' ha => ?_)
  obtain ⟨k, rfl⟩ := ha.exists_eq
  refine Run.related_ite (fun _ => Run.related_pure ha) fun _ => ?_
  refine Run.related_ite (fun _ => Run.related_pure ha) fun _ => ?_
  refine Run.related_bind (hsecond.estimateAfter _ _ ha) fun e e' he => ?_
  obtain ⟨l, rfl⟩ := he.exists_eq
  exact Run.related_pure rfl

theorem related_mergeDirection (m : Model α) (b b' : Batching) {a a' e e' : Estimate α}
    (ha : a.Alike a') (he : e.Alike e') :
    Run.Related Estimate.Alike (mergeDirection (m.batch b) a e)
      (mergeDirection (m.batch b') a' e') := by
  obtain ⟨k, rfl⟩ := ha.exists_eq
  obtain ⟨l, rfl⟩ := he.exists_eq
  refine Run.related_ite (fun _ => ?_) fun _ => Run.related_pure rfl
  refine Run.related_bind (Run.related_ofExcept (.of_eq rfl)) fun x _ hx => ?_
  subst hx
  exact Run.related_pure rfl

/-- The two second stages begin after alike estimates, and what is merged is alike. -/
theorem matches_refine (name : String) (hfirst : Matches (m.batch b) (m.batch b') first first')
    (hsecond : Matches (m.batch b) (m.batch b') second second') :
    Matches (m.batch b) (m.batch b') (refine name first second)
      (refine name first' second') := by
  refine matches_unseeded name (Run.related_bind hfirst.estimate fun a a' ha => ?_)
  obtain ⟨k, rfl⟩ := ha.exists_eq
  refine Run.related_ite (fun _ => Run.related_pure ha) fun _ => ?_
  refine Run.related_bind (hsecond.estimateAfter _ _ ha) fun e e' he => ?_
  have hmerge := related_mergeDirection m b b' ha he
  obtain ⟨l, rfl⟩ := he.exists_eq
  exact Run.related_ite (fun _ => Run.related_pure rfl) fun _ => hmerge

/-! ## Making estimators

Settings are checked while an estimator is made from them. As no check looks at the batching, it is
refused for both or for none, and with the same error; what is made matches. -/

/-- Whether made for one batching or for the other, an estimator is refused with the same error, or
matches. -/
def Pairs (m : Model α) (b b' : Batching) (e : Batching → Except (Error α) (Estimator α)) : Prop :=
  Answers (Matches (m.batch b) (m.batch b')) (e b) (e b')

omit [Scalar α] in
/-- A check that does not look at the batching refuses both or neither. -/
theorem pairs_checked (check : Except (Error α) Unit) {e : Batching → Estimator α}
    (h : check = .ok () → Matches (m.batch b) (m.batch b') (e b) (e b')) :
    Pairs m b b' fun b => do
      check
      return e b := by
  cases check with
  | error e => exact .error e
  | ok _ => exact .ok (h rfl)

theorem pairs_fallback {first second : Batching → Except (Error α) (Estimator α)} (name : String)
    (envelope : Envelope α) (hfirst : Pairs m b b' first) (hsecond : Pairs m b b' second) :
    Pairs m b b' fun b => do
      let e ← first b
      return fallback name e (← second b) envelope :=
  Answers.bind hfirst fun _ _ hfirst =>
    Answers.bind hsecond fun _ _ hsecond => .ok (matches_fallback name envelope hfirst hsecond)

theorem pairs_refine {first second : Batching → Except (Error α) (Estimator α)} (name : String)
    (hfirst : Pairs m b b' first) (hsecond : Pairs m b b' second) :
    Pairs m b b' fun b => do
      let e ← first b
      return refine name e (← second b) :=
  Answers.bind hfirst fun _ _ hfirst =>
    Answers.bind hsecond fun _ _ hsecond => .ok (matches_refine name hfirst hsecond)

/-! ## Single methods -/

variable (b b') (hm : m.monitor = .silent)
include hm

theorem pairs_form (c : Form.Config α) : Pairs m b b' fun _ => Form.estimator c := by
  have hstateless := Monitor.isStateless_of_eq_silent hm
  exact pairs_checked c.validate fun _ =>
    ⟨Form.related_estimate hstateless c b b',
      fun _ _ ha => Form.related_estimateAfter hstateless c b b' ha⟩

theorem pairs_grid (c : Grid.Config α) : Pairs m b b' fun _ => Grid.estimator c :=
  pairs_checked c.validate fun _ => matches_unseeded Grid.name (Grid.related_estimate hm b b' c)

variable (hfinite : Model.FiniteEverywhere m.setup m.limitState)
include hfinite

theorem pairs_directional (c : Directional.Config α) :
    Pairs m b b' fun b => Directional.estimator (c.batch b) :=
  pairs_checked c.validate fun hc => matches_unseeded Directional.name
    (Directional.related_estimate hm hfinite (Directional.Config.maxSamples_pos hc) b b')

theorem pairs_crude (c : Sampling.Config α) :
    Pairs m b b' fun b => Sampling.Crude.estimator (c.batch b) := by
  have hstateless := Monitor.isStateless_of_eq_silent hm
  exact pairs_checked c.validate fun _ => matches_unseeded Sampling.Crude.name
    (Sampling.Crude.related_estimate hstateless hfinite c b b')

theorem pairs_importance (c : Sampling.Importance.Config α) :
    Pairs m b b' fun b => Sampling.Importance.estimator (c.batch b) := by
  have hstateless := Monitor.isStateless_of_eq_silent hm
  exact pairs_checked c.validate fun _ =>
    ⟨Sampling.Importance.related_estimate hstateless hfinite c b b',
      fun _ _ ha => Sampling.Importance.related_estimateAfter hstateless hfinite c b b' ha⟩

theorem pairs_adaptive (c : Sampling.Adaptive.Config α) :
    Pairs m b b' fun b => Sampling.Adaptive.estimator (c.batch b) := by
  have hstateless := Monitor.isStateless_of_eq_silent hm
  exact pairs_checked c.validate fun _ => matches_unseeded Sampling.Adaptive.name
    (Sampling.Adaptive.related_estimate hstateless hfinite c b b')

/-! ## Named chains -/

theorem pairs_dsfi (directional : Directional.Config α) (form : Form.Config α) :
    Pairs m b b' fun b => dsfi (directional.batch b) form :=
  pairs_refine "DSFI" (pairs_directional b b' hm hfinite directional) (pairs_form b b' hm form)

theorem pairs_dsfiHr (directional : Directional.Config α) (form : Form.Config α) :
    Pairs m b b' fun b => dsfiHr (directional.batch b) form := by
  let marching := { directional with rayMethod := .linearLoop .firstNegative }
  exact pairs_refine "DSFI-HR" (pairs_directional b b' hm hfinite marching)
    (pairs_form b b' hm form)

theorem pairs_fdir (form : Form.Config α) (directional : Directional.Config α)
    (envelope : Envelope α) : Pairs m b b' fun b => fdir form (directional.batch b) envelope :=
  pairs_fallback "FDIR" envelope (pairs_form b b' hm form)
    (pairs_directional b b' hm hfinite directional)

theorem pairs_formDsfi (form : Form.Config α) (directional : Directional.Config α)
    (envelope : Envelope α) : Pairs m b b' fun b => formDsfi form (directional.batch b) envelope :=
  pairs_fallback "FORM+DSFI" envelope (pairs_form b b' hm form)
    (pairs_dsfi b b' hm hfinite directional form)

theorem pairs_cmcForm (sampling : Sampling.Config α) (form : Form.Config α) :
    Pairs m b b' fun b => cmcForm (sampling.batch b) form :=
  pairs_refine "CMC-FORM" (pairs_crude b b' hm hfinite sampling) (pairs_form b b' hm form)

theorem pairs_cmimForm (importance : Sampling.Importance.Config α) (form : Form.Config α) :
    Pairs m b b' fun b => cmimForm (importance.batch b) form :=
  pairs_refine "CMIM-FORM" (pairs_importance b b' hm hfinite importance) (pairs_form b b' hm form)

end Estimator

/-! ## Settings -/

namespace Settings

/-- With any two batchings the named method is refused with the same error, or its estimators
match. -/
theorem pairs_estimator {m : Model α} (hm : m.monitor = .silent)
    (hfinite : Model.FiniteEverywhere m.setup m.limitState) (s : Settings α) (b b' : Batching) :
    Estimator.Pairs m b b' fun b => (s.batch b).estimator := by
  unfold Estimator.Pairs estimator
  dsimp only
  rw [show (s.batch b).method = s.method from rfl, show (s.batch b').method = s.method from rfl]
  cases s.method with
  | form => exact Estimator.pairs_form b b' hm s.form
  | directionalSampling => exact Estimator.pairs_directional b b' hm hfinite s.directionalConfig
  | crudeMonteCarlo => exact Estimator.pairs_crude b b' hm hfinite s.crudeConfig
  | importanceSampling => exact Estimator.pairs_importance b b' hm hfinite s.importanceConfig
  | adaptiveImportanceSampling => exact Estimator.pairs_adaptive b b' hm hfinite s.adaptiveConfig
  | numericalIntegration => exact Estimator.pairs_grid b b' hm s.grid
  | fdir => exact Estimator.pairs_fdir b b' hm hfinite s.form s.directionalConfig s.envelope
  | dsfi => exact Estimator.pairs_dsfi b b' hm hfinite s.directionalConfig s.form
  | dsfiHr => exact Estimator.pairs_dsfiHr b b' hm hfinite s.directionalConfig s.form
  | formDsfi =>
    exact Estimator.pairs_formDsfi b b' hm hfinite s.form s.directionalConfig s.envelope
  | cmcForm => exact Estimator.pairs_cmcForm b b' hm hfinite s.crudeConfig s.form
  | cmimForm => exact Estimator.pairs_cmimForm b b' hm hfinite s.importanceConfig s.form

/-- How many points are evaluated together makes no difference to a run that nobody stops. With any
two batchings, and from any two journals, settings fail with the same error, or give estimates that
are the same in everything but the evaluations that they took. -/
theorem run_is_independent_of_batching {setup : Setup α} {limitState : LimitState α}
    (hfinite : Model.FiniteEverywhere setup limitState) (s : Settings α) (b b' : Batching)
    (j j' : Journal α) :
    Agree (((s.batch b).run setup limitState .silent).exec j).1
      (((s.batch b').run setup limitState .silent).exec j').1 := by
  let m : Model α := ⟨setup, limitState, s.threads, .silent⟩
  have hpairs := pairs_estimator (m := m) rfl hfinite s b b'
  refine Run.related_named ?_ s.method.name j j'
  refine Run.related_bind (Run.related_ofExcept hpairs) fun e e' he => ?_
  exact he.estimate

def threeDirections : Settings Float :=
  { standard with
    method := .directionalSampling
    minSamples := 2
    maxSamples := some 3 }

/-- Three directions one by one, or two of them together and then the last one. -/
theorem run_is_independent_of_batching_threeDirections : ∃ a a',
    (((threeDirections.batch ⟨1, false, 1⟩).run (.standardNormals 1) (fun _ => .ok 1)
      .silent).exec .empty).1 = .ok a ∧
    (((threeDirections.batch ⟨4, true, 2⟩).run (.standardNormals 1) (fun _ => .ok 1)
      .silent).exec .empty).1 = .ok a' ∧
    a.Alike a' ∧ a.steps = 3 := by
  have hagree := run_is_independent_of_batching
    (Model.finiteEverywhere_const (.standardNormals 1) (z := (1 : Float)) (by rfl))
    threeDirections ⟨1, false, 1⟩ ⟨4, true, 2⟩ .empty .empty
  have hsteps : ((((threeDirections.batch ⟨1, false, 1⟩).run (.standardNormals 1)
      (fun _ => .ok 1) .silent).exec .empty).1.toOption.map fun a => a.steps) = some 3 := by
    decide +kernel
  generalize (((threeDirections.batch ⟨1, false, 1⟩).run _ _ _).exec _).1 = x at hagree hsteps
  generalize (((threeDirections.batch ⟨4, true, 2⟩).run _ _ _).exec _).1 = y at hagree
  cases hagree with
  | error e => cases hsteps
  | @ok a a' halike => exact ⟨a, a', rfl, rfl, halike, Option.some.inj hsteps⟩

end Settings

end FailureProbability
