import FailureProbability.Proofs.Agreement
import FailureProbability.Settings

/-!
# Batches

How many points are evaluated together is a matter of speed. A batching is this number, for a model
and for the settings of sampling; what has other batches but is the same otherwise is written
`m.batch b`, and likewise for settings. Most of what a run does never looks at the batching, which
is said here by equations: the first-order method as a whole, the values on a grid, and the engine
that works on one sample at a time.

The equations hold of runs and not only of their answers, so that nothing is supposed of limit
states or monitors. What does look at the batching is compared in `Proofs.Batching.Methods`, where
both have to be supposed to be well behaved.
-/

namespace FailureProbability

variable {α : Type}

structure Batching where
  threads : Nat
  buffered : Bool
  /-- How many samples; zero stands for ten per thread. -/
  chunkSize : Nat

def Model.batch (m : Model α) (b : Batching) : Model α := { m with threads := b.threads }

def Sampling.Config.batch (c : Sampling.Config α) (b : Batching) : Sampling.Config α :=
  { c with buffered := b.buffered, chunkSize := b.chunkSize }

def Sampling.Importance.Config.batch (c : Importance.Config α) (b : Batching) :
    Importance.Config α :=
  { c with sampling := c.sampling.batch b }

def Sampling.Adaptive.Config.batch (c : Adaptive.Config α) (b : Batching) : Adaptive.Config α :=
  { c with sampling := c.sampling.batch b }

def Directional.Config.batch (c : Directional.Config α) (b : Batching) : Directional.Config α :=
  { c with sampling := c.sampling.batch b }

def Settings.batch (s : Settings α) (b : Batching) : Settings α :=
  { s with threads := b.threads, buffered := b.buffered, chunkSize := b.chunkSize }

variable [Scalar α]

/-! ## The first-order method -/

theorem Start.find_batch (s : Start α) (m : Model α) (b : Batching) :
    s.find (m.batch b) = s.find m := by
  cases s <;> rfl

namespace Form

theorem iterate_batch (m : Model α) (b : Batching) (c : Config α) (relaxation : α)
    (remaining steps evaluations : Nat) (t : Trial α) :
    iterate (m.batch b) c relaxation remaining steps evaluations t =
      iterate m c relaxation remaining steps evaluations t := by
  induction remaining generalizing steps evaluations t with
  | zero => rfl
  | succ remaining ih =>
    unfold iterate
    simp only [ih]
    rfl

/-- No trial looks at the batching. -/
theorem trials_batch (m : Model α) (b : Batching) (c : Config α) (start : List α)
    (left steps evaluations : Nat) (relaxation : α) :
    trials (m.batch b) c start left steps evaluations relaxation =
      trials m c start left steps evaluations relaxation := by
  induction left generalizing steps evaluations relaxation with
  | zero =>
    unfold trials trial
    simp only [iterate_batch]
  | succ left ih =>
    unfold trials trial
    simp only [iterate_batch, ih]

theorem estimateFrom_batch (c : Config α) (start : List α) (m : Model α) (b : Batching) :
    estimateFrom c start (m.batch b) = estimateFrom c start m := by
  unfold estimateFrom
  rw [trials_batch]
  rfl

theorem estimate_batch (c : Config α) (m : Model α) (b : Batching) :
    estimate c (m.batch b) = estimate c m := by
  unfold estimate
  simp only [Start.find_batch, estimateFrom_batch]

theorem estimateAfter_batch (c : Config α) (earlier : Estimate α) (m : Model α) (b : Batching) :
    estimateAfter c earlier (m.batch b) = estimateAfter c earlier m := by
  unfold estimateAfter
  rw [estimateFrom_batch, estimate_batch]
  rfl

end Form

/-! ## Integration on a grid -/

namespace Grid

theorem integrate_batch (m : Model α) (b : Batching) (cells : List (Cell α)) (levels : Nat)
    (u : List α) (mass : α) (t : Tally α) :
    integrate (m.batch b) cells levels u mass t = integrate m cells levels u mass t := by
  induction levels generalizing u mass t with
  | zero => rfl
  | succ levels ih =>
    unfold integrate
    simp only [ih]

end Grid

/-! ## Sampling -/

namespace Sampling

variable {σ : Type} [RandomSource σ α]

theorem single_batch (m : Model α) (c : Config α) (b : Batching) (d : Density α) (fuel : Nat)
    (t : Tally α) :
    (single (m.batch b) (c.batch b) d fuel t : Sampler σ α (Tally α × Status)) =
      single m c d fuel t := by
  induction fuel generalizing t with
  | zero => rfl
  | succ fuel ih =>
    unfold single
    simp only [ih]
    rfl

theorem sequential_batch (m : Model α) (c : Config α) (b : Batching) (d : Density α) :
    (sequential (m.batch b) (c.batch b) d : Sampler σ α (Outcome α)) = sequential m c d := by
  unfold sequential
  rw [single_batch]
  rfl

namespace Adaptive

/-- Nothing but its runs sees how adaptive sampling is batched. -/
theorem loops_batch {run run' : Engine σ α} {b : Batching}
    (h : ∀ c d, run (c.batch b) d = run' c d) (c : Config α) (m : Model α) (left : Nat)
    (d : Density α) (steps evaluations : Nat) (last : Option (Outcome α)) :
    loops run (c.batch b) (m.batch b) left d steps evaluations last =
      loops run' c m left d steps evaluations last := by
  induction left generalizing d steps evaluations last with
  | zero => cases last <;> rfl
  | succ left ih =>
    have hsampling : (c.batch b).sampling = c.sampling.batch b := rfl
    have hfinal : (c.batch b).finalSampling = c.finalSampling.batch b := rfl
    unfold loops
    simp only [hsampling, hfinal, h, ih]
    rfl

theorem estimateOn_batch {run run' : Engine σ α} {b : Batching}
    (h : ∀ c d, run (c.batch b) d = run' c d) (c : Config α) (m : Model α) :
    estimateOn run (c.batch b) (m.batch b) = estimateOn run' c m := by
  unfold estimateOn
  simp only [loops_batch h]
  rfl

end Adaptive

end Sampling

end FailureProbability
