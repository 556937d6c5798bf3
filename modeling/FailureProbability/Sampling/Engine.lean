import FailureProbability.Sampling.Density
import FailureProbability.Sampling.Supply
import FailureProbability.Sampling.Tally

/-!
# Sampling engines

Two engines draw samples, evaluate the limit state and tally the values until the run settles. The
sequential engine works on one sample at a time. The buffered engine evaluates all pending samples
together and then tallies them in the order in which they were drawn, so that it sees the same
samples and stops at the same one; it may have evaluated further ones by then.

A run fails with the first sample that has no finite value. For the buffered engine that may be a
sample that the sequential one never comes to, because it stops before; so the two need not fail
together, and what they have in common is stated of runs that answer.

A sample leaves the supply when it is tallied and not when it is evaluated. Samples that were
evaluated in vain stay pending, and the next run on a circular supply evaluates them again, perhaps
as samples of another density.
-/

namespace FailureProbability

namespace Sampling

/-- The tally of a run, how it ended, and the evaluations that it took. -/
structure Outcome (α : Type) where
  tally : Tally α
  status : Status
  evaluations : Nat
  deriving Repr, BEq

variable {σ α : Type} [Scalar α] [RandomSource σ α]

def Outcome.estimate (o : Outcome α) (m : Model α) (method : String) (alpha : AlphaEstimate) :
    Run α (Estimate α) := do
  let d := o.tally.direction m.dimension alpha
  let u := d.designPoint
  let x ← Run.ofExcept (m.x u)
  return ⟨o.status, d, x, u, method, o.tally.count, o.evaluations⟩

/-- Reports on a tally and tells how the run ends, if it ends here. -/
def Config.judge (c : Config α) (m : Model α) (t : Tally α) : Run α (Option Status) :=
  c.settle m t.count t.pf t.covarFailure t.covarNoFailure

def counted (run : Sampler σ α (Tally α × Status)) : Sampler σ α (Outcome α) := do
  let before ← Sampler.lift Run.evaluations
  let (tally, status) ← run
  let after ← Sampler.lift Run.evaluations
  return ⟨tally, status, after - before⟩

/-! ## One sample at a time -/

/-- Draws, evaluates and tallies single samples until the run settles. -/
def single (m : Model α) (c : Config α) (d : Density α) :
    Nat → Tally α → Sampler σ α (Tally α × Status)
  | 0, t => return (t, .noConvergence)
  | fuel + 1, t => do
    let eps ← Sampler.draw m.dimension
    let (u, w) := d.sample eps
    let z ← Sampler.lift (m.z u)
    let t := t.add u z w
    match ← Sampler.lift (c.judge m t) with
    | some status => return (t, status)
    | none => single m c d fuel t

def sequential (m : Model α) (c : Config α) (d : Density α) : Sampler σ α (Outcome α) :=
  counted (single m c d c.fuel .empty)

/-! ## Several samples together -/

structure Sample (α : Type) where
  u : List α
  weight : α
  z : α
  deriving Repr, BEq

/-- Draws vectors if none is pending: as many as are evaluated together, but no more than the
budget still allows. It draws one at least, without which a run on no budget would not end. -/
def refill (m : Model α) (c : Config α) (t : Tally α) : Sampler σ α Unit := do
  let s ← get
  if s.pending.isEmpty then
    let drawn ← Sampler.drawAll m.dimension
      (Nat.max (Nat.min (c.chunk m.threads) (c.maxSamples - t.count)) 1)
    modify fun s => { s with pending := drawn }

def evaluatePending (m : Model α) (d : Density α) : Sampler σ α (List (Sample α)) := do
  let samples := (← get).pending.map d.sample
  let zs ← Sampler.lift (m.zAll (samples.map (·.1)))
  return List.zipWith (fun s z => ⟨s.1, s.2, z⟩) samples zs

/-- Tallies evaluated samples, each of which is then no longer pending, until the run settles. -/
def consume (m : Model α) (c : Config α) :
    List (Sample α) → Tally α → Sampler σ α (Tally α × Option Status)
  | [], t => return (t, none)
  | s :: rest, t => do
    modify fun p => { p with pending := p.pending.drop 1 }
    let t := t.add s.u s.z s.weight
    match ← Sampler.lift (c.judge m t) with
    | some status => return (t, some status)
    | none => consume m c rest t

/-- Draws, evaluates and tallies samples until the run settles. -/
def rounds (m : Model α) (c : Config α) (d : Density α) :
    Nat → Tally α → Sampler σ α (Tally α × Status)
  | 0, t => return (t, .noConvergence)
  | fuel + 1, t => do
    refill m c t
    let samples ← evaluatePending m d
    match ← consume m c samples t with
    | (t, some status) =>
      modify Supply.settle
      return (t, status)
    | (t, none) => rounds m c d fuel t

def buffered (m : Model α) (c : Config α) (d : Density α) : Sampler σ α (Outcome α) :=
  counted (rounds m c d c.fuel .empty)

/-- The engine that the settings ask for, on a fresh supply. -/
def runFresh (m : Model α) (c : Config α) (d : Density α) : Run α (Outcome α) :=
  Sampler.withSupply (Supply.fresh c.source false)
    (if c.buffered then buffered m c d else sequential m c d)

end Sampling

end FailureProbability
