import FailureProbability.Model
import FailureProbability.Random.Source

/-!
# The supply of random vectors

A run takes its standard-normal vectors from a random source. The buffered engine draws several of
them ahead; those that are not yet used are pending. A circular supply keeps what is pending at the
end of a run for the next one, so that no draw is lost; otherwise it is thrown away. The supply
stays also when a run fails.

A supply is the state that a run carries beside the journal, and not part of what it returns: it is
handed on from run to run by whoever makes several of them. What is pending are vectors of
standard-normal numbers and no samples, so that the next run may have another density and another
limit state.
-/

namespace FailureProbability

namespace Sampling

/-- A random source `σ`, and the vectors drawn but not used. -/
structure Supply (σ α : Type) where
  source : σ
  pending : List (List α)
  /-- Does it keep what is pending at the end of a run? -/
  circular : Bool
  deriving Repr, BEq

namespace Supply

variable {σ α : Type}

def fresh (source : σ) (circular : Bool) : Supply σ α := ⟨source, [], circular⟩

def clear (s : Supply σ α) : Supply σ α := { s with pending := [] }

/-- The source at its beginning; what is pending stays. -/
def restart [RandomSource σ α] (s : Supply σ α) : Supply σ α :=
  { s with source := RandomSource.restart α s.source }

def settle (s : Supply σ α) : Supply σ α := if s.circular then s else s.clear

theorem settle_of_circular {s : Supply σ α} (h : s.circular = true) : s.settle = s := by
  simp [settle, h]

@[simp] theorem circular_settle (s : Supply σ α) : s.settle.circular = s.circular := by
  simp only [settle]
  split <;> rfl

end Supply

abbrev Sampler (σ α β : Type) := RunWith (Supply σ α) α β

namespace Sampler

variable {σ α β : Type}

abbrev lift (r : Run α β) : Sampler σ α β := RunWith.lift r

/-- The run with its supply given; what is left of it is dropped. -/
def withSupply (s : Supply σ α) (r : Sampler σ α β) : Run α β :=
  ExceptT.mk do
    let (result, _) ← r.run.run s
    return result

def draw [RandomSource σ α] (n : Nat) : Sampler σ α (List α) := do
  let s ← get
  let (eps, source) := RandomSource.normals n s.source
  set { s with source := source }
  return eps

def drawAll [RandomSource σ α] (n : Nat) : Nat → Sampler σ α (List (List α))
  | 0 => return []
  | count + 1 => do
    let eps ← draw n
    return eps :: (← drawAll n count)

end Sampler

end Sampling

end FailureProbability
