import FailureProbability.Random.Source

/-!
# Replayed numbers

A source that yields the numbers of a list, again and again. It takes them for uniform and for
normal numbers alike. With it a run can be followed on numbers that are known beforehand; results
about sources hold of it as of any other.
-/

namespace FailureProbability.Random

structure Replay (α : Type) where
  numbers : List α
  left : List α
  deriving Repr, BEq

namespace Replay

variable {α : Type} [Scalar α]

def new (numbers : List α) : Replay α := ⟨numbers, numbers⟩

/-- The next number; after the last one the first follows. An empty list yields zeros. -/
def next (s : Replay α) : α × Replay α :=
  match s.left, s.numbers with
  | x :: rest, _ => (x, { s with left := rest })
  | [], x :: rest => (x, { s with left := rest })
  | [], [] => (0, s)

instance : RandomSource (Replay α) α where
  uniform := next
  normal := next
  restart s := new s.numbers

end Replay

end FailureProbability.Random
