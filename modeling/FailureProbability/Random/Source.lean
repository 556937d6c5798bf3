import FailureProbability.Random.Words
import FailureProbability.Random.ZigguratTable
import FailureProbability.Scalar

/-!
# Random sources

What an estimator asks of randomness (`RandomSource`): uniform numbers of the open unit interval,
standard-normal numbers, and a way back to the beginning. `Seeded` answers from a stream of words: a
uniform number is the upper 53 bits of a word, a normal number is found by rejection from the layers
of the density (`ZigguratTable`).

An estimator draws vectors of normal numbers and nothing else. No result about estimators says how
these are distributed: sources are arbitrary there, and a statement holds for every stream of
numbers. That the rejection yields normal numbers is not stated.

Rejection may go on for ever in principle. The loops have an explicit number of tries, so that they
are functions.
-/

namespace FailureProbability

/-- A state `σ` that yields random numbers of type `α`. -/
class RandomSource (σ : Type) (α : Type) where
  /-- A number strictly between zero and one. -/
  uniform : σ → α × σ
  normal : σ → α × σ
  /-- The source at the beginning of its stream. -/
  restart : σ → σ

/-- The next `n` standard-normal numbers of a source, in order. -/
def RandomSource.normals {σ α : Type} [RandomSource σ α] : Nat → σ → List α × σ
  | 0, s => ([], s)
  | n + 1, s =>
    let (x, s) := RandomSource.normal s
    let (xs, s) := RandomSource.normals n s
    (x :: xs, s)

namespace Random

variable {α : Type} [Scalar α]

/-- Tries after which a rejection loop gives up; a stream of random words never gets there. -/
def tries : Nat := Nat.pow 2 40

/-- A word as a multiple of `2 ^ -53` in `[0, 1)`. -/
def unit (w : UInt64) : α := Scalar.ofNat (w >>> 11).toNat / 9007199254740992

/-- A word as an odd multiple of `2 ^ -53` in `(0, 1)`. -/
def openUnit (w : UInt64) : α := Scalar.ofNat (2 * (w >>> 12).toNat + 1) / 9007199254740992

/-- A word as a multiple of `2 ^ -51` in `[-1, 1)`. -/
def signedUnit (w : UInt64) : α := Scalar.ofNat (w >>> 12).toNat / 2251799813685248 - 1

def uniformFrom : Nat → Words → α × Words
  | 0, s => (0.5, s)
  | fuel + 1, s =>
    let (w, s) := s.next
    let v : α := unit w
    if 0 < v then (v, s) else uniformFrom fuel s

def abscissa (i : Nat) : α := OfScientific.ofScientific (abscissae.getD i 0) true 18

def densityAt (i : Nat) : α := OfScientific.ofScientific (densities.getD i 0) true 18

def tailStart : α := 3.654152885361008796

/-- The distance beyond `tailStart` of a point of the tail, as a negative number. -/
def tailFrom : Nat → Words → α × Words
  | 0, s => (0, s)
  | fuel + 1, s =>
    let (v, s) := s.next
    let (w, s) := s.next
    let x : α := Scalar.log (openUnit v) / tailStart
    let y : α := Scalar.log (openUnit w)
    if -2 * y < x * x then tailFrom fuel s else (x, s)

/-- A standard-normal number: a point of a random layer, kept if it lies under the density. -/
def normalFrom : Nat → Words → α × Words
  | 0, s => (0, s)
  | fuel + 1, s =>
    let (w, s) := s.next
    let i := w.toNat % 256
    let u : α := signedUnit w
    let x := u * abscissa i
    if Scalar.abs x < abscissa (i + 1) then (x, s)
    else if i = 0 then
      let (y, s) := tailFrom fuel s
      (if u < 0 then y - tailStart else tailStart - y, s)
    else
      let (v, s) := s.next
      let height := densityAt (i + 1) + (densityAt i - densityAt (i + 1)) * unit v
      if height < Scalar.exp (-x * x / 2) then (x, s) else normalFrom fuel s

/-- A seeded stream: where it began and where it is. -/
structure Seeded where
  generator : Generator
  seed : UInt64
  words : Words

def Seeded.new (generator : Generator) (seed : UInt64) : Seeded :=
  ⟨generator, seed, Words.seeded generator seed⟩

instance : RandomSource Seeded α where
  uniform s := let (x, w) := uniformFrom tries s.words; (x, { s with words := w })
  normal s := let (x, w) := normalFrom tries s.words; (x, { s with words := w })
  restart s := Seeded.new s.generator s.seed

end Random

end FailureProbability
