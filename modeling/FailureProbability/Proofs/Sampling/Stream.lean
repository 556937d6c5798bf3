import FailureProbability.Proofs.Execution
import FailureProbability.Random.Replay

/-!
# The stream of a random source

A source is a state, and what it yields from there on is a stream of vectors. `Yields n q vs s` says
that the next vectors from state `q` are `vs` and that the source is then in state `s`; such steps
compose (`Yields.append`), so that the vectors drawn by several runs, one after the other, are one
piece of the stream. A source rewinds when its beginning does not depend on what was drawn.

Nothing is said of the numbers, neither how they are distributed nor that they differ. All vectors
of a piece have the same length, which is fixed along with it: a source yields numbers, and where a
vector ends is a matter of who draws.
-/

namespace FailureProbability

namespace RandomSource

variable {σ α : Type} [RandomSource σ α]

/-- The next vectors of a source, in order, and the source after them. -/
def vectors (n : Nat) : Nat → σ → List (List α) × σ
  | 0, s => ([], s)
  | count + 1, s =>
    let (eps, s) := normals n s
    let (rest, s) := vectors n count s
    (eps :: rest, s)

/-- From one state the source yields these vectors, one after the other, and is then in the other
state. -/
def Yields (n : Nat) (q : σ) (vs : List (List α)) (s : σ) : Prop :=
  vectors n vs.length q = (vs, s)

theorem length_normals (n : Nat) (s : σ) : (normals n s : List α × σ).1.length = n := by
  induction n generalizing s with
  | zero => rfl
  | succ n ih =>
    show (normals n (normal s : α × σ).2 : List α × σ).1.length + 1 = n + 1
    rw [ih]

theorem length_vectors (n count : Nat) (s : σ) :
    (vectors n count s : List (List α) × σ).1.length = count := by
  induction count generalizing s with
  | zero => rfl
  | succ count ih =>
    show (vectors n count (normals n s : List α × σ).2 : List (List α) × σ).1.length + 1 = _
    rw [ih]

theorem yields_vectors (n count : Nat) (s : σ) :
    Yields n s (vectors n count s : List (List α) × σ).1
      (vectors n count s : List (List α) × σ).2 := by
  unfold Yields
  rw [length_vectors]

theorem yields_nil {n : Nat} {q s : σ} : Yields n q ([] : List (List α)) s ↔ q = s := by
  unfold Yields
  simp only [List.length_nil, vectors, Prod.mk.injEq, true_and]

theorem yields_of_eq_nil {n : Nat} {q : σ} {vs : List (List α)} (h : vs = []) :
    Yields n q vs q := by
  subst h
  exact yields_nil.mpr rfl

/-- The first vector, and then the others from where it has left the source. -/
theorem yields_cons {n : Nat} {q s : σ} {eps : List α} {vs : List (List α)} :
    Yields n q (eps :: vs) s ↔
      (normals n q : List α × σ).1 = eps ∧ Yields n (normals n q : List α × σ).2 vs s := by
  unfold Yields
  simp only [List.length_cons, vectors, Prod.mk.injEq, List.cons.injEq]
  constructor
  · rintro ⟨⟨heps, hvs⟩, hs⟩
    exact ⟨heps, Prod.ext hvs hs⟩
  · rintro ⟨heps, hvs⟩
    exact ⟨⟨heps, congrArg Prod.fst hvs⟩, congrArg Prod.snd hvs⟩

/-- What is yielded together is yielded one piece after the other. -/
theorem yields_append {n : Nat} {q r : σ} {vs ws : List (List α)} :
    Yields n q (vs ++ ws) r ↔ ∃ s, Yields n q vs s ∧ Yields n s ws r := by
  induction vs generalizing q with
  | nil =>
    constructor
    · intro h
      exact ⟨q, yields_nil.mpr rfl, h⟩
    · rintro ⟨s, hs, h⟩
      rw [yields_nil.mp hs]
      exact h
  | cons eps vs ih =>
    rw [List.cons_append, yields_cons, ih]
    constructor
    · rintro ⟨heps, s, hvs, hws⟩
      exact ⟨s, yields_cons.mpr ⟨heps, hvs⟩, hws⟩
    · rintro ⟨s, hvs, hws⟩
      obtain ⟨heps, hvs⟩ := yields_cons.mp hvs
      exact ⟨heps, s, hvs, hws⟩

theorem Yields.append {n : Nat} {q s r : σ} {vs ws : List (List α)} (hvs : Yields n q vs s)
    (hws : Yields n s ws r) : Yields n q (vs ++ ws) r := yields_append.mpr ⟨s, hvs, hws⟩

theorem Yields.length_eq {n : Nat} {q s : σ} {vs : List (List α)} (h : Yields n q vs s) :
    ∀ v ∈ vs, v.length = n := by
  induction vs generalizing q with
  | nil => intro v hv; exact absurd hv (by simp)
  | cons eps vs ih =>
    obtain ⟨rfl, hrest⟩ := yields_cons.mp h
    intro v hv
    rcases List.mem_cons.mp hv with rfl | hv
    · exact length_normals n q
    · exact ih hrest v hv

/-! ## Back to the beginning -/

/-- A source whose beginning stays the same while numbers are drawn. -/
class Rewinds (σ α : Type) [RandomSource σ α] : Prop where
  restart_normal : ∀ s : σ, restart α (normal s : α × σ).2 = restart α s

variable [Rewinds σ α]

/-- A vector leaves the beginning of its source where it was. -/
theorem restart_normals (n : Nat) (s : σ) :
    restart α (normals n s : List α × σ).2 = restart α s := by
  induction n generalizing s with
  | zero => rfl
  | succ n ih =>
    show restart α (normals n (normal s : α × σ).2 : List α × σ).2 = restart α s
    rw [ih, Rewinds.restart_normal]

theorem Yields.restart_eq {n : Nat} {q s : σ} {vs : List (List α)} (h : Yields n q vs s) :
    restart α s = restart α q := by
  induction vs generalizing q with
  | nil => rw [yields_nil.mp h]
  | cons eps vs ih =>
    obtain ⟨-, hrest⟩ := yields_cons.mp h
    rw [ih hrest, restart_normals]

end RandomSource

namespace Random

variable {α : Type} [Scalar α]

/-- A seeded stream keeps its seed. -/
instance : RandomSource.Rewinds Seeded α where
  restart_normal _ := rfl

/-- A replayed list keeps its numbers. -/
instance : RandomSource.Rewinds (Replay α) α where
  restart_normal s := by
    show Replay.new s.next.2.numbers = Replay.new s.numbers
    rw [Replay.next]
    split <;> rfl

end Random

namespace Sampling.Sampler

variable {σ α : Type} [RandomSource σ α]

/-- Drawing many vectors is drawing a piece of the stream. -/
theorem exec_drawAll (n count : Nat) (s : Supply σ α) (j : Journal α) :
    RunWith.exec (drawAll n count) s j =
      let (drawn, source) : List (List α) × σ := RandomSource.vectors n count s.source
      (.ok drawn, { s with source := source }, j) := by
  induction count generalizing s with
  | zero => rfl
  | succ count ih =>
    rw [drawAll, RunWith.exec_bind_ok (exec_draw n s j), RunWith.exec_bind_ok (ih _)]
    rfl

end Sampling.Sampler

end FailureProbability
