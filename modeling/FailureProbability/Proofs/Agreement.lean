import FailureProbability.Estimator
import FailureProbability.Proofs.Contract

/-!
# Agreement of runs

Two runs are related when, from whatever journals they begin, they fail with the same error or give
answers in a relation. The relation that matters for estimates leaves the evaluations that they took
out of account (`Estimate.Alike`); two outcomes agree in this sense when they are the same for a
user who does not ask for the work.

The journals that the two runs begin with need not be the same, and those that they leave are not
compared at all. Related runs may thus have evaluated different points and reported different
progress. A chain of related runs is related because the second runs are asked for any two journals,
which is more than the first runs guarantee; a monitor that listens to earlier reports has no place
here.
-/

namespace FailureProbability

variable {α β β' γ γ' : Type}

/-- The same error, or answers in a relation. -/
inductive Answers {ε : Type} (R : β → γ → Prop) : Except ε β → Except ε γ → Prop
  | ok {b : β} {c : γ} (h : R b c) : Answers R (.ok b) (.ok c)
  | error (e : ε) : Answers R (.error e) (.error e)

namespace Answers

variable {ε : Type} {R : β → γ → Prop}

theorem mono {S : β → γ → Prop} {x : Except ε β} {y : Except ε γ} (h : Answers R x y)
    (himp : ∀ b c, R b c → S b c) : Answers S x y := by
  cases h with
  | ok h => exact .ok (himp _ _ h)
  | error e => exact .error e

theorem of_eq {x y : Except ε β} (h : x = y) : Answers (fun b c => b = c) x y := by
  subst h
  cases x with
  | error e => exact .error e
  | ok b => exact .ok rfl

theorem bind {S : β' → γ' → Prop} {x : Except ε β} {y : Except ε γ} {f : β → Except ε β'}
    {g : γ → Except ε γ'} (h : Answers R x y) (hf : ∀ b c, R b c → Answers S (f b) (g c)) :
    Answers S (x >>= f) (y >>= g) := by
  cases h with
  | ok h => exact hf _ _ h
  | error e => exact .error e

theorem of_common {δ : Type} {S : γ → β → Prop} {T : δ → β → Prop} {Q : γ → δ → Prop}
    {x : Except ε γ} {y : Except ε δ} {z : Except ε β} (hx : Answers S x z) (hy : Answers T y z)
    (himp : ∀ b c a, S b a → T c a → Q b c) : Answers Q x y := by
  cases hx with
  | ok hx =>
    cases hy with
    | ok hy => exact .ok (himp _ _ _ hx hy)
  | error e =>
    cases hy with
    | error e => exact .error e

end Answers

/-! ## Estimates -/

namespace Estimate

/-- Two estimates are the same, apart from the evaluations that they took. -/
def Alike (a b : Estimate α) : Prop := { a with evaluations := 0 } = { b with evaluations := 0 }

theorem Alike.refl (a : Estimate α) : Alike a a := rfl

/-- Alike estimates differ in the evaluations only. -/
theorem Alike.exists_eq {a b : Estimate α} (h : Alike a b) : ∃ k, b = { a with evaluations := k } := by
  cases a
  cases b
  unfold Alike at h
  simp only [mk.injEq, and_true] at h
  obtain ⟨rfl, rfl, rfl, rfl, rfl, rfl⟩ := h
  exact ⟨_, rfl⟩

end Estimate

/-- Two outcomes are the same error or alike estimates. -/
abbrev Agree (a b : Except (Error α) (Estimate α)) : Prop := Answers Estimate.Alike a b

/-! ## Runs -/

namespace Run

/-- From any two journals the runs give related answers. -/
def Related (R : β → γ → Prop) (r : Run α β) (r' : Run α γ) : Prop :=
  ∀ j j', Answers R (r.exec j).1 (r'.exec j').1

variable {R : β → γ → Prop} {S : β' → γ' → Prop}

theorem related_pure {b : β} {c : γ} (h : R b c) : Related R (pure b : Run α β) (pure c) :=
  fun _ _ => .ok h

theorem related_ofExcept {x : Except (Error α) β} {y : Except (Error α) γ} (h : Answers R x y) :
    Related R (ofExcept x) (ofExcept y) :=
  fun _ _ => h

/-- Runs that are related stay so when related runs follow them. -/
theorem related_bind {r : Run α β} {r' : Run α γ} {f : β → Run α β'} {f' : γ → Run α γ'}
    (hr : Related R r r') (hf : ∀ b c, R b c → Related S (f b) (f' c)) :
    Related S (r >>= f) (r' >>= f') := by
  intro j j'
  have h := hr j j'
  rcases hj : r.exec j with ⟨x, j₁⟩
  rcases hj' : r'.exec j' with ⟨y, j₁'⟩
  rw [hj, hj'] at h
  cases h with
  | ok h =>
    rw [exec_bind_ok hj, exec_bind_ok hj']
    exact hf _ _ h _ _
  | error e =>
    rw [exec_bind_error hj, exec_bind_error hj']
    exact .error e

theorem Related.mono {S : β → γ → Prop} {r : Run α β} {r' : Run α γ} (h : Related R r r')
    (himp : ∀ b c, R b c → S b c) : Related S r r' :=
  fun j j' => (h j j').mono himp

theorem related_ite {c : Prop} [Decidable c] {r s : Run α β} {r' s' : Run α γ}
    (h : c → Related R r r') (h' : ¬c → Related R s s') :
    Related R (if c then r else s) (if c then r' else s') := by
  split
  · rename_i hc
    exact h hc
  · rename_i hc
    exact h' hc

theorem related_evaluations : Related (fun _ _ => True) (evaluations (α := α)) evaluations :=
  fun _ _ => .ok trivial

/-- Estimates of what was found and of the increase of the counter are alike if the same was
found. -/
theorem related_measured {r r' : Run α β} {g : β → Nat → Estimate α}
    (hr : Related (fun b c => b = c) r r') (hg : ∀ b k k', Estimate.Alike (g b k) (g b k')) :
    Related Estimate.Alike
      (do
        let before ← evaluations
        let b ← r
        let after ← evaluations
        return g b (after - before))
      (do
        let before ← evaluations
        let b ← r'
        let after ← evaluations
        return g b (after - before)) := by
  refine related_bind related_evaluations fun before before' _ => ?_
  refine related_bind hr fun b c hbc => ?_
  subst hbc
  refine related_bind related_evaluations fun after after' _ => ?_
  exact related_pure (hg b _ _)

theorem related_named {r r' : Run α (Estimate α)} (h : Related Estimate.Alike r r')
    (estimator : String) : Related Estimate.Alike (named estimator r) (named estimator r') := by
  intro j j'
  rw [exec_named, exec_named]
  dsimp only
  have hanswer := h j j'
  rcases hx : (r.exec j).1 with e | a <;> rcases hy : (r'.exec j').1 with e' | a' <;>
    rw [hx, hy] at hanswer <;> cases hanswer
  · exact .error _
  · exact .ok ‹_›

end Run

/-- A run that does the same from every journal is related to itself. -/
theorem Runs.Meets.related {mayFail : Prop} {r : Run α β} {P : β → Nat → Prop}
    (h : Meets mayFail r P) : Run.Related (fun b c => b = c) r r := by
  obtain ⟨x, k, hx, -⟩ := meets_iff.mp h
  intro j j'
  exact .of_eq ((hx j).1.trans (hx j').1.symm)

theorem RunWith.answers_ite {τ : Type} {R : β → γ → Prop} {c : Prop} [Decidable c]
    {r q : RunWith τ α β} {r' q' : RunWith τ α γ} {s s' : τ} {j j' : Journal α}
    (h : c → Answers R (r.exec s j).1 (r'.exec s' j').1)
    (h' : ¬c → Answers R (q.exec s j).1 (q'.exec s' j').1) :
    Answers R ((if c then r else q).exec s j).1 ((if c then r' else q').exec s' j').1 := by
  split
  · rename_i hc
    exact h hc
  · rename_i hc
    exact h' hc

end FailureProbability
