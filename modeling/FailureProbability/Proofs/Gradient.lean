import Mathlib
import FailureProbability.Proofs.Coordinates
import FailureProbability.Proofs.Cancellation

/-!
# Gradients

A gradient is a function of the limit state alone: a run that takes one and goes on has evaluated
the point and both neighbours in every coordinate, and nothing else has become of its journal. On
exact numbers the derivatives are the central differences, which for an affine limit state are its
slope, whatever the point and the step.

The values come back as one list, and each derivative has to find its own two. That those are the
values of the right neighbours is said once (`differences_map_eq_ok_iff`); later proofs speak of the
values at points and never of places in a list.

A run that fails has evaluated as well, and nothing is said here of how much (`Run.Computes`): an
error of the limit state ends it at any of the points, while a value that is not finite is found out
when all points have been evaluated.
-/

namespace FailureProbability

/-! ## Runs that compute -/

namespace Run

variable {α β γ ι : Type}

/-- Whenever the run answers, it gives a plain result and has taken so many evaluations; and it
answers whenever there is this result. -/
def Computes (r : Run α β) (x : Except (Error α) β) (k : ℕ) : Prop :=
  ∀ b j j', r.exec j = (.ok b, j') ↔ x = .ok b ∧ j' = j.spend k

theorem computes_ofExcept (x : Except (Error α) β) : Computes (ofExcept x) x 0 := by
  intro b j j'
  rw [exec_ofExcept, Prod.mk.injEq, Journal.spend_zero, eq_comm (a := j)]

theorem computes_pure (b : β) : Computes (pure b : Run α β) (.ok b) 0 := computes_ofExcept (.ok b)

/-- Runs that compute may be put one after the other. -/
theorem Computes.bind {r : Run α β} {x : Except (Error α) β} {f : β → Run α γ}
    {g : β → Except (Error α) γ} {k l : ℕ} (hr : Computes r x k)
    (hf : ∀ b, Computes (f b) (g b) l) : Computes (r >>= f) (x >>= g) (k + l) := by
  intro c j j'
  rw [exec_bind_eq_ok, bind_eq_ok]
  constructor
  · rintro ⟨b, j₁, hb, hc⟩
    obtain ⟨hx, rfl⟩ := (hr b j j₁).mp hb
    obtain ⟨hg, rfl⟩ := (hf b c _ j').mp hc
    exact ⟨⟨b, hx, hg⟩, j.spend_spend k l⟩
  · rintro ⟨⟨b, hx, hg⟩, rfl⟩
    exact ⟨b, _, (hr b j _).mpr ⟨hx, rfl⟩, (hf b c _ _).mpr ⟨hg, (j.spend_spend k l).symm⟩⟩

theorem Computes.mapM {f : ι → Run α β} {g : ι → Except (Error α) β} {k : ℕ}
    (h : ∀ i, Computes (f i) (g i) k) (l : List ι) :
    Computes (l.mapM f) (l.mapM g) (l.length * k) := by
  induction l with
  | nil =>
    rw [List.mapM_nil, List.mapM_nil, List.length_nil, Nat.zero_mul]
    exact computes_pure []
  | cons i l ih =>
    rw [List.mapM_cons, List.mapM_cons]
    have hall := (h i).bind fun b => ih.bind fun bs => computes_pure (b :: bs)
    rwa [Nat.add_zero, Nat.add_comm, ← Nat.succ_mul] at hall

/-- A run that computes fails where there is no result. -/
theorem Computes.fails_iff {r : Run α β} {x : Except (Error α) β} {k : ℕ} (h : Computes r x k)
    (j : Journal α) : (∃ e j', r.exec j = (.error e, j')) ↔ ¬∃ b, x = .ok b := by
  rcases hr : r.exec j with ⟨e | b, j'⟩
  · refine iff_of_true ⟨e, j', rfl⟩ ?_
    rintro ⟨b, hb⟩
    have hok := (h b j _).mpr ⟨hb, rfl⟩
    rw [hr] at hok
    cases hok
  · refine iff_of_false ?_ (not_not.mpr ⟨b, ((h b j j').mp hr).1⟩)
    rintro ⟨e, j'', he⟩
    cases he

end Run

namespace Model

/-! ## The gradient at a point -/

section

variable {α : Type} [Scalar α]

/-- The gradient at a point by differences of step `du`. -/
def gradientAt (m : Model α) (u : List α) (du : α) : Except (Error α) (Gradient α) := do
  let values ← (stencil u du).mapM m.rawValue
  differences u du values

theorem computes_evaluate (m : Model α) (u : List α) :
    Run.Computes (m.evaluate u) (m.rawValue u) 1 := by
  intro z j j'
  rw [exec_evaluate, Prod.mk.injEq, eq_comm (a := j')]
  refine and_congr_right fun h => ?_
  rw [h]
  rfl

/-- What a run knows of a gradient. -/
theorem computes_gradient (m : Model α) (u : List α) (du : α) :
    Run.Computes (m.gradient u du) (m.gradientAt u du) (2 * u.length + 1) := by
  have h := (Run.Computes.mapM m.computes_evaluate (stencil u du)).bind fun values =>
    Run.computes_ofExcept (differences u du values)
  rwa [length_stencil, Nat.mul_one, Nat.add_zero] at h

/-- Its cost depends on the dimension alone. -/
theorem evaluations_of_gradientAt {m : Model α} {u : List α} {du : α} {g : Gradient α}
    (h : m.gradientAt u du = .ok g) : g.evaluations = 2 * u.length + 1 := by
  obtain ⟨values, -, hg⟩ := bind_eq_ok.mp h
  rw [evaluations_of_differences hg, length_stencil]

/-- A gradient exists at points of the model only. -/
theorem length_of_gradientAt {m : Model α} {u : List α} {du : α} {g : Gradient α}
    (h : m.gradientAt u du = .ok g) : u.length = m.dimension := by
  obtain ⟨values, hvalues, -⟩ := bind_eq_ok.mp h
  obtain ⟨z, rest, hz, -⟩ := mapM_cons_eq_ok.mp hvalues
  exact length_of_rawValue hz

/-! ## Values at a stencil -/

theorem mem_stencil {u v : List α} {du : α} :
    v ∈ stencil u du ↔
      v = u ∨ ∃ i < u.length, v = u.modify i (· + du) ∨ v = u.modify i (· - du) := by
  simp [stencil]

/-- The derivatives of a function in all coordinates, by its differences. -/
def slopeOf (z : List α → α) (u : List α) (du : α) : Except (Error α) (List α) :=
  (List.range u.length).mapM fun i =>
    derivative du (z u) (z (u.modify i (· + du))) (z (u.modify i (· - du))) i

/-- In every coordinate the derivative is that of the neighbours in this coordinate: their values
are found at the places of their points. -/
theorem differences_map_eq_ok_iff (z : List α → α) (u : List α) (du : α) {g : Gradient α} :
    differences u du ((stencil u du).map z) = .ok g ↔ Scalar.isFinite (z u) = true ∧
      ∃ slope, slopeOf z u du = .ok slope ∧ g = ⟨z u, slope, 2 * u.length + 1⟩ := by
  have hcenter : ((stencil u du).map z).getD 0 0 = z u := rfl
  have hslope : ((List.range u.length).mapM fun i => derivative du (z u)
      (((stencil u du).map z).getD (1 + 2 * i) 0) (((stencil u du).map z).getD (2 + 2 * i) 0) i) =
        slopeOf z u du := by
    refine mapM_congr_of_mem fun i hi => ?_
    obtain ⟨habove, hbelow⟩ := getElem?_stencil u du (List.mem_range.mp hi)
    rw [List.getD_eq_getElem?_getD, List.getD_eq_getElem?_getD, List.getElem?_map,
      List.getElem?_map, habove, hbelow]
    rfl
  rw [differences_eq_ok_iff, hcenter, hslope]

/-- A gradient is there where the limit state is finite and has its derivatives. -/
theorem gradientAt_eq_ok_iff {m : Model α} {z : List α → α} {u : List α} {du : α}
    (hz : ∀ v ∈ stencil u du, m.rawValue v = .ok (z v)) {g : Gradient α} :
    m.gradientAt u du = .ok g ↔ Scalar.isFinite (z u) = true ∧
      ∃ slope, slopeOf z u du = .ok slope ∧ g = ⟨z u, slope, 2 * u.length + 1⟩ := by
  have hvalues : (stencil u du).mapM m.rawValue = .ok ((stencil u du).map z) :=
    mapM_eq_ok_map_of_mem hz
  rw [gradientAt, hvalues]
  exact differences_map_eq_ok_iff z u du

end

/-! ## Central differences -/

section

variable [SpecialFunctions] {m : Model ℝ}

/-- The limit state has the values of a function. -/
def HasValues (m : Model ℝ) (v : List ℝ → ℝ) : Prop :=
  ∀ u, u.length = m.dimension → m.rawValue u = .ok (v u)

/-- The derivative in a coordinate by the values on both sides. -/
noncomputable def centralDifference (v : List ℝ → ℝ) (u : List ℝ) (du : ℝ) (i : ℕ) : ℝ :=
  (v (u.modify i (· + du)) - v (u.modify i (· - du))) / (du + du)

/-- All numbers are finite here, so that both sides are there. -/
theorem derivative_eq (du z above below : ℝ) (i : ℕ) :
    derivative du z above below i = .ok ((above - below) / (du + du)) := by
  rw [← two_mul, ← Scalar.two_eq]
  rfl

/-- Where the limit state has a value everywhere, so has the gradient. -/
theorem gradientAt_eq {v : List ℝ → ℝ} (hv : m.HasValues v) {u : List ℝ}
    (hu : u.length = m.dimension) (du : ℝ) :
    m.gradientAt u du =
      .ok ⟨v u, (List.range u.length).map (centralDifference v u du), 2 * u.length + 1⟩ := by
  have hpoints : ∀ w ∈ stencil u du, m.rawValue w = .ok (v w) := by
    intro w hw
    refine hv w ?_
    obtain rfl | ⟨i, -, rfl | rfl⟩ := mem_stencil.mp hw
    · exact hu
    · rw [List.length_modify, hu]
    · rw [List.length_modify, hu]
  have hslope : slopeOf v u du = .ok ((List.range u.length).map (centralDifference v u du)) :=
    mapM_eq_ok_map (fun i => derivative_eq du _ _ _ i) _
  exact (gradientAt_eq_ok_iff hpoints).mpr ⟨rfl, _, hslope, rfl⟩

/-- The limit state is affine. -/
structure IsAffine (m : Model ℝ) (offset : ℝ) (slope : List ℝ) : Prop where
  length_slope : slope.length = m.dimension
  value : ∀ u, u.length = m.dimension →
    m.limitState (Draw.start m.setup u) = .ok (offset + Coordinates.dot slope u)

theorem IsAffine.hasValues {offset : ℝ} {slope : List ℝ} (h : m.IsAffine offset slope) :
    m.HasValues fun u => offset + Coordinates.dot slope u := by
  intro u hu
  have hdraw : m.draw u = .ok (Draw.start m.setup u) := if_pos hu
  exact bind_eq_ok.mpr ⟨_, hdraw, h.value u hu⟩

/-- Of an affine limit state the differences are exact. -/
theorem IsAffine.gradientAt_eq {offset : ℝ} {slope : List ℝ} (h : m.IsAffine offset slope)
    {u : List ℝ} (hu : u.length = m.dimension) {du : ℝ} (hdu : du ≠ 0) :
    m.gradientAt u du = .ok ⟨offset + Coordinates.dot slope u, slope, 2 * u.length + 1⟩ := by
  rw [Model.gradientAt_eq h.hasValues hu]
  refine congrArg (fun s => Except.ok (⟨_, s, _⟩ : Gradient ℝ))
    (List.ext_getElem ?_ fun i hi hi' => ?_)
  · rw [List.length_map, List.length_range, hu, h.length_slope]
  · rw [List.length_map, List.length_range] at hi
    have hbelow := Coordinates.dot_modify slope hi (-du)
    simp only [← sub_eq_add_neg] at hbelow
    rw [List.getElem_map, List.getElem_range, centralDifference, Coordinates.dot_modify slope hi,
      hbelow, List.getD_eq_getElem slope 0 hi']
    field_simp
    ring

end

end Model

end FailureProbability
