import FailureProbability.Proofs.Root.Bracket

/-!
# Marching along a ray

The march of a ray search visits the points of a grid: the multiples of the step, of which those
beyond the greatest length are cut to it. What it knows after some of them is stated here about the
points themselves (`March.Sees`): that all were zero so far, that a sign is known and no cell has
crossed, or that the last cell is the first one that crosses. Zeros at the beginning are no
crossing; the cells that count lie behind the first value that is not zero (`CrossesAt`).

A march keeps one point and the kind of its state, from which it could not tell where it began. The
grid is therefore defined apart from it, by multiplication (`Ray.abscissa`), while the march adds
one step to the next. That both come to the same points is where exact numbers are needed: sums of
steps that round drift away from the multiples.

Step and length are positive, as the settings of a ray have them.
-/

namespace FailureProbability.Root

variable [SpecialFunctions]

/-! ## Cells -/

/-- The cell between the points `k` and `k + 1` crosses, behind a point that is not zero. -/
def CrossesAt (p : ℕ → Point ℝ) (k : ℕ) : Prop :=
  (∃ j ≤ k, (p j).z ≠ 0) ∧ (p k).crosses (p (k + 1)) = true

/-- No cell before this one crosses. -/
def IsFirstCrossing (p : ℕ → Point ℝ) (k : ℕ) : Prop :=
  CrossesAt p k ∧ ∀ j < k, ¬CrossesAt p j

/-- The inner end of the first crossing is no zero, since the cell before it would have crossed. -/
theorem IsFirstCrossing.ne_zero {p : ℕ → Point ℝ} {k : ℕ} (h : IsFirstCrossing p k) :
    (p k).z ≠ 0 := by
  intro hzero
  obtain ⟨⟨⟨j, hj, hne⟩, -⟩, hfirst⟩ := h
  cases k with
  | zero =>
    rw [Nat.le_zero.mp hj] at hne
    exact hne hzero
  | succ k =>
    have hjk : j ≤ k := by
      refine Nat.le_of_lt_succ (lt_of_le_of_ne hj ?_)
      rintro rfl
      exact hne hzero
    refine hfirst k k.lt_succ_self ⟨⟨j, hjk, hne⟩, ?_⟩
    exact (Point.crosses_iff _ _).mpr (by simp [hzero])

theorem IsFirstCrossing.mul_nonpos {p : ℕ → Point ℝ} {k : ℕ} (h : IsFirstCrossing p k) :
    (p k).z * (p (k + 1)).z ≤ 0 :=
  (Point.crosses_iff _ _).mp h.1.2

/-! ## The grid of a ray -/

namespace Ray

/-- The abscissas of the grid. -/
noncomputable def abscissa (ray : Ray ℝ) (k : ℕ) : ℝ := min (k * ray.step) ray.maxLength

/-- The points of the grid; the value at the origin is known. -/
noncomputable def point (ray : Ray ℝ) (z0 : ℝ) (f : ℝ → ℝ) : ℕ → Point ℝ
  | 0 => ⟨0, z0⟩
  | k + 1 => ⟨ray.abscissa (k + 1), f (ray.abscissa (k + 1))⟩

variable {ray : Ray ℝ} {z0 : ℝ} {f : ℝ → ℝ} {k : ℕ}

omit [SpecialFunctions]

theorem abscissa_le (ray : Ray ℝ) (k : ℕ) : ray.abscissa k ≤ ray.maxLength := min_le_right _ _

theorem abscissa_zero (hlength : 0 < ray.maxLength) : ray.abscissa 0 = 0 := by
  simp [abscissa, hlength.le]

theorem abscissa_mono (hstep : 0 < ray.step) : Monotone ray.abscissa := by
  intro j k hjk
  refine min_le_min_right _ ?_
  exact mul_le_mul_of_nonneg_right (Nat.cast_le.mpr hjk) hstep.le

theorem abscissa_nonneg (hstep : 0 < ray.step) (hlength : 0 < ray.maxLength) (k : ℕ) :
    0 ≤ ray.abscissa k := by
  rw [← abscissa_zero hlength]
  exact abscissa_mono hstep (Nat.zero_le k)

/-- Before the end the next abscissa is one step away, or it is the end. -/
theorem abscissa_succ (hlt : ray.abscissa k < ray.maxLength) :
    ray.abscissa (k + 1) = min (ray.abscissa k + ray.step) ray.maxLength := by
  have hk : ray.abscissa k = k * ray.step :=
    min_eq_left ((min_lt_iff.mp hlt).resolve_right (lt_irrefl _)).le
  rw [hk, abscissa]
  congr 1
  push_cast
  ring

/-- Before the end the grid goes on. -/
theorem abscissa_lt_succ (hstep : 0 < ray.step) (hlt : ray.abscissa k < ray.maxLength) :
    ray.abscissa k < ray.abscissa (k + 1) := by
  rw [abscissa_succ hlt]
  exact lt_min (by linarith) hlt

theorem x_point (hlength : 0 < ray.maxLength) (k : ℕ) : (ray.point z0 f k).x = ray.abscissa k := by
  cases k with
  | zero => exact (abscissa_zero hlength).symm
  | succ k => rfl

/-- The value at an abscissa of the ray. -/
noncomputable def value (z0 : ℝ) (f : ℝ → ℝ) (x : ℝ) : ℝ := if x = 0 then z0 else f x

theorem value_of_pos {x : ℝ} (h : 0 < x) : value z0 f x = f x := if_neg h.ne'

/-- Every point of a march has the value of the function at its abscissa. -/
theorem z_point (hstep : 0 < ray.step) (hlength : 0 < ray.maxLength) (k : ℕ) :
    (ray.point z0 f k).z = value z0 f (ray.point z0 f k).x := by
  cases k with
  | zero => exact (if_pos rfl).symm
  | succ k =>
    have hpos : 0 < ray.abscissa (k + 1) := by
      have hzero : ray.abscissa 0 = 0 := abscissa_zero hlength
      calc 0 = ray.abscissa 0 := hzero.symm
        _ < ray.abscissa 1 := abscissa_lt_succ hstep (hzero ▸ hlength)
        _ ≤ ray.abscissa (k + 1) := abscissa_mono hstep (Nat.le_add_left 1 k)
    exact (value_of_pos hpos).symm

end Ray

/-! ## What a march knows -/

namespace March

/-- What a march knows that has seen the points `0, …, k`. -/
inductive Sees (p : ℕ → Point ℝ) : ℕ → March ℝ → Prop
  | level {k : ℕ} (hzero : ∀ j ≤ k, (p j).z = 0) : Sees p k (.level (some (p k)))
  | onSide {k : ℕ} (hside : (p k).z ≠ 0) (hno : ∀ j < k, ¬CrossesAt p j) : Sees p k (.onSide (p k))
  | crossed {k : ℕ} (hfirst : IsFirstCrossing p k) :
      Sees p (k + 1) (.crossed (p k) (p (k + 1)) (p (k + 1)))

variable {p : ℕ → Point ℝ} {k : ℕ} {s : March ℝ}

/-- Before its first step a march knows the value at the origin. -/
theorem sees_start (p : ℕ → Point ℝ) : Sees p 0 (ofPoints [p 0]) := by
  show Sees p 0 (observe (.level none) (p 0))
  simp only [observe]
  split
  case isTrue hzero =>
    rw [Scalar.zero_eq, beq_zero_iff] at hzero
    exact .level fun j hj => Nat.le_zero.mp hj ▸ hzero
  case isFalse hside =>
    rw [Scalar.zero_eq, beq_zero_iff] at hside
    exact .onSide hside fun j hj => absurd hj (Nat.not_lt_zero j)

/-- One more point. -/
theorem Sees.observe (h : Sees p k s) (hun : s.crossing? = none) :
    Sees p (k + 1) (s.observe (p (k + 1))) := by
  cases h with
  | level hzero =>
    simp only [March.observe]
    split
    case isTrue hnext =>
      rw [Scalar.zero_eq, beq_zero_iff] at hnext
      exact .level fun j hj => (Nat.le_succ_iff.mp hj).elim (hzero j) fun h => h ▸ hnext
    case isFalse hside =>
      rw [Scalar.zero_eq, beq_zero_iff] at hside
      refine .onSide hside fun j hj hcross => ?_
      -- A cell among zeros does not count.
      obtain ⟨⟨i, hi, hne⟩, -⟩ := hcross
      exact hne (hzero i (hi.trans (Nat.le_of_lt_succ hj)))
  | onSide hside hno =>
    simp only [March.observe]
    split
    case isTrue hcross => exact .crossed ⟨⟨⟨k, le_rfl, hside⟩, hcross⟩, hno⟩
    case isFalse hsame =>
      refine .onSide ?_ fun j hj => ?_
      · intro hzero
        exact hsame ((Point.crosses_iff _ _).mpr (by simp [hzero]))
      · rcases Nat.lt_succ_iff_lt_or_eq.mp hj with hlt | rfl
        · exact hno j hlt
        · exact fun hcross => hsame hcross.2
  | crossed hfirst => cases hun

theorem Sees.last_of_uncrossed (h : Sees p k s) (hun : s.crossing? = none) :
    s.last? = some (p k) := by
  cases h with
  | level => rfl
  | onSide => rfl
  | crossed => cases hun

theorem Sees.not_crossesAt (h : Sees p k s) (hun : s.crossing? = none) :
    ∀ j < k, ¬CrossesAt p j := by
  cases h with
  | level hzero =>
    intro j hj hcross
    obtain ⟨⟨i, hi, hne⟩, -⟩ := hcross
    exact hne (hzero i (hi.trans hj.le))
  | onSide _ hno => exact hno
  | crossed => cases hun

/-! ## The march of a ray -/

variable {ray : Ray ℝ} {z0 : ℝ} {f : ℝ → ℝ} (hstep : 0 < ray.step) (hlength : 0 < ray.maxLength)
include hstep hlength

/-- As long as nothing has crossed the next point of the grid is proposed, up to the end. -/
theorem proposal?_of_uncrossed (h : Sees (ray.point z0 f) k s) (hun : s.crossing? = none) :
    s.proposal? ray.step ray.maxLength =
      if ray.abscissa k = ray.maxLength then none else some (ray.abscissa (k + 1)) := by
  have hnever : ¬ray.step ≤ 0 := not_le.mpr hstep
  unfold proposal?
  rw [h.last_of_uncrossed hun, Option.bind_some, Ray.x_point hlength, Scalar.zero_eq, Scalar.min_eq]
  by_cases hend : ray.abscissa k = ray.maxLength
  · rw [if_pos (.inl hend.ge), if_pos hend]
  · have hlt : ray.abscissa k < ray.maxLength := lt_of_le_of_ne (ray.abscissa_le k) hend
    rw [if_neg (not_or.mpr ⟨not_le.mpr hlt, hnever⟩), if_neg hend, Ray.abscissa_succ hlt]

omit hstep hlength in
theorem proposal?_of_crossed {step maxX : ℝ} (hcross : s.crossing? ≠ none) :
    s.proposal? step maxX = none := by
  cases s with
  | level last => exact absurd rfl hcross
  | onSide last => exact absurd rfl hcross
  | crossed before after last => rfl

/-- A march that proposes nothing, though nothing has crossed, is at the end of the ray. -/
theorem abscissa_eq_of_no_proposal (h : Sees (ray.point z0 f) k s) (hun : s.crossing? = none)
    (hnext : s.proposal? ray.step ray.maxLength = none) : ray.abscissa k = ray.maxLength := by
  rw [proposal?_of_uncrossed hstep hlength h hun] at hnext
  by_contra hend
  simp [hend] at hnext

/-- What is proposed is the next point of the grid, and only as long as nothing has crossed. -/
theorem eq_abscissa_of_proposal (h : Sees (ray.point z0 f) k s) {x : ℝ}
    (hnext : s.proposal? ray.step ray.maxLength = some x) :
    s.crossing? = none ∧ x = ray.abscissa (k + 1) := by
  have hun : s.crossing? = none := by
    by_contra hcross
    simp [proposal?_of_crossed hcross] at hnext
  refine ⟨hun, ?_⟩
  rw [proposal?_of_uncrossed hstep hlength h hun] at hnext
  split at hnext
  · cases hnext
  · exact (Option.some.inj hnext).symm

/-- A march goes on over the grid until a cell crosses, the end is reached or the budget is
spent. -/
theorem exists_advance_eq_asking (budget : ℕ) (hs : Sees (ray.point z0 f) k s) :
    ∃ n ≤ budget, ∃ t, Sees (ray.point z0 f) (k + n) t ∧
      (t.crossing? = none → n = budget ∨ ray.abscissa (k + n) = ray.maxLength) ∧
      ∀ {M : Type → Type} [Monad M] [LawfulMonad M] {F : ℝ → M ℝ}, Answers F f → ∀ spent,
        advance ray.step ray.maxLength F budget spent s =
          asking F ((List.range n).map fun i => ray.abscissa (k + i + 1))
            ⟨t, spent + n, (t.proposal? ray.step ray.maxLength).isNone⟩ := by
  induction budget generalizing k s with
  | zero => exact ⟨0, le_rfl, s, hs, fun _ => .inl rfl, fun _ _ => rfl⟩
  | succ budget ih =>
    cases hnext : s.proposal? ray.step ray.maxLength with
    | none =>
      refine ⟨0, Nat.zero_le _, s, hs, fun hun => .inr ?_, fun _ spent => ?_⟩
      · exact abscissa_eq_of_no_proposal hstep hlength hs hun hnext
      · simp [advance, asking, hnext]
    | some x =>
      obtain ⟨hun, rfl⟩ := eq_abscissa_of_proposal hstep hlength hs hnext
      obtain ⟨n, hn, t, ht, hlast, heq⟩ := ih (hs.observe hun)
      have hcount : k + 1 + n = k + (n + 1) := by omega
      rw [hcount] at ht hlast
      refine ⟨n + 1, Nat.succ_le_succ hn, t, ht, ?_, ?_⟩
      · exact fun hcross => (hlast hcross).imp_left (congrArg Nat.succ)
      · intro M _ _ F hF spent
        have hspent : spent + (n + 1) = spent + 1 + n := by omega
        have hshift : (fun i => ray.abscissa (k + i + 1)) ∘ Nat.succ =
            fun i => ray.abscissa (k + 1 + i + 1) := by
          funext i
          rw [Function.comp_apply, Nat.add_right_comm k 1 i]
          rfl
        rw [advance, hnext, List.range_succ_eq_map, List.map_cons, List.map_map, hspent, hshift]
        dsimp only
        rw [hF.bind, asking]
        exact congrArg _ (funext fun _ => heq hF (spent + 1))

end March

end FailureProbability.Root
