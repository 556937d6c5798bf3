import Mathlib
import FailureProbability.Proofs.Gradient
import FailureProbability.Proofs.Scalar.Partial

/-!
# Exact gradients

A gradient by differences fails only where it knows too little: where the limit state is not finite
at the point, or in some coordinate on neither side. Where it does not fail it is exact for all
limit states that differences of its order can tell apart: for polynomials of degree two if both
sides are known everywhere, and for affine ones with whatever sides are known.

Exact arithmetic is that of a scalar that contains the real numbers (`Scalar.IsExact`), and it may
contain more: a value that is not finite has to come from somewhere. The limit state is asked for
answers at the points of the model with real coordinates, and for no others (`AnswersEverywhere`).
So it may read the physical values of its draw, or its correlated coordinates, which a draw of this
setup has at each of these points. Which function it agrees with is asked only where it is finite.

Steps are positive, as settings have them; only that they are not zero is used.
-/

namespace FailureProbability

open MvPolynomial (eval pderiv monomial)

/-! ## Differences of polynomials

By linearity a polynomial is taken apart into monomials, and a monomial into the power of one
variable and a factor without it. A step in the variable only meets the power, which is of degree
two at most. -/

section

variable {ι : Type} [DecidableEq ι]

/-- Up to degree two, the central difference of a power is its derivative. -/
theorem pow_central_difference {k : ℕ} (hk : k ≤ 2) (x h : ℝ) :
    (x + h) ^ k - (x - h) ^ k = 2 * h * (k * x ^ (k - 1)) := by
  interval_cases k <;> norm_num <;> ring

omit [DecidableEq ι] in
/-- A monomial without one of its variables, and the power of this variable. -/
theorem eval_monomial_split (s : ι →₀ ℕ) (a : ℝ) (x : ι → ℝ) (i : ι) :
    eval x (monomial s a) = eval x (monomial (s.erase i) a) * x i ^ s i := by
  rw [MvPolynomial.eval_monomial, MvPolynomial.eval_monomial,
    ← Finsupp.mul_prod_erase' s i (fun n e => x n ^ e) fun n => pow_zero (x n)]
  ring

/-- Other variables do not see a step in this one. -/
theorem eval_monomial_step (s : ι →₀ ℕ) (a : ℝ) (x : ι → ℝ) (i : ι) (h : ℝ) :
    eval (x + Pi.single i h) (monomial s a) =
      eval x (monomial (s.erase i) a) * (x i + h) ^ s i := by
  rw [eval_monomial_split s a _ i, Pi.add_apply, Pi.single_eq_same, MvPolynomial.eval_monomial,
    MvPolynomial.eval_monomial]
  congr 2
  refine Finsupp.prod_congr fun k hk => ?_
  have hne : k ≠ i := by
    rintro rfl
    exact Finsupp.mem_support_iff.mp hk Finsupp.erase_same
  rw [Pi.add_apply, Pi.single_eq_of_ne hne, add_zero]

theorem eval_pderiv_monomial (s : ι →₀ ℕ) (a : ℝ) (x : ι → ℝ) (i : ι) :
    eval x (pderiv i (monomial s a)) =
      eval x (monomial (s.erase i) a) * (s i * x i ^ (s i - 1)) := by
  have herase : (s - Finsupp.single i 1).erase i = s.erase i := by
    ext k
    by_cases hk : k = i
    · simp [hk]
    · simp [Finsupp.erase_ne hk, Ne.symm hk]
  rw [MvPolynomial.pderiv_monomial, eval_monomial_split _ _ x i, herase, Finsupp.tsub_apply,
    Finsupp.single_eq_same, MvPolynomial.eval_monomial, MvPolynomial.eval_monomial]
  ring

/-- Of a polynomial of degree two the central difference is the derivative. -/
theorem eval_central_difference {p : MvPolynomial ι ℝ} (hp : p.totalDegree ≤ 2) (x : ι → ℝ) (i : ι)
    (h : ℝ) :
    eval (x + Pi.single i h) p - eval (x + Pi.single i (-h)) p = 2 * h * eval x (pderiv i p) := by
  have hdegree := MvPolynomial.degreeOf_le_iff.mp
    ((MvPolynomial.degreeOf_le_totalDegree p i).trans hp)
  rw [MvPolynomial.as_sum p, map_sum, map_sum, map_sum, map_sum, Finset.mul_sum,
    ← Finset.sum_sub_distrib]
  refine Finset.sum_congr rfl fun s hs => ?_
  rw [eval_monomial_step, eval_monomial_step, eval_pderiv_monomial, ← mul_sub, ← sub_eq_add_neg,
    pow_central_difference (hdegree s hs)]
  ring

end

/-! ## Lists -/

section

variable {β γ ε : Type}

/-- The results of a list are those of its members. -/
theorem forall₂_of_mapM {f : β → Except ε γ} {l : List β} {bs : List γ} (h : l.mapM f = .ok bs) :
    List.Forall₂ (fun a b => f a = .ok b) l bs := by
  induction l generalizing bs with
  | nil =>
    cases h
    exact .nil
  | cons a l ih =>
    obtain ⟨b, bs, hb, hbs, rfl⟩ := mapM_cons_eq_ok.mp h
    exact .cons hb (ih hbs)

theorem modify_map {f : β → γ} {g : β → β} {k : γ → γ} (h : ∀ a, k (f a) = f (g a)) (l : List β)
    (i : ℕ) : (l.map f).modify i k = (l.modify i g).map f := by
  induction l generalizing i with
  | nil => simp
  | cons a l ih =>
    cases i with
    | zero => simp [h]
    | succ i => simp [ih]

end

namespace Model

/-! ## Gradients that fail

Which gradients fail is told by the values alone, and arithmetic is arbitrary here: nothing has to
be added up to see whether a value is finite. -/

section

variable {α : Type} [Scalar α] {m : Model α}

/-- The limit state is finite at a point. -/
def FiniteAt (m : Model α) (u : List α) : Prop := ∃ z, m.value u = .ok z

theorem value_eq_ok_iff {u : List α} {z y : α} (hz : m.rawValue u = .ok z) :
    m.value u = .ok y ↔ Scalar.isFinite z = true ∧ y = z := by
  rw [value, hz]
  exact checkFinite_eq_ok_iff

theorem finiteAt_iff {u : List α} {z : α} (hz : m.rawValue u = .ok z) :
    m.FiniteAt u ↔ Scalar.isFinite z = true := by
  simp only [FiniteAt, value_eq_ok_iff hz, exists_and_left, exists_eq, and_true]

/-- One side is enough for a derivative. -/
theorem exists_derivative_iff (du z above below : α) (i : ℕ) :
    (∃ s, derivative du z above below i = .ok s) ↔
      Scalar.isFinite above = true ∨ Scalar.isFinite below = true := by
  unfold derivative
  cases Scalar.isFinite above <;> cases Scalar.isFinite below <;> simp

/-- A gradient is there just when the limit state is finite at the point, and in every coordinate on
one side at least. -/
theorem exists_gradientAt_iff {z : List α → α} {u : List α} {du : α}
    (hz : ∀ v ∈ stencil u du, m.rawValue v = .ok (z v)) :
    (∃ g, m.gradientAt u du = .ok g) ↔ m.FiniteAt u ∧ ∀ i < u.length,
      m.FiniteAt (u.modify i (· + du)) ∨ m.FiniteAt (u.modify i (· - du)) := by
  have habove : ∀ i < u.length, m.FiniteAt (u.modify i (· + du)) ↔
      Scalar.isFinite (z (u.modify i (· + du))) = true :=
    fun i hi => finiteAt_iff (hz _ (mem_stencil.mpr (.inr ⟨i, hi, .inl rfl⟩)))
  have hbelow : ∀ i < u.length, m.FiniteAt (u.modify i (· - du)) ↔
      Scalar.isFinite (z (u.modify i (· - du))) = true :=
    fun i hi => finiteAt_iff (hz _ (mem_stencil.mpr (.inr ⟨i, hi, .inr rfl⟩)))
  simp only [gradientAt_eq_ok_iff hz, finiteAt_iff (hz u (mem_stencil.mpr (.inl rfl)))]
  constructor
  · rintro ⟨g, hfinite, slope, hs, -⟩
    refine ⟨hfinite, fun i hi => ?_⟩
    rw [habove i hi, hbelow i hi]
    exact (exists_derivative_iff ..).mp (exists_mapM_iff.mp ⟨slope, hs⟩ i (List.mem_range.mpr hi))
  · rintro ⟨hfinite, hsides⟩
    obtain ⟨slope, hs⟩ := exists_mapM_iff.mpr fun i hi => by
      have hside := hsides i (List.mem_range.mp hi)
      rw [habove i (List.mem_range.mp hi), hbelow i (List.mem_range.mp hi)] at hside
      exact (exists_derivative_iff du (z u) _ _ i).mpr hside
    exact ⟨_, hfinite, slope, hs, rfl⟩

end

/-! ## Derivatives in exact arithmetic -/

section

variable {α : Type} [Scalar α] {real : ℝ → α} (hreal : Scalar.IsExact real) {du : ℝ} (hdu : du ≠ 0)
include hreal

theorem isFinite_real (x : ℝ) : Scalar.isFinite (real x) = true :=
  (hreal.isFinite_iff _).mpr ⟨x, rfl⟩

include hdu

theorem derivative_central {z x y c : ℝ} (hc : x - y = 2 * du * c) (i : ℕ) :
    derivative (real du) (real z) (real x) (real y) i = .ok (real c) := by
  have htwo : (2 : α) * real du = real (2 * du) := by
    rw [← hreal.mul, ← Nat.cast_two, ← hreal.ofNat]
    rfl
  unfold derivative
  rw [isFinite_real hreal, isFinite_real hreal]
  dsimp only
  rw [htwo, hreal.sub, hreal.div _ _ (mul_ne_zero two_ne_zero hdu), hc,
    mul_div_cancel_left₀ c (mul_ne_zero two_ne_zero hdu)]

/-- Where the values that are there lie on a line, each difference is its slope. -/
theorem derivative_affine {z c : ℝ} {above below s : α} {i : ℕ}
    (habove : Scalar.isFinite above = true → above = real (z + du * c))
    (hbelow : Scalar.isFinite below = true → below = real (z - du * c))
    (h : derivative (real du) (real z) above below i = .ok s) : s = real c := by
  cases hup : Scalar.isFinite above <;> cases hdown : Scalar.isFinite below
  · have hsome := (exists_derivative_iff (real du) (real z) above below i).mp ⟨s, h⟩
    rw [hup, hdown] at hsome
    simp at hsome
  · obtain rfl := hbelow hdown
    unfold derivative at h
    rw [hup, hdown] at h
    cases h
    rw [hreal.sub, hreal.div _ _ hdu, sub_sub_cancel, mul_div_cancel_left₀ c hdu]
  · obtain rfl := habove hup
    unfold derivative at h
    rw [hup, hdown] at h
    cases h
    rw [hreal.sub, hreal.div _ _ hdu, add_sub_cancel_left, mul_div_cancel_left₀ c hdu]
  · obtain rfl := habove hup
    obtain rfl := hbelow hdown
    rw [derivative_central hreal hdu (c := c) (by ring)] at h
    exact (Except.ok.inj h).symm

end

/-! ## Gradients in exact arithmetic

A point of the model with real coordinates is a point of real space, by its coordinates. Steps of
the code are steps there, and so the values of the stencil are those of the function at points that
differ in one coordinate. -/

/-- The coordinates of a point. -/
def coordinates (n : ℕ) (u : List ℝ) : Fin n → ℝ := fun k => u.getD k 0

/-- A step in one coordinate. -/
theorem coordinates_modify {n : ℕ} {u : List ℝ} (hu : u.length = n) (i : Fin n) (step : ℝ) :
    coordinates n (u.modify i (· + step)) = coordinates n u + Pi.single i step := by
  funext k
  have hk : k < u.length := hu ▸ k.isLt
  rw [Pi.add_apply, coordinates, coordinates, List.getD_eq_getElem?_getD, List.getElem?_modify,
    List.getD_eq_getElem u 0 hk, List.getElem?_eq_getElem hk]
  by_cases hik : i = k
  · simp [hik]
  · have hne : (i : ℕ) ≠ k := fun h => hik (Fin.ext h)
    simp [hne, Pi.single_eq_of_ne (Ne.symm hik)]

theorem coordinates_modify_sub {n : ℕ} {u : List ℝ} (hu : u.length = n) (i : Fin n) (step : ℝ) :
    coordinates n (u.modify i (· - step)) = coordinates n u + Pi.single i (-step) := by
  simp only [sub_eq_add_neg]
  exact coordinates_modify hu i (-step)

section

variable {α : Type} [Scalar α]

/-- The limit state raises no error at a point of the model; its value need not be finite. -/
def AnswersEverywhere (m : Model α) (real : ℝ → α) : Prop :=
  ∀ u : List ℝ, u.length = m.dimension →
    ∃ z, m.limitState (Draw.start m.setup (u.map real)) = .ok z

/-- Wherever it is finite, the limit state has the values of a function. -/
def Agrees (m : Model α) (real : ℝ → α) (f : (Fin m.dimension → ℝ) → ℝ) : Prop :=
  ∀ u z, m.value (u.map real) = .ok z → z = real (f (coordinates m.dimension u))

/-- A gradient whose derivatives are known one by one is known. -/
theorem slope_eq_ofFn {z : List α → α} {u : List α} {du : α} {slope : List α} {n : ℕ}
    (hn : u.length = n) (h : slopeOf z u du = .ok slope) {g : Fin n → α}
    (hg : ∀ (i : Fin n) (s : α), derivative du (z u) (z (u.modify i (· + du)))
      (z (u.modify i (· - du))) i = .ok s → s = g i) : slope = List.ofFn g := by
  subst hn
  obtain ⟨hlength, hall⟩ := List.forall₂_iff_get.mp (forall₂_of_mapM h)
  rw [List.length_range] at hlength
  refine List.ext_getElem (by rw [List.length_ofFn, hlength]) fun i hi _ => ?_
  have hi' : i < u.length := hlength ▸ hi
  have hs := hall i (by rwa [List.length_range]) hi
  simp only [List.get_eq_getElem, List.getElem_range] at hs
  rw [List.getElem_ofFn]
  exact hg ⟨i, hi'⟩ _ hs

variable {m : Model α} {real : ℝ → α}

/-- At a real point there is a value, finite or not. -/
theorem AnswersEverywhere.rawValue (h : m.AnswersEverywhere real) {u : List ℝ}
    (hu : u.length = m.dimension) : ∃ z, m.rawValue (u.map real) = .ok z := by
  obtain ⟨z, hz⟩ := h u hu
  exact ⟨z, bind_eq_ok.mpr ⟨_, if_pos ((List.length_map ..).trans hu), hz⟩⟩

theorem Agrees.eq_of_isFinite {f : (Fin m.dimension → ℝ) → ℝ} (h : m.Agrees real f) {u : List ℝ}
    {z : α} (hz : m.rawValue (u.map real) = .ok z) (hfinite : Scalar.isFinite z = true) :
    z = real (f (coordinates m.dimension u)) :=
  h u z ((value_eq_ok_iff hz).mpr ⟨hfinite, rfl⟩)

/-- In exact arithmetic, and for a limit state that never raises an error, a gradient fails just
when the limit state is not finite at the point or in some coordinate on neither side. Otherwise it
has taken the evaluations that it tells, and it is exact for polynomials of degree two with finite
values at all of its points, and for affine functions whatever values are missing. -/
theorem gradient_is_exact (hreal : Scalar.IsExact real) (hstate : m.AnswersEverywhere real)
    {u : List ℝ} (hu : u.length = m.dimension) {du : ℝ} (hdu : 0 < du) (j : Journal α) :
    ((∃ e j', (m.gradient (u.map real) (real du)).exec j = (.error e, j')) ↔
      ¬m.FiniteAt (u.map real) ∨ ∃ i < u.length,
        ¬m.FiniteAt ((u.modify i (· + du)).map real) ∧
          ¬m.FiniteAt ((u.modify i (· - du)).map real)) ∧
    ∀ g j', (m.gradient (u.map real) (real du)).exec j = (.ok g, j') →
      g.evaluations = 2 * u.length + 1 ∧ j' = j.spend g.evaluations ∧
      (∀ p : MvPolynomial (Fin m.dimension) ℝ, p.totalDegree ≤ 2 →
        m.Agrees real (fun x => eval x p) →
        (∀ i < u.length, m.FiniteAt ((u.modify i (· + du)).map real) ∧
          m.FiniteAt ((u.modify i (· - du)).map real)) →
        g.slope = List.ofFn fun i => real (eval (coordinates m.dimension u) (pderiv i p))) ∧
      ∀ (c : ℝ) (slope : Fin m.dimension → ℝ), m.Agrees real (fun x => c + slope ⬝ᵥ x) →
        g.slope = List.ofFn fun i => real (slope i) := by
  have hup : ∀ i, (u.map real).modify i (· + real du) = (u.modify i (· + du)).map real :=
    modify_map (fun a => hreal.add a du) u
  have hdown : ∀ i, (u.map real).modify i (· - real du) = (u.modify i (· - du)).map real :=
    modify_map (fun a => hreal.sub a du) u
  have hside : ∀ i f, (u.modify i f).length = m.dimension :=
    fun i f => (List.length_modify ..).trans hu
  -- All points of the stencil are real points of the model.
  have hpoints : ∀ v ∈ stencil (u.map real) (real du), ∃ z, m.rawValue v = .ok z := by
    intro v hv
    obtain rfl | ⟨i, -, rfl | rfl⟩ := mem_stencil.mp hv
    · exact hstate.rawValue hu
    · rw [hup]
      exact hstate.rawValue (hside ..)
    · rw [hdown]
      exact hstate.rawValue (hside ..)
  choose! z hz using hpoints
  have hlength : (u.map real).length = m.dimension := (List.length_map ..).trans hu
  have hcenter : m.rawValue (u.map real) = .ok (z (u.map real)) := hz _ (mem_stencil.mpr (.inl rfl))
  have habove : ∀ i < u.length, m.rawValue ((u.modify i (· + du)).map real) =
      .ok (z ((u.modify i (· + du)).map real)) := fun i hi => by
    rw [← hup]
    exact hz _ (mem_stencil.mpr (.inr ⟨i, by rwa [List.length_map], .inl rfl⟩))
  have hbelow : ∀ i < u.length, m.rawValue ((u.modify i (· - du)).map real) =
      .ok (z ((u.modify i (· - du)).map real)) := fun i hi => by
    rw [← hdown]
    exact hz _ (mem_stencil.mpr (.inr ⟨i, by rwa [List.length_map], .inr rfl⟩))
  constructor
  · rw [(m.computes_gradient (u.map real) (real du)).fails_iff, exists_gradientAt_iff hz]
    simp only [hup, hdown, List.length_map, not_and_or, not_forall, not_or, exists_prop]
  · intro g j' h
    obtain ⟨hgradient, rfl⟩ := (m.computes_gradient (u.map real) (real du) g j j').mp h
    obtain ⟨hfinite, slope, hs, rfl⟩ := (gradientAt_eq_ok_iff hz).mp hgradient
    refine ⟨congrArg (2 * · + 1) (List.length_map ..), rfl, fun p hp hagrees hsides => ?_,
      fun c slope' hagrees => ?_⟩
    -- Both sides are there, and the central difference of the polynomial is its derivative.
    · refine slope_eq_ofFn hlength hs fun i s hderivative => ?_
      have hi := i.isLt.trans_eq hu.symm
      obtain ⟨hfiniteAbove, hfiniteBelow⟩ := hsides i hi
      rw [finiteAt_iff (habove i hi)] at hfiniteAbove
      rw [finiteAt_iff (hbelow i hi)] at hfiniteBelow
      rw [hup, hdown, hagrees.eq_of_isFinite hcenter hfinite,
        hagrees.eq_of_isFinite (habove i hi) hfiniteAbove,
        hagrees.eq_of_isFinite (hbelow i hi) hfiniteBelow, coordinates_modify hu,
        coordinates_modify_sub hu,
        derivative_central hreal hdu.ne' (eval_central_difference hp _ i du)] at hderivative
      exact (Except.ok.inj hderivative).symm
    -- Some values may be missing, but those that are there lie on a line.
    · refine slope_eq_ofFn hlength hs fun i s hderivative => ?_
      have hi := i.isLt.trans_eq hu.symm
      rw [hup, hdown, hagrees.eq_of_isFinite hcenter hfinite] at hderivative
      refine derivative_affine hreal hdu.ne' (fun hup => ?_) (fun hdown => ?_) hderivative
      · rw [hagrees.eq_of_isFinite (habove i hi) hup, coordinates_modify hu, dotProduct_add,
          dotProduct_single, ← add_assoc, mul_comm du]
      · rw [hagrees.eq_of_isFinite (hbelow i hi) hdown, coordinates_modify_sub hu, dotProduct_add,
          dotProduct_single, ← add_assoc, mul_neg, ← sub_eq_add_neg, mul_comm du]

end

/-! ## A limit state that ends -/

/-- An affine function up to zero, and nothing beyond. -/
noncomputable def wall (x : PartialReal) : PartialReal :=
  x.number?.elim .undefined fun a => if a ≤ 0 then .finite (1 - a) else .undefined

theorem wall_finite (x : ℝ) :
    wall (.finite x) = if x ≤ 0 then .finite (1 - x) else .undefined := rfl

/-- The physical value of the only variable decides. -/
noncomputable def walled : Model PartialReal :=
  ⟨.standardNormals 1, fun d => wall <$> d.ask (Draw.value 0), 1, .silent⟩

/-- The only variable is its coordinate: its mean is zero and its deviation is one. -/
theorem limitState_walled (x : ℝ) :
    walled.limitState (Draw.start walled.setup ([x].map .finite)) = .ok (wall (.finite x)) := by
  have hx : (Draw.start walled.setup ([x].map .finite)).ask (Draw.value 0) =
      .ok (.finite (((0 : ℕ) : ℝ) + ((1 : ℕ) : ℝ) * x)) := rfl
  rw [Nat.cast_zero, Nat.cast_one, zero_add, one_mul] at hx
  exact congrArg (wall <$> ·) hx

theorem answersEverywhere_walled : walled.AnswersEverywhere .finite := by
  intro u hu
  obtain ⟨x, rfl⟩ := List.length_eq_one_iff.mp hu
  exact ⟨_, limitState_walled x⟩

theorem rawValue_walled (x : ℝ) : walled.rawValue ([x].map .finite) = .ok (wall (.finite x)) :=
  bind_eq_ok.mpr ⟨_, rfl, limitState_walled x⟩

theorem finiteAt_walled (x : ℝ) : walled.FiniteAt ([x].map .finite) ↔ x ≤ 0 := by
  rw [finiteAt_iff (rawValue_walled x), wall_finite]
  split
  case isTrue h => exact iff_of_true rfl h
  case isFalse h => exact iff_of_false Bool.false_ne_true h

theorem agrees_walled : walled.Agrees .finite fun x => 1 + (fun _ => -1) ⬝ᵥ x := by
  intro u z hz
  obtain ⟨y, hy, -⟩ := bind_eq_ok.mp hz
  have hlength : u.length = 1 := (List.length_map ..).symm.trans (length_of_rawValue hy)
  obtain ⟨x, rfl⟩ := List.length_eq_one_iff.mp hlength
  have hx : x ≤ 0 := (finiteAt_walled x).mp ⟨z, hz⟩
  obtain ⟨-, rfl⟩ := (value_eq_ok_iff (rawValue_walled x)).mp hz
  rw [wall_finite, if_pos hx]
  show PartialReal.finite (1 - x) = .finite (1 + ∑ k : Fin 1, -1 * coordinates 1 [x] k)
  rw [Fin.sum_univ_one, neg_one_mul, ← sub_eq_add_neg]
  rfl

/-- At zero and with a step of one there is a value below only, which tells the slope. -/
theorem gradient_is_exact_oneSided :
    Scalar.IsExact PartialReal.finite ∧ walled.AnswersEverywhere .finite ∧
      ¬walled.FiniteAt ([1].map .finite) ∧
      ∃ g j', (walled.gradient ([0].map .finite) (.finite 1)).exec .empty = (.ok g, j') ∧
        g.evaluations = 3 ∧ j'.evaluations = 3 ∧ g.slope = [.finite (-1)] := by
  have habove : ¬walled.FiniteAt ([1].map .finite) := by
    rw [finiteAt_walled]
    norm_num
  refine ⟨PartialReal.isExact_finite, answersEverywhere_walled, habove, ?_⟩
  obtain ⟨hfails, hanswers⟩ := gradient_is_exact PartialReal.isExact_finite
    answersEverywhere_walled (show [(0 : ℝ)].length = walled.dimension from rfl) one_pos .empty
  rcases h : (walled.gradient ([0].map .finite) (.finite 1)).exec .empty with ⟨e | g, j'⟩
  · rcases hfails.mp ⟨e, j', h⟩ with hcenter | ⟨i, hi, -, hbelow⟩
    · rw [finiteAt_walled] at hcenter
      norm_num at hcenter
    · obtain rfl : i = 0 := by simpa using hi
      have hside : [(0 : ℝ)].modify 0 (· - 1) = [-1] := by norm_num
      rw [hside, finiteAt_walled] at hbelow
      norm_num at hbelow
  · obtain ⟨hcount, rfl, -, haffine⟩ := hanswers g j' h
    refine ⟨g, _, rfl, hcount, ?_, haffine 1 (fun _ => -1) agrees_walled⟩
    rw [Journal.evaluations_spend, hcount]
    rfl

end Model

end FailureProbability
