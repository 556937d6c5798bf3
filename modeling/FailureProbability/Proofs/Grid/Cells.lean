import Mathlib
import FailureProbability.Grid
import FailureProbability.Proofs.Normal

/-!
# Cells and boxes of the grid

The masses of the cells of an axis telescope: each is the increase of one cumulated mass, whichever
of the two tails it is evaluated from. It follows that none is negative and that they add up to one,
and so do the masses of the boxes that the cells of several axes make. The boxes are listed with the
last coordinate running fastest, which is the lexicographic order of their midpoints.

Little is assumed of the normal distribution (`Normal.IsCumulative`): that its masses do not fall,
are not negative, and are those of both tails. Strictness is not needed, since a cell without mass
does no harm. The outermost cells have no outer bound, so that nothing is lost beyond the range of
the settings.

Sums and products are exact here. With numbers that round the masses need not add up to one, and
this is why a run clamps what it has found.
-/

namespace FailureProbability

section

variable [SpecialFunctions]

/-- What the grid needs of the normal distribution: the mass up to a number does not fall and is not
negative, and the tail beyond a number is the mass up to its negative. -/
structure Normal.IsCumulative : Prop where
  monotone : Monotone (cdf : ℝ → ℝ)
  nonneg : ∀ u : ℝ, 0 ≤ (cdf u : ℝ)
  symm : ∀ u : ℝ, (cdf (-u) : ℝ) = 1 - cdf u

theorem Normal.IsCumulative.le_one (h : IsCumulative) (u : ℝ) : (cdf u : ℝ) ≤ 1 := by
  have hother := h.nonneg (-u)
  rw [h.symm] at hother
  linarith

theorem Normal.IsDistribution.isCumulative (h : IsDistribution) : IsCumulative :=
  ⟨h.strictMono.monotone, fun u => (h.pos u).le, h.symm⟩

namespace Grid

open FailureProbability.Normal (IsCumulative cdf)

/-! ## Masses of cells

On the upper half of the axis the mass of a cell is a difference of upper tails, and of lower ones
elsewhere. Both are the increase of one cumulated mass, which begins at zero and ends at one
because the outermost cells reach to infinity. -/

/-- The mass below a bound, nothing if there is none. -/
noncomputable def massBelow : Option ℝ → ℝ
  | some x => cdf x
  | none => 0

theorem massBeyond_eq (h : IsCumulative) (upper : Option ℝ) :
    massBeyond upper = 1 - massUpTo upper := by
  cases upper with
  | none => rw [massBeyond, massUpTo, Scalar.zero_eq, Scalar.one_eq, sub_self]
  | some x => exact h.symm x

/-- Upper tails give the same mass as lower ones. -/
theorem massBetween_eq (h : IsCumulative) (lower upper : Option ℝ) :
    massBetween lower upper = massUpTo upper - massBelow lower := by
  cases lower with
  | none => exact (sub_zero _).symm
  | some x =>
    unfold massBetween massBelow
    dsimp only
    split
    · rw [massBeyond_eq h, h.symm, sub_sub_sub_cancel_left]
    · rfl

namespace Config

variable {c : Config ℝ}

/-- Accepted settings have a range that is not empty, and cells on it. -/
theorem limits_of_validate (hc : c.validate = .ok ()) : c.minU < c.maxU ∧ 0 < c.cellCount := by
  unfold validate at hc
  dsimp only at hc
  by_cases hlimits : c.minU < c.maxU
  · refine ⟨hlimits, Nat.pos_of_ne_zero fun hcount => ?_⟩
    rw [if_neg (not_not.mpr ⟨Scalar.isFinite_eq _, Scalar.isFinite_eq _, hlimits⟩),
      if_pos hcount] at hc
    cases hc
  · rw [if_pos fun hall => hlimits hall.2.2] at hc
    cases hc

theorem width_pos (hc : c.validate = .ok ()) : 0 < c.width := by
  obtain ⟨hlimits, hcount⟩ := limits_of_validate hc
  exact div_pos (sub_pos.mpr hlimits) (Nat.cast_pos.mpr hcount)

/-- The mass below cell `k`, and all of it below what would follow the last cell. -/
noncomputable def cumulated (c : Config ℝ) (k : ℕ) : ℝ :=
  if k = 0 then 0 else if k = c.cellCount then 1 else cdf (c.minU + k * c.width)

theorem massBelow_lowerBound {k : ℕ} (hk : k < c.cellCount) :
    massBelow (c.lowerBound k) = c.cumulated k := by
  unfold lowerBound cumulated
  split
  · rfl
  · rw [if_neg hk.ne]
    rfl

theorem massUpTo_upperBound (c : Config ℝ) (k : ℕ) :
    massUpTo (c.upperBound k) = c.cumulated (k + 1) := by
  unfold upperBound cumulated
  rw [if_neg (Nat.succ_ne_zero k)]
  split
  · exact Scalar.one_eq
  · rfl

/-- The mass of a cell is what the cumulated mass grows by. -/
theorem mass_cell (h : IsCumulative) {k : ℕ} (hk : k < c.cellCount) :
    (c.cell k).mass = c.cumulated (k + 1) - c.cumulated k := by
  rw [← massUpTo_upperBound, ← massBelow_lowerBound hk]
  exact massBetween_eq h _ _

theorem cumulated_mem (h : IsCumulative) (c : Config ℝ) (k : ℕ) :
    c.cumulated k ∈ Set.Icc (0 : ℝ) 1 := by
  unfold cumulated
  split
  · exact Set.left_mem_Icc.mpr zero_le_one
  · split
    · exact Set.right_mem_Icc.mpr zero_le_one
    · exact ⟨h.nonneg _, h.le_one _⟩

/-- It never falls, also where it jumps to zero or one at the ends. -/
theorem cumulated_le_succ (h : IsCumulative) (hc : c.validate = .ok ()) {k : ℕ}
    (hk : k < c.cellCount) : c.cumulated k ≤ c.cumulated (k + 1) := by
  by_cases hfirst : k = 0
  · rw [cumulated, if_pos hfirst]
    exact (cumulated_mem h c (k + 1)).1
  · by_cases hlast : k + 1 = c.cellCount
    · rw [cumulated.eq_def c (k + 1), if_neg (Nat.succ_ne_zero k), if_pos hlast]
      exact (cumulated_mem h c k).2
    · have hwidth := width_pos hc
      unfold cumulated
      rw [if_neg hfirst, if_neg hk.ne, if_neg (Nat.succ_ne_zero k), if_neg hlast]
      refine h.monotone ?_
      push_cast
      nlinarith

theorem mass_nonneg (h : IsCumulative) (hc : c.validate = .ok ()) {cell : Cell ℝ}
    (hcell : cell ∈ c.cells) : 0 ≤ cell.mass := by
  obtain ⟨k, hk, rfl⟩ := List.mem_map.mp hcell
  rw [List.mem_range] at hk
  rw [mass_cell h hk]
  exact sub_nonneg.mpr (cumulated_le_succ h hc hk)

/-- The masses telescope to that of the whole axis. -/
theorem sum_masses (h : IsCumulative) (hc : c.validate = .ok ()) :
    (c.cells.map Cell.mass).sum = 1 := by
  have hcount := (limits_of_validate hc).2
  calc (c.cells.map Cell.mass).sum
      = ∑ k ∈ Finset.range c.cellCount, (c.cell k).mass := by
        rw [cells, List.map_map]
        rfl
    _ = ∑ k ∈ Finset.range c.cellCount, (c.cumulated (k + 1) - c.cumulated k) :=
        Finset.sum_congr rfl fun k hk => mass_cell h (Finset.mem_range.mp hk)
    _ = c.cumulated c.cellCount - c.cumulated 0 := Finset.sum_range_sub _ _
    _ = 1 := by
        rw [cumulated, cumulated, if_neg hcount.ne', if_pos rfl, if_pos rfl, sub_zero]

/-! ## Midpoints of cells -/

theorem length_cells (c : Config ℝ) : c.cells.length = c.cellCount := by
  rw [cells, List.length_map, List.length_range]

theorem middle_cell (c : Config ℝ) (k : ℕ) :
    (c.cell k).middle = c.minU + (k + 2⁻¹) * c.width := by
  unfold cell
  dsimp only
  rw [Scalar.half_eq]
  rfl

/-- Cells are listed from left to right. -/
theorem ascending_cells (hc : c.validate = .ok ()) :
    c.cells.Pairwise fun a b => a.middle < b.middle := by
  have hwidth := width_pos hc
  rw [cells, List.pairwise_map]
  refine List.pairwise_lt_range.imp fun {k l} hkl => ?_
  have hcast : (k : ℝ) < l := Nat.cast_lt.mpr hkl
  rw [middle_cell, middle_cell]
  have hsteps := mul_lt_mul_of_pos_right hcast hwidth
  linarith

end Config

end Grid

end

namespace Grid

/-! ## Boxes

A box has one cell on each axis, its midpoint has their midpoints, and its mass is the product of
their masses. All of this is by recursion on the number of axes, as the scan of the grid is. -/

/-- The boxes that cells make on so many axes, the last one running fastest. -/
def boxes {α : Type} (cells : List (Cell α)) : ℕ → List (List (Cell α))
  | 0 => [[]]
  | n + 1 => cells.flatMap fun c => (boxes cells n).map (c :: ·)

/-- The midpoint of a box. -/
def pointOf {α : Type} (b : List (Cell α)) : List α := b.map Cell.middle

/-- The mass of a box. -/
noncomputable def massOf (b : List (Cell ℝ)) : ℝ := (b.map Cell.mass).prod

theorem massOf_append (b b' : List (Cell ℝ)) : massOf (b ++ b') = massOf b * massOf b' := by
  rw [massOf, List.map_append, List.prod_append]
  rfl

variable {cells : List (Cell ℝ)}

theorem length_boxes (cells : List (Cell ℝ)) (n : ℕ) :
    (boxes cells n).length = cells.length ^ n := by
  induction n with
  | zero => rfl
  | succ n ih => simp [boxes, List.length_flatMap, ih, pow_succ']

theorem length_of_mem_boxes {n : ℕ} {b : List (Cell ℝ)} (hb : b ∈ boxes cells n) :
    b.length = n := by
  induction n generalizing b with
  | zero =>
    rw [List.mem_singleton.mp hb]
    rfl
  | succ n ih =>
    obtain ⟨c, -, hb⟩ := List.mem_flatMap.mp hb
    obtain ⟨b', hb', rfl⟩ := List.mem_map.mp hb
    rw [List.length_cons, ih hb']

theorem length_pointOf {n : ℕ} {b : List (Cell ℝ)} (hb : b ∈ boxes cells n) :
    (pointOf b).length = n := by
  rw [pointOf, List.length_map, length_of_mem_boxes hb]

/-- The midpoints of the boxes have midpoints of cells for coordinates, in all combinations. -/
theorem mem_points {n : ℕ} {u : List ℝ} : u ∈ (boxes cells n).map pointOf ↔
    u.length = n ∧ ∀ x ∈ u, ∃ c ∈ cells, c.middle = x := by
  induction n generalizing u with
  | zero =>
    rw [boxes, List.map_singleton, List.mem_singleton, List.length_eq_zero_iff]
    exact ⟨fun hu => ⟨hu, by simp [hu, pointOf]⟩, fun hu => hu.1⟩
  | succ n ih =>
    constructor
    · intro hu
      obtain ⟨b, hb, rfl⟩ := List.mem_map.mp hu
      obtain ⟨c, hc, hb⟩ := List.mem_flatMap.mp hb
      obtain ⟨b', hb', rfl⟩ := List.mem_map.mp hb
      obtain ⟨hlength, hmiddles⟩ := ih.mp (List.mem_map_of_mem hb')
      refine ⟨congrArg Nat.succ hlength, fun x hx => ?_⟩
      rcases List.mem_cons.mp hx with rfl | hx
      · exact ⟨c, hc, rfl⟩
      · exact hmiddles x hx
    · rintro ⟨hlength, hmiddles⟩
      cases u with
      | nil => cases hlength
      | cons x u =>
        obtain ⟨c, hc, rfl⟩ := hmiddles x List.mem_cons_self
        have hrest := ih.mpr
          ⟨Nat.succ.inj hlength, fun y hy => hmiddles y (List.mem_cons_of_mem _ hy)⟩
        obtain ⟨b, hb, rfl⟩ := List.mem_map.mp hrest
        exact List.mem_map.mpr
          ⟨c :: b, List.mem_flatMap.mpr ⟨c, hc, List.mem_map_of_mem hb⟩, rfl⟩

/-- A product of masses that are not negative is not negative. -/
theorem massOf_nonneg (hcells : ∀ c ∈ cells, 0 ≤ c.mass) {n : ℕ} {b : List (Cell ℝ)}
    (hb : b ∈ boxes cells n) : 0 ≤ massOf b := by
  induction n generalizing b with
  | zero =>
    rw [List.mem_singleton.mp hb]
    exact zero_le_one
  | succ n ih =>
    obtain ⟨c, hc, hb⟩ := List.mem_flatMap.mp hb
    obtain ⟨b', hb', rfl⟩ := List.mem_map.mp hb
    rw [massOf, List.map_cons, List.prod_cons]
    exact mul_nonneg (hcells c hc) (ih hb')

/-- The masses of the boxes add up to a power of that of an axis. -/
theorem sum_massOf (cells : List (Cell ℝ)) (n : ℕ) :
    ((boxes cells n).map massOf).sum = (cells.map Cell.mass).sum ^ n := by
  induction n with
  | zero => simp [boxes, massOf]
  | succ n ih =>
    have hslice : ∀ c : Cell ℝ, (((boxes cells n).map (c :: ·)).map massOf).sum =
        c.mass * (cells.map Cell.mass).sum ^ n := by
      intro c
      rw [List.map_map, ← ih, ← List.sum_map_mul_left]
      rfl
    rw [boxes, List.map_flatMap, List.flatMap, List.sum_flatten, List.map_map]
    simp only [Function.comp_def, hslice]
    rw [List.sum_map_mul_right, pow_succ']

/-- Where the midpoints of the cells ascend, those of the boxes are in lexicographic order. -/
theorem pairwise_points (hcells : cells.Pairwise fun a b => a.middle < b.middle) (n : ℕ) :
    ((boxes cells n).map pointOf).Pairwise (List.Lex (· < ·)) := by
  induction n with
  | zero => simp [boxes]
  | succ n ih =>
    rw [boxes, List.map_flatMap, List.pairwise_flatMap]
    constructor
    · intro c _
      rw [List.map_map, List.pairwise_map]
      exact (List.pairwise_map.mp ih).imp fun hlex => .cons hlex
    · refine hcells.imp fun {a b} hab u hu v hv => ?_
      rw [List.map_map] at hu hv
      obtain ⟨r, -, rfl⟩ := List.mem_map.mp hu
      obtain ⟨s, -, rfl⟩ := List.mem_map.mp hv
      exact .rel hab

end Grid

end FailureProbability
