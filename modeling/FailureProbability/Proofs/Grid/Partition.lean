import Mathlib
import FailureProbability.Proofs.Cancellation.Methods
import FailureProbability.Proofs.Draw
import FailureProbability.Proofs.Grid
import FailureProbability.Proofs.Grid.Cells
import FailureProbability.Proofs.Nearest
import FailureProbability.Proofs.Setup.Exchange
import FailureProbability.Proofs.Special.ErrorIntegral

/-!
# The grid as a partition

A run over a grid goes through the cells of the first axis, and through the boxes behind each of
them with a tally of its own. On exact numbers tallies are merged without loss (`merge_addAll`), so
that the run finds what a single scan of all boxes finds, in their order. `IsOfGrid` says what that
is: as the masses of all boxes add up to one, those of the failing ones are a probability, which
needs no clamp.

The slices are independent of each other and could be integrated together; here they come one after
the other, and between two of them is the only place at which a monitor is asked. It is assumed that
the monitor lets the run go on and that the limit state is finite everywhere: otherwise some of the
boxes would be missing, and with them their mass. The grid has a largest dimension, since the number
of its points is a power of it.

Nearest points are compared by the square of their distance. Several points of a grid are often
equally near, and the first one in lexicographic order is kept, in each slice and among the slices
alike.
-/

namespace FailureProbability.Grid

section

variable [SpecialFunctions]

/-! ## Tallies

What a tally of boxes keeps is a function of the list of boxes. Merging is the same as going on
with the boxes of the other tally, and this is where exact numbers are needed: sums of masses that
round depend on how they are grouped. -/

namespace Tally

/-- Boxes of which every value is known, one after the other. -/
noncomputable def addAll (z : List ℝ → ℝ) (t : Tally ℝ) (bs : List (List (Cell ℝ))) : Tally ℝ :=
  bs.foldl (fun t b => t.add (pointOf b) (z (pointOf b)) (massOf b)) t

/-- A slice without points changes nothing. -/
theorem merge_empty (t : Tally ℝ) : t.merge .empty = t := by
  unfold merge empty
  rw [Scalar.zero_eq, add_zero]
  rfl

/-- A point after a merge is a point of the second tally. -/
theorem merge_add (t s : Tally ℝ) (u : List ℝ) (z mass : ℝ) :
    (t.merge s).add u z mass = t.merge (s.add u z mass) := by
  unfold add
  split
  · simp only [merge, Nearest.merge_offer, add_assoc]
  · simp only [merge, Nearest.merge_offer, Nat.add_assoc]

/-- Merging a tally of boxes is tallying these boxes. -/
theorem merge_addAll (z : List ℝ → ℝ) (t s : Tally ℝ) (bs : List (List (Cell ℝ))) :
    t.merge (s.addAll z bs) = (t.merge s).addAll z bs := by
  induction bs generalizing s with
  | nil => rfl
  | cons b bs ih =>
    show t.merge ((s.add _ _ _).addAll z bs) = ((t.merge s).add _ _ _).addAll z bs
    rw [ih, merge_add]

theorem addAll_append (z : List ℝ → ℝ) (t : Tally ℝ) (bs bs' : List (List (Cell ℝ))) :
    t.addAll z (bs ++ bs') = (t.addAll z bs).addAll z bs' := List.foldl_append

/-- A tally of boxes: the mass of those that fail, their number, and the nearest midpoints. -/
theorem addAll_empty (z : List ℝ → ℝ) (bs : List (List (Cell ℝ))) :
    Tally.empty.addAll z bs =
      ⟨((bs.filter fun b => z (pointOf b) < 0).map massOf).sum, bs.length,
        Nearest.among ((bs.filter fun b => z (pointOf b) < 0).map pointOf),
        Nearest.among ((bs.filter fun b => ¬z (pointOf b) < 0).map pointOf)⟩ := by
  -- The last box is the one that was added last.
  induction bs using List.reverseRecOn with
  | nil =>
    show (⟨_, 0, none, none⟩ : Tally ℝ) = ⟨0, 0, none, none⟩
    rw [Scalar.zero_eq]
  | append_singleton bs b ih =>
    rw [addAll_append, ih]
    show Tally.add _ _ _ _ = _
    unfold add
    rw [Scalar.zero_eq]
    by_cases hz : z (pointOf b) < 0
    · have hfailing : (bs ++ [b]).filter (fun b => z (pointOf b) < 0) =
          bs.filter (fun b => z (pointOf b) < 0) ++ [b] := by simp [hz]
      have hsafe : (bs ++ [b]).filter (fun b => ¬z (pointOf b) < 0) =
          bs.filter (fun b => ¬z (pointOf b) < 0) := by simp [hz]
      rw [if_pos hz, hfailing, hsafe, List.map_append, List.map_append, List.sum_append,
        List.length_append, List.map_singleton, List.map_singleton, List.sum_singleton,
        Nearest.among_concat]
      rfl
    · have hfailing : (bs ++ [b]).filter (fun b => z (pointOf b) < 0) =
          bs.filter (fun b => z (pointOf b) < 0) := by simp [hz]
      have hsafe : (bs ++ [b]).filter (fun b => ¬z (pointOf b) < 0) =
          bs.filter (fun b => ¬z (pointOf b) < 0) ++ [b] := by simp [not_lt.mp hz]
      rw [if_neg hz, hfailing, hsafe, List.map_append, List.length_append, List.map_singleton,
        Nearest.among_concat]
      rfl

end Tally

/-- The midpoints of the grid on so many axes. -/
noncomputable def Config.points (c : Config ℝ) (n : ℕ) : List (List ℝ) :=
  (boxes c.cells n).map pointOf

/-- What a tally of a whole grid says of a function. -/
structure Tally.IsOfGrid (c : Config ℝ) (n : ℕ) (z : List ℝ → ℝ) (t : Tally ℝ) : Prop where
  count : t.count = c.cellCount ^ n
  /-- The mass of the boxes that fail. -/
  pf : t.pf = (((boxes c.cells n).filter fun b => z (pointOf b) < 0).map massOf).sum
  /-- The mass of the other boxes is the rest. -/
  rest : t.pf + (((boxes c.cells n).filter fun b => ¬z (pointOf b) < 0).map massOf).sum = 1
  clamp : Scalar.clamp t.pf 0 1 = t.pf
  failure : Nearest.IsNearest (fun u => u ∈ c.points n ∧ z u < 0) t.failure
  safe : Nearest.IsNearest (fun u => u ∈ c.points n ∧ ¬z u < 0) t.safe

section

variable {c : Config ℝ}

/-- Every point of the grid is listed once. -/
theorem Config.nodup_points (hc : c.validate = .ok ()) (n : ℕ) : (c.points n).Nodup := by
  have hlex : (c.points n).Pairwise (List.Lex (· < ·)) := pairwise_points (ascending_cells hc) n
  refine List.Pairwise.imp ?_ hlex
  rintro u v huv rfl
  exact List.lex_irrefl (fun x : ℝ => lt_irrefl x) u huv

/-- The coordinates of the points are the midpoints of cells. -/
theorem Config.mem_points_iff {n : ℕ} {u : List ℝ} : u ∈ c.points n ↔ u.length = n ∧
    ∀ x ∈ u, ∃ k < c.cellCount, x = c.minU + (k + 2⁻¹) * ((c.maxU - c.minU) / c.cellCount) := by
  rw [Config.points, mem_points]
  refine and_congr_right fun _ => forall₂_congr fun x _ => ?_
  constructor
  · rintro ⟨cell, hcell, rfl⟩
    obtain ⟨k, hk, rfl⟩ := List.mem_map.mp hcell
    exact ⟨k, List.mem_range.mp hk, c.middle_cell k⟩
  · rintro ⟨k, hk, rfl⟩
    exact ⟨c.cell k, List.mem_map_of_mem (List.mem_range.mpr hk), c.middle_cell k⟩

/-- The nearest of the points of the grid for which a test holds. -/
theorem isNearest_filter (hc : c.validate = .ok ()) (n : ℕ) (P : List ℝ → Prop)
    [DecidablePred P] : Nearest.IsNearest (fun u => u ∈ c.points n ∧ P u)
      (Nearest.among (((boxes c.cells n).filter fun b => P (pointOf b)).map pointOf)) := by
  have hfilter : ((boxes c.cells n).filter fun b => P (pointOf b)).map pointOf =
      (c.points n).filter fun u => P u := by
    rw [Config.points, List.filter_map]
    rfl
  have hmem : (fun u => u ∈ c.points n ∧ P u) = (· ∈ (c.points n).filter fun u => P u) := by
    funext u
    simp
  rw [hfilter, hmem]
  exact Nearest.isNearest_among ((pairwise_points (Config.ascending_cells hc) n).filter _)

/-- The boxes of a grid, tallied in their order, give what a grid is to find. -/
theorem Tally.isOfGrid_addAll (h : Normal.IsCumulative) (hc : c.validate = .ok ()) (n : ℕ)
    (z : List ℝ → ℝ) : (Tally.empty.addAll z (boxes c.cells n)).IsOfGrid c n z := by
  have hpart : ∀ p : List (Cell ℝ) → Bool, 0 ≤ (((boxes c.cells n).filter p).map massOf).sum := by
    intro p
    refine List.sum_nonneg fun x hx => ?_
    obtain ⟨b, hb, rfl⟩ := List.mem_map.mp hx
    exact massOf_nonneg (fun _ => Config.mass_nonneg h hc) (List.mem_filter.mp hb).1
  have hwhole : (((boxes c.cells n).filter fun b => z (pointOf b) < 0).map massOf).sum +
      (((boxes c.cells n).filter fun b => ¬z (pointOf b) < 0).map massOf).sum = 1 := by
    have hperm := List.filter_append_perm (fun b => decide (z (pointOf b) < 0)) (boxes c.cells n)
    have hsum := (hperm.map massOf).sum_eq
    rw [List.map_append, List.sum_append, sum_massOf, Config.sum_masses h hc, one_pow] at hsum
    simpa only [decide_not] using hsum
  have hlow := hpart fun b => z (pointOf b) < 0
  have hrest := hpart fun b => ¬z (pointOf b) < 0
  rw [addAll_empty]
  refine ⟨?_, rfl, hwhole, ?_, isNearest_filter hc n _, isNearest_filter hc n _⟩
  · rw [← c.length_cells]
    exact length_boxes c.cells n
  · rw [Scalar.clamp_eq zero_le_one, min_eq_left (by linarith), max_eq_right hlow]

end

/-! ## Scans

The recursion over the axes is unrolled into one list of boxes, first inside of a slice and then
over all slices. Behind it a run of the grid is a single scan of a list of points. -/

/-- Evaluates the midpoints of boxes one after the other and tallies them. -/
noncomputable def scan (m : Model ℝ) (bs : List (List (Cell ℝ))) (t : Tally ℝ) :
    Run ℝ (Tally ℝ) :=
  bs.foldlM (fun t b => do
    let z ← m.z (pointOf b)
    return t.add (pointOf b) z (massOf b)) t

theorem scan_flatMap (m : Model ℝ) (f : Cell ℝ → List (List (Cell ℝ))) (cells : List (Cell ℝ))
    (t : Tally ℝ) : scan m (cells.flatMap f) t = cells.foldlM (fun t c => scan m (f c) t) t := by
  induction cells generalizing t with
  | nil => rfl
  | cons c cells ih =>
    rw [List.flatMap_cons, List.foldlM_cons, scan, List.foldlM_append]
    exact bind_congr fun t' => ih t'

/-- The recursion over the axes scans the boxes that begin as given. -/
theorem integrate_eq_scan (m : Model ℝ) (cells : List (Cell ℝ)) (levels : ℕ)
    (b : List (Cell ℝ)) (t : Tally ℝ) :
    integrate m cells levels (pointOf b) (massOf b) t =
      scan m ((boxes cells levels).map (b ++ ·)) t := by
  induction levels generalizing b t with
  | zero =>
    show integrate m cells 0 (pointOf b) (massOf b) t = scan m [b ++ []] t
    rw [List.append_nil, scan, List.foldlM_cons]
    simp only [integrate, List.foldlM_nil, bind_pure]
  | succ levels ih =>
    have hslice : ∀ c : Cell ℝ, ((boxes cells levels).map (c :: ·)).map (b ++ ·) =
        (boxes cells levels).map ((b ++ [c]) ++ ·) := by
      intro c
      rw [List.map_map]
      exact List.map_congr_left fun b' _ => (List.append_assoc b [c] b').symm
    have hstep : ∀ (c : Cell ℝ) (t : Tally ℝ),
        integrate m cells levels (pointOf b ++ [c.middle]) (massOf b * c.mass) t =
          scan m (((boxes cells levels).map (c :: ·)).map (b ++ ·)) t := by
      intro c t
      rw [hslice, ← ih, massOf_append, pointOf, pointOf, List.map_append]
      simp [massOf]
    rw [boxes, List.map_flatMap, scan_flatMap, integrate]
    simp only [hstep]

/-- A scan of points with known values tallies these and spends one evaluation each. -/
theorem exec_scan {m : Model ℝ} {z : List ℝ → ℝ} {bs : List (List (Cell ℝ))}
    (hz : ∀ b ∈ bs, m.value (pointOf b) = .ok (z (pointOf b))) (t : Tally ℝ) (j : Journal ℝ) :
    (scan m bs t).exec j = (.ok (t.addAll z bs), j.spend bs.length) := by
  induction bs generalizing t j with
  | nil => rfl
  | cons b bs ih =>
    have hfirst := Model.exec_z_of_value (hz b List.mem_cons_self) j
    rw [scan, List.foldlM_cons, bind_assoc, Run.exec_bind_ok hfirst, pure_bind]
    refine (ih (fun b' hb' => hz b' (List.mem_cons_of_mem b hb')) _ _).trans ?_
    rw [Journal.spend_spend, List.length_cons, Nat.add_comm 1]
    rfl

/-- A slice of the grid is scanned: the boxes that begin with one of the cells. -/
theorem integrate_slice (m : Model ℝ) (cells : List (Cell ℝ)) (levels : ℕ) (c : Cell ℝ)
    (t : Tally ℝ) : integrate m cells levels [c.middle] c.mass t =
      scan m ((boxes cells levels).map (c :: ·)) t := by
  have hmass : massOf [c] = c.mass := mul_one c.mass
  have hscan := integrate_eq_scan m cells levels [c] t
  rw [hmass] at hscan
  exact hscan

/-- Slice by slice a run finds what one scan of all boxes would. -/
theorem exec_slices {m : Model ℝ} {z : List ℝ → ℝ} {levels : ℕ}
    (hdimension : m.dimension = levels + 1)
    (hz : ∀ u, u.length = m.dimension → m.value u = .ok (z u))
    (hproceed : ∀ before p, m.monitor before p = .proceed) (cells rest : List (Cell ℝ))
    (done : ℕ) (t : Tally ℝ) (j : Journal ℝ) :
    ∃ j', (slices m cells rest done t).exec j =
        (.ok (t.addAll z (rest.flatMap fun c => (boxes cells levels).map (c :: ·)), .success),
          j') ∧
      j'.evaluations = j.evaluations +
        (rest.flatMap fun c => (boxes cells levels).map (c :: ·)).length := by
  induction rest generalizing done t j with
  | nil => exact ⟨j, rfl, rfl⟩
  | cons c rest ih =>
    have hslice : ∀ b ∈ (boxes cells levels).map (c :: ·),
        m.value (pointOf b) = .ok (z (pointOf b)) := by
      intro b hb
      obtain ⟨b', hb', rfl⟩ := List.mem_map.mp hb
      refine hz _ ?_
      rw [hdimension, ← length_pointOf hb']
      rfl
    have hscan := exec_scan hslice .empty j
    rw [← integrate_slice] at hscan
    unfold slices
    rw [hdimension, Nat.add_sub_cancel, Run.exec_bind_ok hscan]
    dsimp only
    rw [Tally.merge_addAll, Tally.merge_empty, List.flatMap_cons, Tally.addAll_append,
      List.length_append, ← Nat.add_assoc]
    -- A report that nobody answers with an order to stop changes the journal only.
    split
    · rw [Run.exec_bind_ok (Model.exec_report ..), Model.answer, hproceed]
      exact ih _ _ _
    · exact ih _ _ _

/-! ## Runs -/

/-- A limit state that is finite everywhere is a function of the point. -/
theorem exists_values {m : Model ℝ} (h : Model.FiniteEverywhere m.setup m.limitState) :
    ∃ z : List ℝ → ℝ, ∀ u, u.length = m.dimension → m.value u = .ok (z u) := by
  have hpoint : ∀ u : List ℝ, ∃ z, u.length = m.dimension → m.value u = .ok z := by
    intro u
    by_cases hu : u.length = m.dimension
    · obtain ⟨z, hz⟩ := h.value hu
      exact ⟨z, fun _ => hz⟩
    · exact ⟨0, fun hlength => absurd hlength hu⟩
  choose z hz using hpoint
  exact ⟨z, hz⟩

/-- The index is that of the mass that fails. -/
theorem Tally.beta_direction (t : Tally ℝ) (n : ℕ) :
    (t.direction n).beta = Sampling.betaOf t.pf := by
  unfold direction
  dsimp only
  split
  · exact Direction.beta_ofPointAndBeta ..
  · rfl

theorem Tally.IsOfGrid.over {c : Config ℝ} {n : ℕ} {z : List ℝ → ℝ} {t : Tally ℝ}
    (h : t.IsOfGrid c n z) : t.Over n := by
  constructor
  · intro p hp
    have hnearest := h.failure
    rw [hp] at hnearest
    exact (Config.mem_points_iff.mp hnearest.1.1).1
  · intro p hp
    have hnearest := h.safe
    rw [hp] at hnearest
    exact (Config.mem_points_iff.mp hnearest.1.1).1

/-- The estimate is made of the tally of the slices. -/
theorem exec_estimate_of_slices {m : Model ℝ} {c : Config ℝ} {t : Tally ℝ} {status : Status}
    {j j' : Journal ℝ} (hsetup : m.setup.Accepted) (hdimension : m.dimension ≤ maxDimension)
    (hover : t.Over m.dimension)
    (h : (slices m c.cells c.cells 0 .empty).exec j = (.ok (t, status), j')) :
    ∃ x, (estimate c m).exec j = (.ok ⟨status, t.direction m.dimension, x,
      (t.direction m.dimension).designPoint, name, t.count, j'.evaluations - j.evaluations⟩,
      j') := by
  obtain ⟨x, hx⟩ := Model.exists_x hsetup
    ((Direction.length_designPoint (t.direction m.dimension)).trans hover.length_direction)
  refine ⟨x, ?_⟩
  unfold estimate
  dsimp only
  rw [if_neg (not_lt.mpr hdimension), Run.exec_bind_ok (Run.exec_evaluations j),
    Run.exec_bind_ok h, hx]
  rfl

/-- **The grid is a partition of unity.** A run over a grid that nobody stops evaluates every grid
point once, slice by slice, and finds what one scan of all boxes finds. The masses of an axis are
not negative and add up to one; those of the failing boxes are the failure probability, those of the
others the rest; and the nearest points are the lexicographically first ones of each domain. -/
theorem grid_is_partition_of_unity (h : Normal.IsCumulative) {c : Config ℝ}
    (hc : c.validate = .ok ()) {m : Model ℝ} (hsetup : m.setup.Reached)
    (hdimension : m.dimension ≤ maxDimension)
    (hfinite : Model.FiniteEverywhere m.setup m.limitState)
    (hproceed : ∀ before p, m.monitor before p = .proceed) (j : Journal ℝ) :
    -- The grid.
    ((∀ cell ∈ c.cells, 0 ≤ cell.mass) ∧ (c.cells.map Cell.mass).sum = 1 ∧
      (c.points m.dimension).length = c.cellCount ^ m.dimension ∧ (c.points m.dimension).Nodup ∧
      ∀ u, u ∈ c.points m.dimension ↔ u.length = m.dimension ∧ ∀ x ∈ u, ∃ k < c.cellCount,
        x = c.minU + (k + 2⁻¹) * ((c.maxU - c.minU) / c.cellCount)) ∧
    -- Every slice is a scan of its boxes.
    (∀ cell, integrate m c.cells (m.dimension - 1) [cell.middle] cell.mass .empty =
      scan m ((boxes c.cells (m.dimension - 1)).map (cell :: ·)) .empty) ∧
    ∃ z t e j', (∀ u, u.length = m.dimension → m.value u = .ok (z u)) ∧
      t.IsOfGrid c m.dimension z ∧
      (slices m c.cells c.cells 0 .empty).exec j = (.ok (t, .success), j') ∧
      (scan m (boxes c.cells m.dimension) .empty).exec j =
        (.ok t, j.spend (c.cellCount ^ m.dimension)) ∧
      (estimate c m).exec j = (.ok e, j') ∧
      j'.evaluations = j.evaluations + c.cellCount ^ m.dimension ∧
      e.status = .success ∧ e.steps = c.cellCount ^ m.dimension ∧
      e.evaluations = c.cellCount ^ m.dimension ∧ e.direction = t.direction m.dimension ∧
      e.direction.beta = Normal.betaFromQ t.pf := by
  have hsettled := hsetup.settled
  obtain ⟨levels, hlevels⟩ := Nat.exists_eq_add_one_of_ne_zero hsettled.dimension_pos.ne'
  have hboxes : boxes c.cells m.dimension =
      c.cells.flatMap fun cell => (boxes c.cells levels).map (cell :: ·) := by
    rw [show m.dimension = levels + 1 from hlevels]
    rfl
  have hlength : (boxes c.cells m.dimension).length = c.cellCount ^ m.dimension := by
    rw [length_boxes, c.length_cells]
  obtain ⟨z, hz⟩ := exists_values hfinite
  obtain ⟨j', hslices, hspent⟩ := exec_slices hlevels hz hproceed c.cells c.cells 0 .empty j
  rw [← hboxes] at hslices hspent
  rw [hlength] at hspent
  have hvalues : ∀ b ∈ boxes c.cells m.dimension, m.value (pointOf b) = .ok (z (pointOf b)) :=
    fun b hb => hz _ (length_pointOf hb)
  have hscan := exec_scan hvalues .empty j
  rw [hlength] at hscan
  have hgrid := Tally.isOfGrid_addAll h hc m.dimension z
  obtain ⟨x, hrun⟩ := exec_estimate_of_slices hsettled.accepted hdimension hgrid.over hslices
  refine ⟨⟨fun cell => Config.mass_nonneg h hc, Config.sum_masses h hc, ?_,
      Config.nodup_points hc _, fun u => Config.mem_points_iff⟩,
    fun cell => integrate_slice m c.cells _ cell .empty,
    z, _, _, j', hz, hgrid, hslices, hscan, hrun, hspent, rfl, hgrid.count, ?_, rfl, ?_⟩
  · rw [Config.points, List.length_map, hlength]
  · show j'.evaluations - j.evaluations = _
    rw [hspent, Nat.add_sub_cancel_left]
  · rw [Tally.beta_direction, Sampling.betaOf, Scalar.zero_eq, Scalar.one_eq, hgrid.clamp]

end

/-- One cell on each side of zero. -/
noncomputable def halves : Config ℝ := ⟨-1, 1, 2⟩

/-- A single variable, and failure below zero. -/
noncomputable def belowZero : Model ℝ :=
  ⟨.standardNormals 1, fun d => .ok (d.u.headD 0), 1, .silent⟩

theorem validate_halves : halves.validate = .ok () := by
  unfold Config.validate
  dsimp only
  rw [if_neg, if_neg]
  · rfl
  · decide
  · exact not_not.mpr ⟨rfl, rfl, by norm_num [halves]⟩

theorem middle_halves (k : ℕ) : (halves.cell k).middle = k - 2⁻¹ := by
  have hwidth : halves.width = 1 := by
    show ((1 : ℝ) - -1) / (2 : ℕ) = 1
    norm_num
  rw [Config.middle_cell, hwidth]
  show (-1 : ℝ) + (k + 2⁻¹) * 1 = k - 2⁻¹
  ring

theorem mass_halves : (halves.cell 0).mass = 2⁻¹ := by
  have h := SpecialFunctions.isDistribution.isCumulative
  have hbound : (-1 : ℝ) + ((1 : ℕ) : ℝ) * halves.width = 0 := by
    show (-1 : ℝ) + ((1 : ℕ) : ℝ) * (((1 : ℝ) - -1) / (2 : ℕ)) = 0
    norm_num
  have hmiddle := h.symm 0
  rw [neg_zero] at hmiddle
  rw [Config.mass_cell h (by decide)]
  show Normal.cdf ((-1 : ℝ) + ((1 : ℕ) : ℝ) * halves.width) - 0 = 2⁻¹
  rw [hbound]
  linarith

theorem reached_belowZero : belowZero.setup.Reached :=
  .new (show Setup.new [.standardNormal] (.identity 1) = .ok belowZero.setup from rfl)

/-- The mass of the half axis that fails is one half. -/
theorem grid_is_partition_of_unity_halves : ∃ t e j',
    (slices belowZero halves.cells halves.cells 0 .empty).exec .empty = (.ok (t, .success), j') ∧
    (estimate halves belowZero).exec .empty = (.ok e, j') ∧ e.steps = 2 ∧ e.evaluations = 2 ∧
    t.pf = 2⁻¹ ∧ e.direction.beta = Normal.betaFromQ 2⁻¹ := by
  obtain ⟨-, -, z, t, e, j', hz, hgrid, hslices, -, hrun, -, -, hsteps, hspent, -, hbeta⟩ :=
    grid_is_partition_of_unity SpecialFunctions.isDistribution.isCumulative validate_halves
      reached_belowZero (by decide) (fun u _ => ⟨u.headD 0, rfl, rfl⟩) (fun _ _ => rfl) .empty
  have hvalue : ∀ x : ℝ, z [x] = x := fun x => (Except.ok.inj (hz [x] rfl)).symm
  have hpf : t.pf = 2⁻¹ := by
    rw [hgrid.pf]
    show (([[halves.cell 0], [halves.cell 1]].filter fun b => z (pointOf b) < 0).map massOf).sum = _
    have hfirst : z (pointOf [halves.cell 0]) < 0 := by
      show z [(halves.cell 0).middle] < 0
      rw [hvalue, middle_halves]
      norm_num
    have hsecond : ¬z (pointOf [halves.cell 1]) < 0 := by
      show ¬z [(halves.cell 1).middle] < 0
      rw [hvalue, middle_halves]
      norm_num
    simp [hfirst, not_lt.mp hsecond, massOf, mass_halves]
  rw [hpf] at hbeta
  exact ⟨t, e, j', hslices, hrun, hsteps, hspent, hpf, hbeta⟩

end FailureProbability.Grid
