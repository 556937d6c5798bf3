import Mathlib
import FailureProbability.Proofs.Form.Affine

/-!
# The estimate of a search that ran out of points

When the last trial has gone through all its points, the estimate is put together from the last ones
of them. What a trial remembers is a window on the points that it has visited, however many they are
(`remember_rtake`), and on exact numbers its two means are those of the points in the window and of
the reliability indices there. The mean point becomes the design point, on the side of the mean
index; only where it is the origin, which has no direction, that of the last plane stays.

It is assumed that there was a tangent plane at every point of the last trial. A trial that has come
to a point without one ends there, also without having converged, and its estimate is made of that
point alone. Of the trials before the last one nothing is needed: they leave no visits behind.

The window is counted from the last visit. The point that a last step would have led to is not
visited, and is not in it.
-/

namespace FailureProbability.Form

open Coordinates (norm)

/-! ## The window

A trial remembers its visits one by one and forgets the first when there are too many. So what it
remembers at any time are the last ones of all its visits, and if it has made fewer, all of them. -/

/-- What is remembered after one more visit are the last ones of all. -/
theorem remember_rtake {α : Type} (past : List (Visit α)) (v : Visit α) :
    remember (past.rtake window) v = (past ++ [v]).rtake window := by
  have hlength : (past.rtake window).length = min window past.length := by
    rw [List.rtake, List.length_drop]
    omega
  have hnext : (past ++ [v]).rtake window = past.rtake (window - 1) ++ [v] :=
    List.rtake_concat_succ ..
  have hwindow : window = 10 := rfl
  unfold remember
  rw [hnext, hlength]
  split
  case isTrue hfull =>
    rw [List.rtake, List.rtake, List.drop_drop]
    congr 2
    omega
  case isFalse hshort =>
    rw [List.rtake, List.rtake]
    congr 2
    omega

/-- The window is all that a trial has visited if that is less. -/
theorem rtake_min_window {β : Type} {l : List β} {k : ℕ} (h : l.length = k) :
    l.rtake (min window k) = l.rtake window := by
  rw [List.rtake, List.rtake]
  congr 1
  omega

theorem map_rtake {β γ : Type} (f : β → γ) (l : List β) (k : ℕ) :
    (l.rtake k).map f = (l.map f).rtake k := by
  rw [List.rtake, List.rtake, List.map_drop, List.length_map]

/-- The last pairs of two lists of one length are pairs of their last members. -/
theorem map_rtake_zip {β γ : Type} {xs : List β} {ys : List γ} (h : xs.length = ys.length)
    (k : ℕ) :
    ((xs.zip ys).rtake k).map (·.1) = xs.rtake k ∧ ((xs.zip ys).rtake k).map (·.2) = ys.rtake k := by
  rw [map_rtake, map_rtake]
  exact ⟨congrArg (List.rtake · k) (List.map_fst_zip h.le),
    congrArg (List.rtake · k) (List.map_snd_zip h.ge)⟩

theorem rtake_ne_nil {β : Type} {l : List β} (hl : l ≠ []) {k : ℕ} (hk : 0 < k) :
    l.rtake k ≠ [] := by
  have hpos := List.length_pos_iff.mpr hl
  rw [← List.length_pos_iff, List.rtake, List.length_drop]
  omega

/-! ## Means

Both means are taken in the order of the visits, by adding each one divided by their number. On
exact numbers this is the sum divided by the number; where numbers round it need not be. -/

noncomputable def mean (xs : List ℝ) : ℝ := xs.sum / xs.length

/-- The point whose coordinates are the means of those of the points. -/
noncomputable def centroid (n : ℕ) (points : List (List ℝ)) : List ℝ :=
  (List.range n).map fun i => mean (points.map (·.getD i 0))

@[simp] theorem length_centroid (n : ℕ) (points : List (List ℝ)) :
    (centroid n points).length = n := by
  rw [centroid, List.length_map, List.length_range]

section

variable [SpecialFunctions]

/-- The number that the sums are divided by, where there is something to be summed. -/
theorem ofNat_max_one {k : ℕ} (h : 0 < k) : (Scalar.ofNat (Nat.max k 1) : ℝ) = k :=
  congrArg Nat.cast (Nat.max_eq_left h)

theorem foldl_add_div {β : Type} (f : β → ℝ) (k a : ℝ) (l : List β) :
    l.foldl (fun mean b => mean + f b / k) a = a + (l.map f).sum / k := by
  induction l generalizing a with
  | nil => simp
  | cons b l ih =>
    rw [List.foldl_cons, ih, List.map_cons, List.sum_cons]
    ring

/-- The mean index is the mean of the indices. -/
theorem meanBeta_eq {visits : List (Visit ℝ)} (hvisits : visits ≠ []) :
    meanBeta visits = mean (visits.map (·.2)) := by
  unfold meanBeta mean
  rw [ofNat_max_one (List.length_pos_iff.mpr hvisits), foldl_add_div, Scalar.zero_eq, zero_add,
    List.length_map]

/-- Points that are added up coordinate by coordinate. -/
theorem foldl_zipWith_add_div {n : ℕ} (k : ℝ) (f : ℕ → ℝ) {visits : List (Visit ℝ)}
    (hlength : ∀ v ∈ visits, v.1.length = n) :
    visits.foldl (fun mean v => List.zipWith (fun a b => a + b / k) mean v.1) ((List.range n).map f) =
      (List.range n).map fun i => f i + (visits.map (·.1.getD i 0)).sum / k := by
  induction visits generalizing f with
  | nil => simp
  | cons v visits ih =>
    obtain ⟨hv, hrest⟩ := List.forall_mem_cons.mp hlength
    have hfirst : List.zipWith (fun a b => a + b / k) ((List.range n).map f) v.1 =
        (List.range n).map fun i => f i + v.1.getD i 0 / k := by
      refine List.ext_getElem (by simp [hv]) fun i hi hi' => ?_
      have hin : i < v.1.length := by simp at hi'; omega
      simp [hin]
    rw [List.foldl_cons, hfirst, ih _ hrest]
    refine List.map_congr_left fun i _ => ?_
    rw [List.map_cons, List.sum_cons]
    ring

/-- The mean point is the centroid of the points. -/
theorem meanPoint_eq {n : ℕ} {visits : List (Visit ℝ)} (hvisits : visits ≠ [])
    (hlength : ∀ v ∈ visits, v.1.length = n) :
    meanPoint visits = centroid n (visits.map (·.1)) := by
  obtain ⟨v, rest, rfl⟩ := List.exists_cons_of_ne_nil hvisits
  have horigin : (Coordinates.origin v.1.length : List ℝ) = (List.range n).map fun _ => 0 := by
    rw [Coordinates.origin, Scalar.zero_eq, List.map_const', List.length_range,
      (List.forall_mem_cons.mp hlength).1]
  unfold meanPoint centroid mean
  dsimp only
  rw [ofNat_max_one (List.length_pos_iff.mpr hvisits)]
  show List.foldl _ (Coordinates.origin v.1.length) _ = _
  rw [horigin, foldl_zipWith_add_div _ _ hlength]
  refine List.map_congr_left fun i _ => ?_
  rw [zero_add, List.map_map, List.length_map]
  rfl

/-! ## The direction of two means -/

/-- The size of the index is the length of a point, which is the design point. -/
structure PointsTo (p : List ℝ) (b : ℝ) (d : Direction ℝ) : Prop where
  size : |d.beta| = norm p
  side : d.beta < 0 ↔ b < 0
  unit : norm d.alpha = 1
  point : d.designPoint = p

/-- A point other than the origin, on the side of its index, is the design point of its own
direction. -/
theorem pointsTo_of_abs_eq {p : List ℝ} {b beta : ℝ} (hbeta : |beta| = norm p) (hp : norm p ≠ 0)
    (hside : beta < 0 ↔ b < 0) : PointsTo p b ⟨beta, p.map fun v => -v / beta⟩ := by
  have hne : beta ≠ 0 := fun hzero => hp (by rw [← hbeta, hzero, abs_zero])
  have halpha : (p.map fun v => -v / beta) = Coordinates.scale (-beta⁻¹) p := by
    refine List.map_congr_left fun v _ => ?_
    rw [neg_div, div_eq_inv_mul, neg_mul]
  refine ⟨hbeta, hside, ?_, ?_⟩
  · show norm (p.map fun v => -v / beta) = 1
    rw [halpha, Coordinates.norm_scale, abs_neg, abs_inv, hbeta, inv_mul_cancel₀ hp]
  · show Coordinates.scale (-beta) (p.map fun v => -v / beta) = p
    rw [Coordinates.scale, List.map_map]
    refine (List.map_congr_left fun v _ => ?_).trans (List.map_id p)
    show -beta * (-v / beta) = v
    field_simp

/-- Where the mean point is not the origin, the estimate points to it. -/
theorem pointsTo_extrapolate {visits : List (Visit ℝ)} (last : Option (Direction ℝ))
    (h : norm (meanPoint visits) ≠ 0) :
    PointsTo (meanPoint visits) (meanBeta visits) (extrapolate visits last) := by
  have hpos : 0 < norm (meanPoint visits) := (Coordinates.norm_nonneg _).lt_of_ne' h
  unfold extrapolate
  rw [Scalar.zero_eq, if_pos hpos]
  split
  case isTrue hneg =>
    refine pointsTo_of_abs_eq ?_ h (iff_of_true (neg_lt_zero.mpr hpos) hneg)
    rw [abs_neg, abs_of_pos hpos]
  case isFalse hpositive =>
    exact pointsTo_of_abs_eq (abs_of_pos hpos) h (iff_of_false hpos.not_gt hpositive)

theorem extrapolate_of_norm_eq_zero {visits : List (Visit ℝ)} (d : Direction ℝ)
    (h : norm (meanPoint visits) = 0) :
    extrapolate visits (some d) = d.withBeta (meanBeta visits) := by
  unfold extrapolate
  rw [Scalar.zero_eq, if_neg h.not_gt]

end

/-! ## The points of a trial

A trial that has not converged has either come to a point without a tangent plane or has visited
all points that it may. The first is excluded by assumption, so that the ending is that of an
exhausted trial, and what it tells are the visits in the window. -/

/-- The limit state has a tangent plane at a point, with this direction. -/
def HasPlane {α : Type} [Scalar α] (m : Model α) (c : Config α) (u : List α) (d : Direction α) :
    Prop :=
  ∃ g, m.gradientAt u c.du = .ok g ∧ ¬IsFlat g ∧ d = plane g u

section

variable {α : Type} [Scalar α] {m : Model α} {c : Config α}

theorem not_isFlat_of_hasPlane {u : List α} {g : Gradient α} (hg : m.gradientAt u c.du = .ok g)
    (h : ∃ d, HasPlane m c u d) : ¬IsFlat g := by
  obtain ⟨d, g', hg', hplane, -⟩ := h
  cases hg.symm.trans hg'
  exact hplane

/-- A trial that has not converged although it had a tangent plane everywhere has visited all points
that were left, and its ending tells what it has remembered of them. -/
theorem Course.exhausted_of_planes {relaxation : α} {remaining steps : Nat} {t : Trial α}
    {j j' : Journal α} {us : List (List α)} {b : Ending α} {past : List (Visit α)}
    (h : Course m c relaxation remaining steps t j us b j') (hstatus : b.status = .noConvergence)
    (hplanes : ∀ u ∈ us, ∃ d, HasPlane m c u d) (hpast : t.visits = past.rtake window) :
    us.length = remaining ∧ ∃ ds : List (Direction α), List.Forall₂ (HasPlane m c) us ds ∧
      ∃ last : Trial α, b = last.exhausted ∧
        last.visits = (past ++ us.zip (ds.map (·.beta))).rtake window ∧
        last.last = ds.getLast?.or t.last := by
  -- By induction on the course; the past grows by the visit of each point that it goes on from.
  induction h generalizing past with
  | @exhausted steps t j =>
    refine ⟨rfl, [], .nil, t, rfl, ?_, rfl⟩
    rw [hpast, List.zip_nil_left, List.append_nil]
  | flat hg hflat =>
    exact absurd hflat (not_isFlat_of_hasPlane hg (hplanes _ (List.mem_singleton_self _)))
  | stopped => cases hstatus
  | converged => cases hstatus
  | @goes remaining steps t j j' g us b hg hplane _ _ _ ih =>
    have hnext : (t.next relaxation g).visits =
        (past ++ [(t.u, (plane g t.u).beta)]).rtake window := by
      rw [← remember_rtake, ← hpast]
      rfl
    obtain ⟨hlength, ds, hall, last, hb, hvisits, hlast⟩ :=
      ih hstatus (fun u hu => hplanes u (List.mem_cons_of_mem _ hu)) hnext
    refine ⟨congrArg Nat.succ hlength, plane g t.u :: ds, .cons ⟨g, hg, hplane, rfl⟩ hall, last, hb,
      ?_, ?_⟩
    · rw [hvisits, List.map_cons, List.zip_cons_cons, List.append_assoc, List.singleton_append]
    · rw [hlast, List.getLast?_cons]
      cases ds.getLast? <;> rfl

end

/-! ## The estimate -/

section

variable [SpecialFunctions]

/-- The direction that the last `k` points of a trial lead to, by the tangent planes at its points:
that of their mean on the side of the mean index, or that of the last plane with the mean index if
the mean of the points is the origin. -/
structure Extrapolates (n k : ℕ) (us : List (List ℝ)) (ds : List (Direction ℝ)) (d : Direction ℝ) :
    Prop where
  away : centroid n (us.rtake k) ≠ Coordinates.origin n →
    PointsTo (centroid n (us.rtake k)) (mean ((ds.map (·.beta)).rtake k)) d
  atOrigin : centroid n (us.rtake k) = Coordinates.origin n →
    d.beta = mean ((ds.map (·.beta)).rtake k) ∧ ∃ last, ds.getLast? = some last ∧ d.alpha = last.alpha

/-- What was remembered of a trial leads to the direction that its last points lead to. -/
theorem extrapolates_of_visits {n : ℕ} {us : List (List ℝ)} {ds : List (Direction ℝ)}
    (hus : us ≠ []) (hlength : us.length = ds.length) (hn : ∀ u ∈ us, u.length = n) :
    Extrapolates n window us ds
      (extrapolate ((us.zip (ds.map (·.beta))).rtake window) ds.getLast?) := by
  have hds : us.length = (ds.map (·.beta)).length := by rw [hlength, List.length_map]
  -- Points and indices were kept in pairs, and are averaged apart from each other.
  obtain ⟨hpoints, hbetas⟩ := map_rtake_zip hds window
  have hzip : us.zip (ds.map (·.beta)) ≠ [] := by
    rw [← List.length_pos_iff, List.length_zip, ← hds, Nat.min_self]
    exact List.length_pos_iff.mpr hus
  have hvisits := rtake_ne_nil hzip (show 0 < window by decide)
  have hvisited : ∀ v ∈ (us.zip (ds.map (·.beta))).rtake window, v.1.length = n := fun v hv =>
    hn v.1 (List.of_mem_zip (List.mem_of_mem_drop hv)).1
  have hmean := meanPoint_eq hvisits hvisited
  have hbeta := meanBeta_eq hvisits
  rw [hpoints] at hmean
  rw [hbetas] at hbeta
  have horigin : norm (centroid n (us.rtake window)) = 0 ↔
      centroid n (us.rtake window) = Coordinates.origin n := by
    rw [Coordinates.norm_eq_zero_iff, length_centroid]
  constructor
  · intro haway
    have hne : norm (meanPoint ((us.zip (ds.map (·.beta))).rtake window)) ≠ 0 := by
      rwa [hmean, Ne, horigin]
    have hpoint := pointsTo_extrapolate ds.getLast? hne
    rwa [hmean, hbeta] at hpoint
  · intro hat
    have hne : ds ≠ [] := by
      rw [← List.length_pos_iff, ← hlength]
      exact List.length_pos_iff.mpr hus
    rw [List.getLast?_eq_getLast_of_ne_nil hne,
      extrapolate_of_norm_eq_zero _ (by rwa [hmean, horigin])]
    exact ⟨hbeta, _, rfl, rfl⟩

/-- The ending of a trial that has had a tangent plane at every point and has not converged. -/
theorem Course.extrapolates {m : Model ℝ} {c : Config ℝ} {relaxation : ℝ} {remaining : ℕ}
    {start : List ℝ} {j j' : Journal ℝ} {us : List (List ℝ)} {b : Ending ℝ}
    (h : Course m c relaxation remaining 0 ⟨start, [], none⟩ j us b j') (hremaining : remaining ≠ 0)
    (hstatus : b.status = .noConvergence) (hplanes : ∀ u ∈ us, ∃ d, HasPlane m c u d) :
    us.length = remaining ∧ ∃ ds, List.Forall₂ (HasPlane m c) us ds ∧
      Extrapolates m.dimension (min window remaining) us ds b.direction ∧
      b.u = b.direction.designPoint := by
  have hpast : ([] : List (Visit ℝ)) = List.rtake [] window := rfl
  obtain ⟨hlength, ds, hds, last, rfl, hvisits, hlast⟩ :=
    h.exhausted_of_planes hstatus hplanes hpast
  have hus : us ≠ [] := by
    rw [← List.length_pos_iff, hlength]
    exact Nat.pos_of_ne_zero hremaining
  have hestimate := extrapolates_of_visits hus hds.length_eq h.length_of_mem
  have hbetas : (ds.map (·.beta)).length = remaining := by
    rw [List.length_map, ← hds.length_eq, hlength]
  rw [List.nil_append] at hvisits
  rw [Option.or_none] at hlast
  rw [← hvisits, ← hlast] at hestimate
  refine ⟨hlength, ds, hds, ⟨?_, ?_⟩, rfl⟩ <;>
    rw [rtake_min_window hlength, rtake_min_window hbetas]
  · exact hestimate.away
  · exact hestimate.atOrigin

/-- **Extrapolation.** When a search has not converged although its last trial had a tangent plane
at every point, that trial has visited as many points as it may, and the estimate is put together
from the last ones of them, ten or all: its design point is their mean, on the side of the mean of
their indices, and if they balance at the origin, its index is the mean index and its coefficients
are the last ones. -/
theorem exhausted_search_is_extrapolated {c : Config ℝ} (hc : c.validate = .ok ()) {m : Model ℝ}
    {start : List ℝ} {e : Estimate ℝ} {j j' : Journal ℝ}
    (h : (estimateFrom c start m).exec j = (.ok e, j')) (hstatus : e.status = .noConvergence) :
    ∃ n es js us b, n + 1 = c.trialLoops ∧ js 0 = j ∧ js (n + 1) = j' ∧
      Tries m c start c.relaxation n es js ∧ e = lastOf n es 0 0 ∧
      Course m c (halved c.relaxation n) c.maxIterations 0 ⟨start, [], none⟩ (js n) us b
        (js (n + 1)) ∧
      ((∀ u ∈ us, ∃ d, HasPlane m c u d) → us.length = c.maxIterations ∧
        ∃ ds, List.Forall₂ (HasPlane m c) us ds ∧
          Extrapolates m.dimension (min window c.maxIterations) us ds e.direction ∧
          e.u = e.direction.designPoint) := by
  obtain ⟨hpoints, -, -, htrials⟩ := Config.validate_iff.mp hc
  obtain ⟨-, n, hn, es, js, hfirst, hlast, htries, rfl, hall⟩ := tries_of_exec h
  obtain ⟨us, b, x, hcourse, -, hes⟩ := course_of_exec_trial (htries.ran n le_rfl)
  have hn := hall hstatus
  refine ⟨n, es, js, us, b, by omega, hfirst, hlast, htries, rfl, hcourse, fun hplanes => ?_⟩
  have hended : (es n).status = .noConvergence := hstatus
  rw [hes] at hended
  have hextrapolates := hcourse.extrapolates hpoints hended hplanes
  simpa only [lastOf, hes] using hextrapolates

variable {offset : ℝ} {slope : List ℝ} {m : Model ℝ} {c : Config ℝ}
  (hm : m.IsAffine offset slope) (hdu : c.du ≠ 0)
include hm hdu

/-- The tangent planes of an affine limit state have one direction. -/
theorem eq_replicate_of_hasPlane {us : List (List ℝ)} {ds : List (Direction ℝ)}
    (h : List.Forall₂ (HasPlane m c) us ds) :
    ds = List.replicate us.length (affineDirection offset slope) := by
  induction h with
  | nil => rfl
  | cons hd _ ih =>
    obtain ⟨g, hg, -, rfl⟩ := hd
    rw [plane_eq hm hdu hg, ih, List.length_cons, List.replicate_succ]

/-- A point has not converged where the limit state is farther away than the tolerance. -/
theorem not_hasConverged_of_le {u : List ℝ} {g : Gradient ℝ} (hg : m.gradientAt u c.du = .ok g)
    (hfar : c.epsZ ≤ |(offset + Coordinates.dot slope u) / norm slope|) : ¬HasConverged c g u := by
  obtain ⟨hslope, hz⟩ := gradient_eq hm hdu hg
  unfold HasConverged zResidual
  rw [hslope, hz, Scalar.abs_eq]
  exact fun h => hfar.not_gt h.1

end

/-! ## Half steps -/

/-- Two points, the second half the way to the limit state. -/
noncomputable def twoHalfSteps : Config ℝ := ⟨2, 0.5, 1, 0.5, 1, 1, .zero⟩

theorem isAffine_threeFour : (planeModel 5 [3, 4]).IsAffine 5 [3, 4] := ⟨rfl, fun _ _ => rfl⟩

theorem validate_twoHalfSteps : twoHalfSteps.validate = .ok () := by
  have hpositive : ∀ x : ℝ, 0 < x → Scalar.isPositive x = true := fun x hx => by
    rw [Scalar.isPositive_eq, decide_eq_true hx]
  have hrelaxation : (0 : ℝ) < 0.5 ∧ (0.5 : ℝ) ≤ 1 := by
    rw [Scalar.half_eq]
    norm_num
  refine Config.validate_iff.mpr ⟨two_ne_zero, ?_, ⟨hpositive 1 one_pos,
    hpositive 0.5 hrelaxation.1, hpositive 1 one_pos⟩, one_ne_zero⟩
  rwa [Scalar.zero_eq, Scalar.one_eq]

/-- A trial goes on from a point where the limit state is far enough from zero. -/
theorem goes_twoHalfSteps {u v : List ℝ} (hu : u.length = 2)
    (hfar : 2⁻¹ ≤ |(5 + Coordinates.dot [3, 4] u) / 5|)
    (hnext : relax 0.5 u (affineDirection 5 [3, 4]) = v) :
    HasPlane (planeModel 5 [3, 4]) twoHalfSteps u (affineDirection 5 [3, 4]) ∧
    ∀ (remaining steps : ℕ) (visits : List (Visit ℝ)) (last : Option (Direction ℝ)) (j : Journal ℝ),
      ∃ visits' last' j₁, ∀ us b j',
        Course (planeModel 5 [3, 4]) twoHalfSteps 0.5 remaining (steps + 1) ⟨v, visits', last'⟩ j₁ us
          b j' →
        Course (planeModel 5 [3, 4]) twoHalfSteps 0.5 (remaining + 1) steps ⟨u, visits, last⟩ j
          (u :: us) b j' := by
  have hdu := (validate_tolerances validate_twoHalfSteps).2.2.ne'
  have hfloor : gradientFloor ≤ norm ([3, 4] : List ℝ) := by
    rw [norm_three_four]
    show OfScientific.ofScientific 1 true 10 ≤ (5 : ℝ)
    norm_num
  obtain ⟨g, hg⟩ : ∃ g, (planeModel 5 [3, 4]).gradientAt u twoHalfSteps.du = .ok g :=
    ⟨_, isAffine_threeFour.gradientAt_eq hu hdu⟩
  have hplane := not_isFlat isAffine_threeFour hfloor validate_twoHalfSteps hg
  have htangent := plane_eq isAffine_threeFour hdu hg
  have hnot : ¬HasConverged twoHalfSteps g u := by
    refine not_hasConverged_of_le isAffine_threeFour hdu hg ?_
    rw [norm_three_four]
    show (0.5 : ℝ) ≤ _
    rwa [Scalar.half_eq]
  refine ⟨⟨g, hg, hplane, htangent.symm⟩, fun remaining steps visits last j => ?_⟩
  rw [← hnext, ← htangent]
  exact ⟨_, _, _, fun us b j' => .goes (t := ⟨u, visits, last⟩) hg hplane rfl hnot⟩

/-- Both points have a plane, and the second one is still too far away. -/
theorem course_twoHalfSteps : ∃ b j', b.status = .noConvergence ∧
    Course (planeModel 5 [3, 4]) twoHalfSteps 0.5 2 0 ⟨[0, 0], [], none⟩ .empty
      [[0, 0], [-3 / 10, -2 / 5]] b j' ∧
    ∀ u ∈ [[0, 0], [-3 / 10, -2 / 5]],
      HasPlane (planeModel 5 [3, 4]) twoHalfSteps u (affineDirection 5 [3, 4]) := by
  have hfar : 2⁻¹ ≤ |(5 + Coordinates.dot [3, 4] [0, 0]) / (5 : ℝ)| := by
    rw [Coordinates.dot_cons, Coordinates.dot_cons, Coordinates.dot_nil_left]
    norm_num
  have hfar' : 2⁻¹ ≤ |(5 + Coordinates.dot [3, 4] [-3 / 10, -2 / 5]) / (5 : ℝ)| := by
    rw [Coordinates.dot_cons, Coordinates.dot_cons, Coordinates.dot_nil_left]
    norm_num
  have hnext : relax 0.5 [0, 0] (affineDirection 5 [3, 4]) = [-3 / 10, -2 / 5] := by
    rw [affineDirection, norm_three_four, Scalar.half_eq]
    simp only [relax, Direction.designPoint, Coordinates.scale, Coordinates.divide, Scalar.one_eq,
      List.map_cons, List.map_nil, List.zipWith_cons_cons, List.zipWith_nil_left]
    norm_num
  obtain ⟨hplane, hgoes⟩ := goes_twoHalfSteps rfl hfar hnext
  obtain ⟨hplane', hgoes'⟩ := goes_twoHalfSteps rfl hfar' rfl
  obtain ⟨visits, last, j, hgoes⟩ := hgoes 1 0 [] none .empty
  obtain ⟨visits', last', j', hgoes'⟩ := hgoes' 0 1 visits last j
  refine ⟨_, j', rfl, hgoes _ _ _ (hgoes' _ _ _ .exhausted), fun u hu => ?_⟩
  rcases List.mem_pair.mp hu with rfl | rfl
  · exact hplane
  · exact hplane'

theorem centroid_twoHalfSteps :
    centroid 2 ([[0, 0], [-3 / 10, -2 / 5]].rtake (min window 2)) = [-3 / 20, -1 / 5] := by
  show [([0, -3 / 10] : List ℝ).sum / ((2 : ℕ) : ℝ), ([0, -2 / 5] : List ℝ).sum / ((2 : ℕ) : ℝ)] = _
  norm_num

theorem centroid_twoHalfSteps_ne :
    centroid 2 ([[0, 0], [-3 / 10, -2 / 5]].rtake (min window 2)) ≠ Coordinates.origin 2 := by
  rw [centroid_twoHalfSteps, Coordinates.origin, Scalar.zero_eq]
  intro h
  have hzero := (List.cons.inj h).1
  norm_num at hzero

/-- The search answers without having converged. -/
theorem exec_twoHalfSteps {b : Ending ℝ} {j' : Journal ℝ} (hended : b.status = .noConvergence)
    (hcourse : Course (planeModel 5 [3, 4]) twoHalfSteps 0.5 2 0 ⟨[0, 0], [], none⟩ .empty
      [[0, 0], [-3 / 10, -2 / 5]] b j')
    (hplanes : ∀ u ∈ [[0, 0], [-3 / 10, -2 / 5]],
      ∃ d, HasPlane (planeModel 5 [3, 4]) twoHalfSteps u d) :
    ∃ e, (estimateFrom twoHalfSteps [0, 0] (planeModel 5 [3, 4])).exec .empty = (.ok e, j') ∧
      e.status = .noConvergence := by
  have hreached : (planeModel 5 [3, 4]).setup.Reached :=
    .new (show Setup.new [.standardNormal, .standardNormal] (.identity 2) = .ok _ from rfl)
  obtain ⟨-, ds, -, hestimate, hu⟩ := hcourse.extrapolates two_ne_zero hended hplanes
  obtain ⟨x, hx⟩ : ∃ x, (planeModel 5 [3, 4]).x b.u = .ok x := by
    refine Model.exists_x hreached.settled.accepted ?_
    rw [hu]
    exact (congrArg List.length (hestimate.away centroid_twoHalfSteps_ne).point).trans
      (length_centroid 2 _)
  have hexec := exec_iterate_of_course hcourse 0
  unfold Ending.estimate at hexec
  rw [hx] at hexec
  exact ⟨_, Run.exec_bind_ok hexec, hended⟩

/-- Two half steps toward a plane at distance one do not get there. The design point of the estimate
is the mean of the two points, and its index the length of that mean, although both indices were
one. -/
theorem exhausted_search_is_extrapolated_twoHalfSteps :
    twoHalfSteps.validate = .ok () ∧ ∃ e j',
      (estimateFrom twoHalfSteps [0, 0] (planeModel 5 [3, 4])).exec .empty = (.ok e, j') ∧
        e.status = .noConvergence ∧ e.direction.beta = 1 / 4 ∧ e.u = [-3 / 20, -1 / 5] := by
  have hdu := (validate_tolerances validate_twoHalfSteps).2.2.ne'
  obtain ⟨b, j', hended, hcourse, hplanes⟩ := course_twoHalfSteps
  have hplanes : ∀ u ∈ [[0, 0], [-3 / 10, -2 / 5]], ∃ d, HasPlane _ twoHalfSteps u d :=
    fun u hu => ⟨_, hplanes u hu⟩
  obtain ⟨e, hexec, hstatus⟩ := exec_twoHalfSteps hended hcourse hplanes
  obtain ⟨n, es, js, us, b', hn, hfirst, -, -, -, hcourse', hall⟩ :=
    exhausted_search_is_extrapolated validate_twoHalfSteps hexec hstatus
  obtain rfl : n = 0 := Nat.succ.inj hn
  rw [hfirst] at hcourse'
  obtain ⟨rfl, -, -⟩ := hcourse.unique hcourse'
  obtain ⟨-, ds, hds, hestimate, hpoint⟩ := hall hplanes
  obtain ⟨hsize, hside, -, hmean⟩ := hestimate.away centroid_twoHalfSteps_ne
  have hnorm : Coordinates.norm ([-3 / 20, -1 / 5] : List ℝ) = 1 / 4 := by
    rw [Coordinates.norm_eq_sqrt_dot, Coordinates.dot_cons, Coordinates.dot_cons,
      Coordinates.dot_nil_left, Real.sqrt_eq_iff_mul_self_eq] <;> norm_num
  have hbetas : ds.map (·.beta) = [1, 1] := by
    have hone : (affineDirection 5 [3, 4]).beta = 1 := by
      rw [affineDirection, norm_three_four]
      norm_num
    rw [eq_replicate_of_hasPlane isAffine_threeFour hdu hds, List.map_replicate, hone]
    rfl
  have hpositive : ¬e.direction.beta < 0 := by
    rw [hside, hbetas]
    show ¬([1, 1] : List ℝ).sum / ((2 : ℕ) : ℝ) < 0
    norm_num
  refine ⟨validate_twoHalfSteps, e, j', hexec, hstatus, ?_, ?_⟩
  · rw [← abs_of_nonneg (not_lt.mp hpositive), hsize]
    exact (congrArg Coordinates.norm centroid_twoHalfSteps).trans hnorm
  · rw [hpoint, hmean]
    exact centroid_twoHalfSteps

end FailureProbability.Form
