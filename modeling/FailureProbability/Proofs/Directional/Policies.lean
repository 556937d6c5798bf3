import FailureProbability.Proofs.Directional.Side

/-!
# The policy that rounds up

Whatever the method of a ray, its search marches over the same cells and comes to the same crossing.
The policy that takes the first negative end of the last cell takes the outer end of the crossing
where the origin is safe, and the inner one where it fails. Every other root of the cell leaves at
least as much of the direction to failure, since the tails fall and rise with the distance.

The tails are those of the radius of a normal vector, which are not computed here. It is assumed
that they are monotone (`Radius.IsMonotone`), as tails are; that they are probabilities is not
needed. The limit state has to be finite everywhere, so that no search of the two fails where the
other one does not.

Compared are searches of the same directions. Two whole runs need not draw equally many: the policy
changes the variation that a run looks at, and so when it stops.
-/

namespace FailureProbability.Directional

open Set

section

variable [SpecialFunctions]

/-! ## One ray -/

/-- Of two roots of one cell, the first negative end of the cell contributes the least. -/
theorem probability_le_of_crossing {c : Config ℝ} (hc : c.validate = .ok ())
    (htails : Radius.IsMonotone) {z : ℝ → ℝ} {k : ℕ} {p : Root.Point ℝ}
    (hp : p.x ∈ Icc (c.ray.abscissa k) (c.ray.abscissa (k + 1))) (n : ℕ) {zs zs' : List ℝ}
    (hside : side zs = SignType.sign (c.ray.point (z 0) z k).z) (hsame : side zs' = side zs) :
    (contribution n (firstNonzero zs) (some (if (c.ray.point (z 0) z k).z < 0
      then c.ray.point (z 0) z k else c.ray.point (z 0) z (k + 1)))).probability ≤
      (contribution n (firstNonzero zs') (some p)).probability := by
  have hlength := (Config.ray_pos hc).2
  rw [contribution_firstNonzero, contribution_firstNonzero, hsame, hside]
  dsimp only
  by_cases hfails : (c.ray.point (z 0) z k).z < 0
  · rw [if_pos hfails, if_pos (sign_eq_neg_one_iff.mpr hfails),
      if_pos (sign_eq_neg_one_iff.mpr hfails), Root.Ray.x_point hlength]
    exact htails.nonExceedance_monotone n hp.1
  · rw [if_neg hfails, if_neg (sign_eq_neg_one_iff.not.mpr hfails),
      if_neg (sign_eq_neg_one_iff.not.mpr hfails), Root.Ray.x_point hlength]
    exact htails.exceedance_antitone n hp.2

/-- Two searches that march over the same cells. -/
theorem probability_le_of_ends {c : Config ℝ} (hc : c.validate = .ok ())
    (htails : Radius.IsMonotone) {method : Root.Ray.Method} {z : ℝ → ℝ} {k : ℕ}
    {rest rest' : List ℝ} {s s' : Root.Search ℝ}
    (h : Root.Ray.Ends (c.withMethod (.linearLoop .firstNegative)).ray (z 0) z k rest s)
    (h' : Root.Ray.Ends (c.withMethod method).ray (z 0) z k rest' s') (n : ℕ) :
    (contribution n (firstNonzero (z 0 :: (c.ray.marched k ++ rest).map z)) s.root).probability ≤
      (contribution n (firstNonzero (z 0 :: (c.ray.marched k ++ rest').map z))
        s'.root).probability := by
  obtain ⟨hstep, hlength⟩ := Config.ray_pos hc
  cases h with
  | uncrossed hno =>
    cases h' with
    | uncrossed => exact le_rfl
    | @crossed k _ _ _ hfirst => exact absurd hfirst.1 (hno k k.lt_succ_self)
  | @crossed k rest p converged hfirst hrest hmet hnegative =>
    cases h' with
    | uncrossed hno => exact absurd hfirst.1 (hno k k.lt_succ_self)
    | @crossed k rest' p' converged' hfirst' hrest' hmet' hnegative' =>
      have hside := side_of_crossing hfirst rest
      have hsame := (side_of_crossing hfirst' rest').trans hside.symm
      have hcell := (Root.Ray.mem_cell_of_met hstep hlength hrest' hmet').1
      rw [hnegative rfl]
      exact probability_le_of_crossing hc htails hcell n hside hsame

/-- The contributions of one direction. -/
theorem exists_contributions {c : Config ℝ} (hc : c.validate = .ok ()) {m : Model ℝ}
    (hfinite : Model.FiniteEverywhere m.setup m.limitState) (htails : Radius.IsMonotone)
    (method : Root.Ray.Method) {z0 : ℝ}
    (hz0 : m.value (Coordinates.origin m.dimension) = .ok z0) {d : List ℝ}
    (hd : d.length = m.dimension) :
    ∃ low other : Contribution ℝ,
      (∀ j, ∃ j', (search (c.withMethod (.linearLoop .firstNegative)) m z0 d).exec j =
        (.ok low, j')) ∧
      (∀ j, ∃ j', (search (c.withMethod method) m z0 d).exec j = (.ok other, j')) ∧
      low.probability ≤ other.probability := by
  obtain ⟨z, -, horigin, n, h⟩ := exists_search hc hfinite hd
  obtain rfl : z0 = z 0 := Except.ok.inj (hz0.symm.trans horigin)
  obtain ⟨rest, s, hends, -, hexec⟩ := h (.linearLoop .firstNegative)
  obtain ⟨rest', s', hends', -, hexec'⟩ := h method
  exact ⟨_, _, fun j => ⟨_, hexec j⟩, fun j => ⟨_, hexec' j⟩,
    probability_le_of_ends hc htails hends hends' m.dimension⟩

/-! ## Means -/

omit [SpecialFunctions] in
/-- Where every search of a list answers, the list is answered. -/
theorem exec_searches {α : Type} [Scalar α] {c : Config α} {m : Model α} {z0 : α}
    {answer : List α → Contribution α} {ds : List (List α)}
    (h : ∀ d ∈ ds, ∀ j, ∃ j', (search c m z0 d).exec j = (.ok (answer d), j')) (j : Journal α) :
    ∃ j', (ds.mapM (search c m z0)).exec j = (.ok (ds.map answer), j') := by
  induction ds generalizing j with
  | nil => exact ⟨j, rfl⟩
  | cons d ds ih =>
    obtain ⟨hd, hds⟩ := List.forall_mem_cons.mp h
    obtain ⟨j₁, hfirst⟩ := hd j
    obtain ⟨j₂, hrest⟩ := ih hds j₁
    rw [List.mapM_cons, Run.exec_bind_ok hfirst, Run.exec_bind_ok hrest]
    exact ⟨j₂, rfl⟩

/-- Of the same directions, greater contributions have the greater mean. -/
theorem pf_mono {n : ℕ} {ds : List (List ℝ)} {low high : List ℝ → Contribution ℝ}
    (h : ∀ d ∈ ds, (low d).probability ≤ (high d).probability) :
    ((ds.zip (ds.map low)).foldl Tally.addFound (.empty n)).pf ≤
      ((ds.zip (ds.map high)).foldl Tally.addFound (.empty n)).pf := by
  rw [← List.map_prod_left_eq_zip, ← List.map_prod_left_eq_zip, pf_foldl_addFound,
    pf_foldl_addFound, List.map_map, List.map_map, List.length_map, List.length_map]
  exact div_le_div_of_nonneg_right (List.sum_le_sum h) (Nat.cast_nonneg _)

/-- **The policy that rounds up.** On every direction, and hence on every list of directions, it
contributes no more than any other method with the same settings. -/
theorem firstNegative_bounds_methods {c : Config ℝ} (hc : c.validate = .ok ()) {m : Model ℝ}
    (hfinite : Model.FiniteEverywhere m.setup m.limitState) (htails : Radius.IsMonotone)
    (method : Root.Ray.Method) :
    ∃ z0 low other, m.value (Coordinates.origin m.dimension) = .ok z0 ∧
      (∀ d, d.length = m.dimension →
        (∀ j, ∃ j', (search (c.withMethod (.linearLoop .firstNegative)) m z0 d).exec j =
          (.ok (low d), j')) ∧
        (∀ j, ∃ j', (search (c.withMethod method) m z0 d).exec j = (.ok (other d), j')) ∧
        (low d).probability ≤ (other d).probability) ∧
      ∀ ds : List (List ℝ), (∀ d ∈ ds, d.length = m.dimension) →
        (∀ j, ∃ j', (ds.mapM (search (c.withMethod (.linearLoop .firstNegative)) m z0)).exec j =
          (.ok (ds.map low), j')) ∧
        (∀ j, ∃ j', (ds.mapM (search (c.withMethod method) m z0)).exec j =
          (.ok (ds.map other), j')) ∧
        ((ds.zip (ds.map low)).foldl Tally.addFound (.empty m.dimension)).pf ≤
          ((ds.zip (ds.map other)).foldl Tally.addFound (.empty m.dimension)).pf := by
  obtain ⟨z0, hz0⟩ := hfinite.value (Coordinates.length_origin m.dimension)
  have hsome : Nonempty (Contribution ℝ) := ⟨⟨0, none⟩⟩
  choose! low other h using fun (d : List ℝ) (hd : d.length = m.dimension) =>
    exists_contributions hc hfinite htails method hz0 hd
  refine ⟨z0, low, other, hz0, h, fun ds hds => ⟨?_, ?_, ?_⟩⟩
  · exact exec_searches fun d hd => (h d (hds d hd)).1
  · exact exec_searches fun d hd => (h d (hds d hd)).2.1
  · exact pf_mono fun d hd => (h d (hds d hd)).2.2

end

/-- A ray that leads to failure, searched by the policy and by a refinement. -/
theorem firstNegative_bounds_methods_beyond :
    (Config.unitSteps 4 4).validate = .ok () ∧
      Model.FiniteEverywhere (beyond (3 / 2)).setup (beyond (3 / 2)).limitState ∧
      Radius.IsMonotone ∧ ∃ low other : Contribution ℝ,
        (∀ j, ∃ j', (search ((Config.unitSteps 4 4).withMethod (.linearLoop .firstNegative))
          (beyond (3 / 2)) (3 / 2) [1]).exec j = (.ok low, j')) ∧
        (∀ j, ∃ j', (search ((Config.unitSteps 4 4).withMethod (.robust .andersonBjorck))
          (beyond (3 / 2)) (3 / 2) [1]).exec j = (.ok other, j')) ∧
        low.probability ≤ other.probability := by
  have hvalid := Config.validate_unitSteps four_pos four_ne_zero
  obtain ⟨z0, low, other, hz0, hdirections, -⟩ := firstNegative_bounds_methods hvalid
    (finiteEverywhere_beyond (3 / 2)) Radius.isMonotone_standard (.robust .andersonBjorck)
  have hzero : z0 = 3 / 2 := by
    have horigin : Coordinates.origin (beyond (3 / 2)).dimension = Coordinates.scale 0 [(1 : ℝ)] :=
      origin_eq_scale [1]
    rw [horigin, value_beyond, abs_zero, sub_zero] at hz0
    exact (Except.ok.inj hz0).symm
  obtain ⟨hlow, hother, hle⟩ := hdirections [1] rfl
  rw [hzero] at hlow hother
  exact ⟨hvalid, finiteEverywhere_beyond (3 / 2), Radius.isMonotone_standard, low [1], other [1],
    hlow, hother, hle⟩

end FailureProbability.Directional
