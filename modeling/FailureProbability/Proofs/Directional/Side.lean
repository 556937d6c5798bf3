import Mathlib
import FailureProbability.Proofs.Directional.Ray
import FailureProbability.Proofs.Directional.Stopping
import FailureProbability.Proofs.Radius

/-!
# The side of a ray

A ray is counted by the first value on it that is not zero. The search for its first crossing takes
no notice of this value, and passes over leading zeros in a way of its own; yet both tell the same
side. As long as no cell crosses, the last point of the grid has the sign of the first value that is
not zero (`side_of_uncrossed`), so that the inner end of the first crossing has it, too, and what is
asked for behind does not change it. Hence a direction contributes the tail on the side of its
crossing that fails, and never the other one. Contributions and their means are probabilities where
the tails are.

A ray on which no cell crosses is counted as a whole, by its side; so a ray on which every value is
zero counts as safe. This includes rays that cross beyond the grid, and those on which the search
gave up before the end of it (`Proofs.Directional.Ray`).

That the tails are probabilities is a hypothesis (`Radius.IsProbability`) of those statements that
need it. Which side a direction is counted by does not depend on it.
-/

namespace FailureProbability

open Set

namespace Directional

/-! ## The first value that is not zero -/

section

variable {α : Type} [Scalar α]

def firstNonzero (zs : List α) : Option α := zs.find? fun z => !(z == 0)

/-- What is noted once stays. -/
theorem foldl_noteSide (side : Option α) (zs : List α) :
    zs.foldl noteSide side = side.or (firstNonzero zs) := by
  induction zs generalizing side with
  | nil => cases side <;> rfl
  | cons z zs ih =>
    rw [List.foldl_cons, ih]
    unfold firstNonzero
    rw [List.find?_cons]
    cases side with
    | some first => rfl
    | none =>
      simp only [noteSide, Option.isNone_none, Bool.true_and, Option.none_or]
      cases (!(z == 0)) <;> rfl

/-- What a search notes of a ray is the first value that is not zero. -/
theorem foldl_noteSide_none (z0 : α) (zs : List α) :
    zs.foldl noteSide (noteSide none z0) = firstNonzero (z0 :: zs) := by
  have h := foldl_noteSide none (z0 :: zs)
  rwa [List.foldl_cons, Option.none_or] at h

end

/-! ## Sides

The side is defined by the values alone, in the order in which they were asked for. That the inner
end of the first crossing is on this side is a fact about the march: up to there no sign has
changed since the first value that is not zero. -/

section

variable [SpecialFunctions]

/-- The sign of the first value that is not zero; it is zero if there is none. -/
noncomputable def side (zs : List ℝ) : SignType := SignType.sign ((firstNonzero zs).getD 0)

theorem ne_zero_of_firstNonzero {zs : List ℝ} {z : ℝ} (h : firstNonzero zs = some z) : z ≠ 0 := by
  have hz := List.find?_some h
  rw [Bool.not_eq_true', ← Bool.not_eq_true, Scalar.zero_eq, Root.beq_zero_iff] at hz
  exact hz

theorem side_singleton (z : ℝ) : side [z] = SignType.sign z := by
  unfold side firstNonzero
  rw [List.find?_singleton, Scalar.zero_eq]
  by_cases hz : z = 0
  · simp [hz]
  · simp [hz]

/-- Later values decide only where all the earlier ones are zero. -/
theorem side_append (zs ws : List ℝ) :
    side (zs ++ ws) = if side zs = 0 then side ws else side zs := by
  unfold side
  rw [firstNonzero, List.find?_append]
  cases h : firstNonzero zs with
  | none =>
    rw [firstNonzero] at h
    rw [h, Option.none_or, Option.getD_none, sign_zero, if_pos rfl]
    rfl
  | some z =>
    rw [firstNonzero] at h
    rw [h, Option.some_or, Option.getD_some, if_neg]
    exact sign_eq_zero_iff.not.mpr (ne_zero_of_firstNonzero h)

/-- As long as no cell crosses, the last point tells the side. -/
theorem side_of_uncrossed {p : ℕ → Root.Point ℝ} {k : ℕ}
    (hno : ∀ j < k, ¬Root.CrossesAt p j) :
    side ((List.range (k + 1)).map fun j => (p j).z) = SignType.sign (p k).z := by
  induction k with
  | zero => exact side_singleton (p 0).z
  | succ k ih =>
    have hside := ih fun j hj => hno j (hj.trans k.lt_succ_self)
    rw [List.range_succ, List.map_append, side_append, hside]
    split
    case isTrue => exact side_singleton _
    case isFalse hne =>
      -- The last cell begins at a value that is not zero, so that it would cross otherwise.
      have hcell : ¬(p k).crosses (p (k + 1)) = true := fun hcross =>
        hno k k.lt_succ_self ⟨⟨k, le_rfl, sign_eq_zero_iff.not.mp hne⟩, hcross⟩
      have hsame := not_le.mp fun h => hcell ((Root.Point.crosses_iff _ _).mpr h)
      rcases pos_and_pos_or_neg_and_neg_of_mul_pos hsame with ⟨hk, hnext⟩ | ⟨hk, hnext⟩
      · rw [sign_pos hk, sign_pos hnext]
      · rw [sign_neg hk, sign_neg hnext]

omit [SpecialFunctions] in
/-- The values that a march has seen are those of its points. -/
theorem values_marched (ray : Root.Ray ℝ) (z : ℝ → ℝ) (n : ℕ) :
    z 0 :: (ray.marched n).map z =
      (List.range (n + 1)).map fun k => (ray.point (z 0) z k).z := by
  rw [List.range_succ_eq_map, List.map_cons, List.map_map, Root.Ray.marched, List.map_map]
  rfl

/-- The inner end of the first crossing tells the side of all that is asked for. -/
theorem side_of_crossing {ray : Root.Ray ℝ} {z : ℝ → ℝ} {k : ℕ}
    (hfirst : Root.IsFirstCrossing (ray.point (z 0) z) k) (rest : List ℝ) :
    side (z 0 :: (ray.marched (k + 1) ++ rest).map z) =
      SignType.sign (ray.point (z 0) z k).z := by
  have hinner := side_of_uncrossed hfirst.2
  have hvalues : z 0 :: (ray.marched (k + 1) ++ rest).map z =
      ((List.range (k + 1)).map fun j => (ray.point (z 0) z j).z) ++
        ((ray.point (z 0) z (k + 1)).z :: rest.map z) := by
    rw [List.map_append, ← List.cons_append, values_marched, List.range_succ, List.map_append,
      List.append_assoc]
    rfl
  rw [hvalues, side_append, hinner, if_neg (sign_eq_zero_iff.not.mpr hfirst.ne_zero)]

/-! ## Contributions -/

theorem any_firstNonzero (zs : List ℝ) :
    ((firstNonzero zs).any fun z => decide (z < 0)) = true ↔ side zs = -1 := by
  unfold side
  cases firstNonzero zs with
  | none => simp
  | some z => simp [sign_eq_neg_one_iff]

/-- What a direction contributes, by the side of its ray. -/
theorem contribution_firstNonzero (n : ℕ) (zs : List ℝ) (root : Option (Root.Point ℝ)) :
    contribution n (firstNonzero zs) root =
      match root with
      | some p =>
        ⟨if side zs = -1 then Radius.nonExceedance n p.x else Radius.exceedance n p.x, some p.x⟩
      | none => ⟨if side zs = -1 then 1 else 0, none⟩ := by
  simp only [contribution, any_firstNonzero, Scalar.zero_eq, Scalar.one_eq]
  cases root <;> rfl

/-- Each of the four ways to count a direction gives a probability. -/
theorem probability_contribution_mem (h : Radius.IsProbability) (n : ℕ) (noted : Option ℝ)
    (root : Option (Root.Point ℝ)) : (contribution n noted root).probability ∈ Icc (0 : ℝ) 1 := by
  cases root with
  | some p =>
    simp only [contribution]
    split
    · exact h.nonExceedance_mem n p.x
    · exact h.exceedance_mem n p.x
  | none =>
    simp only [contribution, Scalar.zero_eq, Scalar.one_eq]
    split
    · exact right_mem_Icc.mpr zero_le_one
    · exact left_mem_Icc.mpr zero_le_one

/-- What a direction contributes after its search is a probability. -/
theorem probability_search_mem (h : Radius.IsProbability) {c : Config ℝ} {m : Model ℝ} {z0 : ℝ}
    {d : List ℝ} {r : Contribution ℝ} {j j' : Journal ℝ}
    (hexec : (search c m z0 d).exec j = (.ok r, j')) : r.probability ∈ Icc (0 : ℝ) 1 := by
  rw [exec_search] at hexec
  have hanswer := congrArg Prod.fst hexec
  dsimp only at hanswer
  cases hfound : (RunWith.exec (c.ray.find z0 (alongRay m d)) (noteSide none z0) j).1 with
  | error e =>
    rw [hfound] at hanswer
    cases hanswer
  | ok s =>
    rw [hfound] at hanswer
    cases hanswer
    exact probability_contribution_mem h ..

/-! ## Means

The probability of a run is the mean of what its directions contribute, added up in their order. As
each of them is between zero and one, so is every mean on the way, the empty one included. -/

theorem sum_foldl_addFound (t : Tally ℝ) (found : List (List ℝ × Contribution ℝ)) :
    (found.foldl Tally.addFound t).sum = t.sum + (found.map fun f => f.2.probability).sum := by
  induction found generalizing t with
  | nil => exact (add_zero t.sum).symm
  | cons f found ih =>
    have hadd : (t.addFound f).sum = t.sum + f.2.probability := by
      unfold Tally.addFound Tally.add
      cases f.2.radius <;> rfl
    rw [List.foldl_cons, ih, hadd, List.map_cons, List.sum_cons, add_assoc]

/-- The probability of failure is the mean of the contributions. -/
theorem pf_foldl_addFound (n : ℕ) (found : List (List ℝ × Contribution ℝ)) :
    (found.foldl Tally.addFound (.empty n)).pf =
      (found.map fun f => f.2.probability).sum / found.length := by
  have hsum := sum_foldl_addFound (.empty n) found
  have hcount : (found.foldl Tally.addFound (.empty n)).standing.count = 0 + found.length :=
    Sampling.count_foldl Tally.count_addFound (.empty n) found
  have hempty : (Tally.empty n : Tally ℝ).sum = 0 := Scalar.zero_eq
  have hcount : (found.foldl Tally.addFound (.empty n)).count = found.length :=
    hcount.trans (Nat.zero_add _)
  rw [hempty, zero_add] at hsum
  rw [Tally.pf, hcount, hsum, Scalar.zero_eq]
  split
  case isTrue hnone => rw [hnone, Nat.cast_zero, div_zero]
  case isFalse => rfl

/-- A mean of probabilities is one; so is the mean of none, which is zero. -/
theorem pf_foldl_addFound_mem {n : ℕ} {found : List (List ℝ × Contribution ℝ)}
    (h : ∀ f ∈ found, f.2.probability ∈ Icc (0 : ℝ) 1) :
    (found.foldl Tally.addFound (.empty n)).pf ∈ Icc (0 : ℝ) 1 := by
  have hall : ∀ w ∈ found.map fun f => f.2.probability, w ∈ Icc (0 : ℝ) 1 :=
    List.forall_mem_map.mpr h
  have hsum := List.sum_le_card_nsmul _ 1 fun w hw => (hall w hw).2
  rw [List.length_map, nsmul_eq_mul, mul_one] at hsum
  rw [pf_foldl_addFound]
  exact ⟨div_nonneg (List.sum_nonneg fun w hw => (hall w hw).1) (Nat.cast_nonneg _),
    div_le_one_of_le₀ hsum (Nat.cast_nonneg _)⟩

theorem Drawn.probability_mem {σ : Type} (h : Radius.IsProbability) {next : σ → List ℝ × σ}
    {c : Config ℝ} {m : Model ℝ} {z0 : ℝ} {q q' : σ} {ds : List (List ℝ)}
    {rs : List (Contribution ℝ)} (hdrawn : Drawn next (found c m z0) q ds rs q') :
    ∀ r ∈ rs, r.probability ∈ Icc (0 : ℝ) 1 := by
  induction hdrawn with
  | nil => exact fun r hr => absurd hr List.not_mem_nil
  | cons hfind _ ih =>
    refine List.forall_mem_cons.mpr ⟨?_, ih⟩
    exact probability_search_mem h (Prod.ext hfind rfl)

/-! ## The search along a ray -/

/-- The origin is a point of every ray. -/
theorem origin_eq_scale (d : List ℝ) :
    (Coordinates.origin d.length : List ℝ) = Coordinates.scale 0 d := by
  rw [Coordinates.origin, Coordinates.scale]
  simp

/-- The settings with another method for the rays. -/
def Config.withMethod {α : Type} (c : Config α) (method : Root.Ray.Method) : Config α :=
  { c with rayMethod := method }

/-- A search along a direction, with what it asks for and how it ends. Its method does not change
over which cells it marches. -/
theorem exists_search {c : Config ℝ} (hc : c.validate = .ok ()) {m : Model ℝ}
    (hfinite : Model.FiniteEverywhere m.setup m.limitState) {d : List ℝ}
    (hd : d.length = m.dimension) :
    ∃ z, (∀ x, m.value (Coordinates.scale x d) = .ok (z x)) ∧
      m.value (Coordinates.origin m.dimension) = .ok (z 0) ∧
      ∃ n, ∀ method, ∃ rest s, Root.Ray.Ends (c.withMethod method).ray (z 0) z n rest s ∧
        (c.withMethod method).ray.find (z 0) (alongRay m d) =
          Root.asking (alongRay m d) (c.ray.marched n ++ rest) s ∧
        ∀ j, (search (c.withMethod method) m (z 0) d).exec j =
          (.ok (contribution m.dimension (firstNonzero (z 0 :: (c.ray.marched n ++ rest).map z))
            s.root), j.spend (c.ray.marched n ++ rest).length) := by
  obtain ⟨hstep, hlength⟩ := Config.ray_pos hc
  choose z hz using fun x => hfinite.value ((Coordinates.length_scale x d).trans hd)
  obtain ⟨n, h⟩ := Root.Ray.exists_finds_of_methods hstep hlength (z 0) z
  refine ⟨z, hz, by rw [← hd, origin_eq_scale, hz], n, fun method => ?_⟩
  obtain ⟨rest, s, -, hends, hfind⟩ := h method
  have hasking := hfind (answers_alongRay hz)
  refine ⟨rest, s, hends, hasking, fun j => ?_⟩
  rw [exec_search_of_asking (c := c.withMethod method) hz hasking, foldl_noteSide_none, hd]
  rfl

/-! ## Counting by the side -/

/-- What a direction of an `n`-dimensional space contributes, by the side of its ray and by the root
of its search. -/
inductive Counted (n : ℕ) (σ : SignType) : Option (Root.Point ℝ) → Contribution ℝ → Prop
  | before {p : Root.Point ℝ} (h : σ = -1) :
      Counted n σ (some p) ⟨Radius.nonExceedance n p.x, some p.x⟩
  | beyond {p : Root.Point ℝ} (h : σ = 1) :
      Counted n σ (some p) ⟨Radius.exceedance n p.x, some p.x⟩
  | failing (h : σ = -1) : Counted n σ none ⟨1, none⟩
  | safe (h : σ ≠ -1) : Counted n σ none ⟨0, none⟩

/-- The root lies in the first cell that crosses, and the inner end of the cell is on this side. -/
def InnerEndOn (ray : Root.Ray ℝ) (z : ℝ → ℝ) (σ : SignType) (p : Root.Point ℝ) : Prop :=
  ∃ k, Root.IsFirstCrossing (ray.point (z 0) z) k ∧
    p.x ∈ Icc (ray.abscissa k) (ray.abscissa (k + 1)) ∧
    SignType.sign (ray.point (z 0) z k).z = σ

/-- However a search ends, its direction is counted by the side, and a root lies in the first cell
that crosses. -/
theorem counted_of_ends {c : Config ℝ} (hc : c.validate = .ok ()) {z : ℝ → ℝ} {n : ℕ}
    {rest : List ℝ} {s : Root.Search ℝ} (h : Root.Ray.Ends c.ray (z 0) z n rest s)
    (dimension : ℕ) :
    let σ := side (z 0 :: (c.ray.marched n ++ rest).map z)
    (∀ p, s.root = some p → InnerEndOn c.ray z σ p) ∧
      Counted dimension σ s.root
        (contribution dimension (firstNonzero (z 0 :: (c.ray.marched n ++ rest).map z))
          s.root) := by
  obtain ⟨hstep, hlength⟩ := Config.ray_pos hc
  rw [contribution_firstNonzero]
  cases h with
  | uncrossed hno hlast hconverged =>
    refine ⟨fun p hp => ?_, ?_⟩
    · cases hp
    · dsimp only
      split
      case isTrue hfails => exact .failing hfails
      case isFalse hsafe => exact .safe hsafe
  | @crossed k rest p converged hfirst hrest hmet hnegative =>
    have hside := side_of_crossing hfirst rest
    have hcell := (Root.Ray.mem_cell_of_met hstep hlength hrest hmet).1
    refine ⟨fun p' hp' => ?_, ?_⟩
    · cases hp'
      exact ⟨k, hfirst, hcell, hside.symm⟩
    · dsimp only
      split
      case isTrue hfails => exact .before hfails
      case isFalse hsafe =>
        -- The inner end of a first crossing is not zero, hence the ray is safe on this side of it.
        refine .beyond ?_
        have hne := sign_eq_zero_iff.not.mpr hfirst.ne_zero
        rw [← hside] at hne
        cases hvalue : side (z 0 :: (c.ray.marched (k + 1) ++ rest).map z) with
        | zero => exact absurd hvalue hne
        | neg => exact absurd hvalue hsafe
        | pos => rfl

/-- **Sides.** Every direction is counted by the side of its ray, on which the inner end of its
first crossing lies, too; and where the tails are probabilities, so are all contributions and the
means of what has been searched, among them those after every direction of a run. -/
theorem directions_count_by_side {c : Config ℝ} (hc : c.validate = .ok ()) {m : Model ℝ}
    (hfinite : Model.FiniteEverywhere m.setup m.limitState) :
    (∀ d, d.length = m.dimension → ∃ z s asked r,
      (∀ x, m.value (Coordinates.scale x d) = .ok (z x)) ∧
      m.value (Coordinates.origin m.dimension) = .ok (z 0) ∧
      c.ray.find (z 0) (alongRay m d) = Root.asking (alongRay m d) asked s ∧
      (∀ j, (search c m (z 0) d).exec j = (.ok r, j.spend asked.length)) ∧
      (∀ p, s.root = some p → InnerEndOn c.ray z (side (z 0 :: asked.map z)) p) ∧
      Counted m.dimension (side (z 0 :: asked.map z)) s.root r) ∧
    (Radius.IsProbability →
      (∀ z0 d r j j', (search c m z0 d).exec j = (.ok r, j') → r.probability ∈ Icc (0 : ℝ) 1) ∧
      (∀ searched : List (List ℝ × Contribution ℝ),
        (∀ f ∈ searched, ∃ z0 j j', (search c m z0 f.1).exec j = (.ok f.2, j')) →
        (searched.foldl Tally.addFound (.empty m.dimension)).pf ∈ Icc (0 : ℝ) 1) ∧
      ∀ {σ : Type} [RandomSource σ ℝ] (source : σ) (e : Estimate ℝ) (j j' : Journal ℝ),
        (estimateOn c m source).exec j = (.ok e, j') →
        ∃ z0 source' ds rs t, m.value (Coordinates.origin m.dimension) = .ok z0 ∧
          Drawn (nextDirection m.dimension Random.tries) (found c m z0) source ds rs source' ∧
          c.sampling.Stops m.monitor Tally.addFound Tally.standing (.empty m.dimension) j.reports
            j'.reports (ds.zip rs) t e.status ∧
          ∀ k, (((ds.zip rs).take k).foldl Tally.addFound (.empty m.dimension)).pf ∈
            Icc (0 : ℝ) 1) := by
  refine ⟨fun d hd => ?direction, fun htails => ⟨?contribution, ?mean, ?run⟩⟩
  case direction =>
    obtain ⟨z, hz, horigin, n, h⟩ := exists_search hc hfinite hd
    obtain ⟨rest, s, hends, hasking, hexec⟩ := h c.rayMethod
    exact ⟨z, s, _, _, hz, horigin, hasking, hexec, counted_of_ends hc hends m.dimension⟩
  case contribution =>
    intro z0 d r j j' hexec
    exact probability_search_mem htails hexec
  case mean =>
    intro searched hsearched
    refine pf_foldl_addFound_mem fun f hf => ?_
    obtain ⟨z0, j, j', hexec⟩ := hsearched f hf
    exact probability_search_mem htails hexec
  case run =>
    intro σ _ source e j j' h
    obtain ⟨z0, source', ds, rs, t, horigin, hdrawn, hstops, -⟩ :=
      stops_of_exec (Config.validate_iff.mp hc).1 h
    refine ⟨z0, source', ds, rs, t, horigin, hdrawn, hstops, fun k => ?_⟩
    refine pf_foldl_addFound_mem fun f hf => ?_
    exact hdrawn.probability_mem htails f.2 (List.of_mem_zip (List.mem_of_mem_take hf)).2

end

/-- Where the origin is safe, a ray that leads to failure is counted by what lies beyond its
crossing. -/
theorem directions_count_by_side_beyond :
    (Config.unitSteps 4 4).validate = .ok () ∧
      Model.FiniteEverywhere (beyond (3 / 2)).setup (beyond (3 / 2)).limitState ∧
      [(1 : ℝ)].length = (beyond (3 / 2)).dimension ∧ Radius.IsProbability ∧
      ∃ (s : Root.Search ℝ) (asked : List ℝ) (r : Contribution ℝ),
        (∀ j, (search (.unitSteps 4 4) (beyond (3 / 2)) (3 / 2) [1]).exec j =
          (.ok r, j.spend asked.length)) ∧
        Counted 1 1 s.root r ∧ r.probability ∈ Icc (0 : ℝ) 1 := by
  have hvalid := Config.validate_unitSteps four_pos four_ne_zero
  obtain ⟨hdirection, hprobability⟩ :=
    directions_count_by_side hvalid (finiteEverywhere_beyond (3 / 2))
  obtain ⟨z, s, asked, r, hz, -, -, hexec, -, hcounted⟩ := hdirection [1] rfl
  have hzero : z 0 = 3 / 2 := by
    rw [Except.ok.inj ((hz 0).symm.trans (value_beyond (3 / 2) 0)), abs_zero, sub_zero]
  have hside : side (z 0 :: asked.map z) = 1 := by
    have hfirst := side_append [z 0] (asked.map z)
    rwa [side_singleton, hzero, sign_pos (by norm_num), if_neg one_ne_zero, ← hzero] at hfirst
  rw [hside] at hcounted
  rw [hzero] at hexec
  exact ⟨hvalid, finiteEverywhere_beyond (3 / 2), rfl, Radius.isProbability_standard, s, asked, r,
    hexec, hcounted, (hprobability Radius.isProbability_standard).1 _ _ _ .empty _ (hexec .empty)⟩

end Directional

end FailureProbability
