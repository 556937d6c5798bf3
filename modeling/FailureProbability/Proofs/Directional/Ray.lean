import Mathlib
import FailureProbability.Proofs.Directional
import FailureProbability.Proofs.Root.Crossing

/-!
# Rays without a crossing

A direction is counted as a whole when the search along it has found no root. Where the evaluations
of a ray suffice for its grid, the limit state was then evaluated on all of it and no cell crosses.
Where they do not, the search ends before the grid does and says so (`Search.converged`); but the
direction is counted from the root alone, so that a crossing farther out is passed over.
-/

namespace FailureProbability

/-- Settings of sampling within their limits are accepted. -/
theorem Sampling.Config.validate_eq_ok {α : Type} [Scalar α] {c : Sampling.Config α}
    (hmax : c.maxSamples ≠ 0) (hmin : c.minSamples ≤ c.maxSamples)
    (hfailure : Scalar.isPositive c.varCoeffFailure = true)
    (hnoFailure : Scalar.isPositive c.varCoeffNoFailure = true) : c.validate = .ok () := by
  have hall : ∀ e ∈ [("var_coeff_failure", c.varCoeffFailure),
      ("var_coeff_no_failure", c.varCoeffNoFailure)], Scalar.isPositive e.2 = true := by
    simp [hfailure, hnoFailure]
  unfold validate
  rw [if_neg hmax, if_neg (not_lt.mpr hmin)]
  exact bind_eq_ok.mpr ⟨(), forIn_positive_eq_ok.mpr hall, rfl⟩

namespace Directional

/-! ## The limit state along a direction

A ray is searched for a function of the distance from the origin, and what the search asks for are
values of the limit state. Where these exist the search does what it would do for the function
alone; every value costs an evaluation, and its side is noted. -/

section

variable {α : Type} [Scalar α] {m : Model α} {d : List α} {z : α → α}

theorem exec_alongRay {r v : α} (h : m.value (Coordinates.scale r d) = .ok v) (side : Option α)
    (j : Journal α) :
    (alongRay m d r).exec side j = (.ok v, noteSide side v, j.spend 1) := by
  unfold alongRay
  rw [RunWith.exec_bind_ok (RunWith.exec_lift_ok (Model.exec_z_of_value h j) side)]
  rfl

variable (hz : ∀ r, m.value (Coordinates.scale r d) = .ok (z r))
include hz

/-- Along a ray a search sees the values of the limit state. -/
theorem answers_alongRay : Root.Answers (alongRay m d) z := by
  intro r
  refine RunWith.ext_exec fun side j => ?_
  rw [RunWith.exec_bind_ok (exec_alongRay (hz r) side j), exec_alongRay (hz r)]
  rfl

theorem exec_asking_alongRay {β : Type} (asked : List α) (answer : β) (side : Option α)
    (j : Journal α) :
    (Root.asking (alongRay m d) asked answer).exec side j =
      (.ok answer, (asked.map z).foldl noteSide side, j.spend asked.length) := by
  induction asked generalizing side j with
  | nil => rfl
  | cons r asked ih =>
    rw [Root.asking, RunWith.exec_bind_ok (exec_alongRay (hz r) side j), ih, Journal.spend_spend,
      List.length_cons, Nat.add_comm]
    rfl

end

/-! ## Settings -/

/-- Settings are accepted when those of the samples are, when steps, lengths and tolerances are
positive, and when a ray may be evaluated at all. -/
theorem Config.validate_iff {α : Type} [Scalar α] {c : Config α} :
    c.validate = .ok () ↔ c.sampling.validate = .ok () ∧ Scalar.isPositive c.rayStep = true ∧
      Scalar.isPositive c.maxRayLength = true ∧ Scalar.isPositive c.rootTolerance = true ∧
      c.maxRayEvaluations ≠ 0 := by
  unfold validate
  constructor
  · intro h
    obtain ⟨_, hsampling, h⟩ := bind_eq_ok.mp h
    obtain ⟨_, hpositives, h⟩ := bind_eq_ok.mp h
    have hall := forIn_positive_eq_ok.mp hpositives
    simp only [List.forall_mem_cons] at hall
    refine ⟨hsampling, hall.1, hall.2.1, hall.2.2.1, fun hnone => ?_⟩
    rw [if_pos hnone] at h
    cases h
  · rintro ⟨hsampling, hstep, hlength, htolerance, hbudget⟩
    have hall : ∀ e ∈ [("ray_step", c.rayStep), ("max_ray_length", c.maxRayLength),
        ("root_tolerance", c.rootTolerance)], Scalar.isPositive e.2 = true := by
      simp [hstep, hlength, htolerance]
    refine bind_eq_ok.mpr ⟨(), hsampling, bind_eq_ok.mpr ⟨(), forIn_positive_eq_ok.mpr hall, ?_⟩⟩
    rw [if_neg hbudget]
    rfl

theorem Config.ray_pos [SpecialFunctions] {c : Config ℝ} (hc : c.validate = .ok ()) :
    0 < c.ray.step ∧ 0 < c.ray.maxLength := by
  obtain ⟨-, hstep, hlength, -, -⟩ := validate_iff.mp hc
  rw [Scalar.isPositive_eq, decide_eq_true_iff] at hstep hlength
  exact ⟨hstep, hlength⟩

/-! ## Rays that are counted without a crossing

The search along a ray and the count of its direction are two steps, and the second one sees only
the root. Here they are put together again: without a root there is no radius, and what the search
knew when it ended is read off the grid points that it has asked for. -/

/-- A ray has a radius when the search has found a root, and counts as a whole when it has not. -/
theorem radius_contribution {α : Type} [Scalar α] (n : ℕ) (side : Option α)
    (root : Option (Root.Point α)) :
    (contribution n side root).radius = root.map Root.Point.x ∧
      (root = none → (contribution n side root).probability = 0 ∨
        (contribution n side root).probability = 1) := by
  cases root with
  | some p => exact ⟨rfl, fun h => by cases h⟩
  | none =>
    refine ⟨rfl, fun _ => ?_⟩
    simp only [contribution]
    split
    · exact .inr rfl
    · exact .inl rfl

theorem exec_search_of_asking {α : Type} [Scalar α] {c : Config α} {m : Model α} {d : List α}
    {z : α → α} (hz : ∀ r, m.value (Coordinates.scale r d) = .ok (z r)) {z0 : α} {asked : List α}
    {s : Root.Search α}
    (h : c.ray.find z0 (alongRay m d) = Root.asking (alongRay m d) asked s) (j : Journal α) :
    (search c m z0 d).exec j =
      (.ok (contribution d.length ((asked.map z).foldl noteSide (noteSide none z0)) s.root),
        j.spend asked.length) := by
  rw [exec_search, h, exec_asking_alongRay hz]
  rfl

section

variable [SpecialFunctions]

/-- A ray along which the limit state never fails is counted without a radius. -/
theorem radius_eq_none_of_pos {c : Config ℝ} (hc : c.validate = .ok ()) {m : Model ℝ} {d : List ℝ}
    {z : ℝ → ℝ} (hz : ∀ x, m.value (Coordinates.scale x d) = .ok (z x))
    (hpos : ∀ x ∈ Set.Icc 0 c.maxRayLength, 0 < z x) {j j' : Journal ℝ} {r : Contribution ℝ}
    (h : (search c m (z 0) d).exec j = (.ok r, j')) : r.radius = none := by
  obtain ⟨hstep, hlength⟩ := Config.ray_pos hc
  have hpoint : ∀ k, 0 < (c.ray.point (z 0) z k).z := fun k => by
    cases k with
    | zero => exact hpos 0 ⟨le_rfl, hlength.le⟩
    | succ k => exact hpos _ ⟨Root.Ray.abscissa_nonneg hstep hlength _, c.ray.abscissa_le _⟩
  obtain ⟨n, rest, s, -, hends, hfind⟩ := Root.Ray.exists_finds hstep hlength (z 0) z
  rw [exec_search_of_asking hz (hfind (answers_alongRay hz))] at h
  have hr := Except.ok.inj (Prod.mk.inj h).1
  rw [← hr]
  cases hends with
  | uncrossed => rfl
  | @crossed k _ _ _ hfirst =>
    exact absurd hfirst.mul_nonpos (not_le.mpr (mul_pos (hpoint k) (hpoint (k + 1))))

/-- What is known of a ray that is counted without a radius: no cell crosses as far as the limit
state was evaluated, and this is the whole grid when the evaluations of a ray suffice for it. -/
theorem ray_without_radius_was_searched {c : Config ℝ} (hc : c.validate = .ok ()) {m : Model ℝ}
    (hfinite : Model.FiniteEverywhere m.setup m.limitState) {d : List ℝ}
    (hd : d.length = m.dimension) :
    ∃ z s asked r, (∀ x, m.value (Coordinates.scale x d) = .ok (z x)) ∧
      m.value (Coordinates.origin m.dimension) = .ok (z 0) ∧
      c.ray.find (z 0) (alongRay m d) = Root.asking (alongRay m d) asked s ∧
      (∀ j, (search c m (z 0) d).exec j = (.ok r, j.spend asked.length)) ∧
      (r.radius = none → (r.probability = 0 ∨ r.probability = 1) ∧
        ∃ n ≤ c.maxRayEvaluations, asked = c.ray.marched n ∧
          (∀ k < n, ¬Root.CrossesAt (c.ray.point (z 0) z) k) ∧
          (n = c.maxRayEvaluations ∨ c.ray.abscissa n = c.maxRayLength) ∧
          (c.maxRayLength ≤ c.maxRayEvaluations * c.rayStep →
            c.ray.abscissa n = c.maxRayLength)) := by
  obtain ⟨hstep, hlength⟩ := Config.ray_pos hc
  choose z hz using fun x => hfinite.value ((Coordinates.length_scale x d).trans hd)
  have horigin : Coordinates.origin m.dimension = Coordinates.scale 0 d := by
    rw [Coordinates.origin, ← hd, Coordinates.scale]
    simp
  obtain ⟨n, rest, s, hcount, hends, hfind⟩ := Root.Ray.exists_finds hstep hlength (z 0) z
  have hasking := hfind (answers_alongRay hz)
  obtain ⟨hradius, hprobability⟩ := radius_contribution d.length
    (((c.ray.marched n ++ rest).map z).foldl noteSide (noteSide none (z 0))) s.root
  refine ⟨z, s, _, _, hz, by rw [horigin, hz], hasking, exec_search_of_asking hz hasking, ?_⟩
  intro hnone
  have hroot : s.root = none := Option.map_eq_none_iff.mp (hradius.symm.trans hnone)
  have hwhole := hprobability hroot
  rw [Scalar.zero_eq, Scalar.one_eq] at hwhole
  obtain ⟨hrest, hno, hlast, -⟩ := hends.of_root_eq_none hroot
  refine ⟨hwhole, n, ?_, ?_, hno, hlast, ?_⟩
  · exact (Nat.le_add_right n rest.length).trans hcount
  · rw [hrest, List.append_nil]
  · intro hsuffices
    refine hlast.elim (fun hbudget => ?_) id
    rw [hbudget]
    exact min_eq_right hsuffices

end

/-- Steps of one up to a distance, with so many evaluations for a ray. -/
noncomputable def Config.unitSteps (length : ℝ) (budget : ℕ) : Config ℝ :=
  ⟨⟨1, 1, 1, 1, 0, .chacha, true, 0⟩, 1, length, 1, .linearLoop .lastX, budget⟩

theorem Config.validate_unitSteps {length : ℝ} {budget : ℕ} (hlength : 0 < length)
    (hbudget : budget ≠ 0) : (Config.unitSteps length budget).validate = .ok () := by
  have hpositive : ∀ x : ℝ, 0 < x → Scalar.isPositive x = true := fun x hx => by
    rw [Scalar.isPositive_eq, decide_eq_true hx]
  refine Config.validate_iff.mpr ⟨?_, hpositive 1 one_pos, hpositive length hlength,
    hpositive 1 one_pos, hbudget⟩
  exact Sampling.Config.validate_eq_ok one_ne_zero le_rfl (hpositive 1 one_pos)
    (hpositive 1 one_pos)

theorem Config.abscissa_unitSteps {length : ℝ} {budget k : ℕ} (h : (k : ℝ) ≤ length) :
    (Config.unitSteps length budget).ray.abscissa k = k := by
  show min ((k : ℝ) * 1) length = k
  rw [mul_one]
  exact min_eq_left h

/-- A single variable, and failures beyond a distance. -/
noncomputable def beyond (distance : ℝ) : Model ℝ :=
  ⟨.standardNormals 1, fun d => .ok (distance - |d.u.headD 0|), 1, .silent⟩

theorem finiteEverywhere_beyond (distance : ℝ) :
    Model.FiniteEverywhere (beyond distance).setup (beyond distance).limitState :=
  fun u _ => ⟨distance - |u.headD 0|, rfl, rfl⟩

theorem value_beyond (distance x : ℝ) :
    (beyond distance).value (Coordinates.scale x [1]) = .ok (distance - |x|) := by
  show (beyond distance).value [x * 1] = _
  rw [mul_one]
  rfl

/-- Four evaluations suffice for a ray of length four: one that stays short of the failures is
counted without a radius, and was searched to its end. -/
theorem ray_without_radius_was_searched_whole :
    (Config.unitSteps 4 4).validate = .ok () ∧
      Model.FiniteEverywhere (beyond 10).setup (beyond 10).limitState ∧
      [(1 : ℝ)].length = (beyond 10).dimension ∧
      ∃ asked r, (∀ j, (search (.unitSteps 4 4) (beyond 10) 10 [1]).exec j =
          (.ok r, j.spend asked.length)) ∧
        r.radius = none ∧ ∃ n ≤ 4, asked = (Config.unitSteps 4 4).ray.marched n ∧
          (Config.unitSteps 4 4).ray.abscissa n = 4 := by
  have hvalid := Config.validate_unitSteps four_pos four_ne_zero
  obtain ⟨z, s, asked, r, hz, -, -, hexec, hsearched⟩ :=
    ray_without_radius_was_searched hvalid (finiteEverywhere_beyond 10) (d := [1]) rfl
  have hvalue : ∀ x, z x = 10 - |x| := fun x =>
    Except.ok.inj ((hz x).symm.trans (value_beyond 10 x))
  have hnone : r.radius = none := by
    refine radius_eq_none_of_pos hvalid hz (fun x hx => ?_) (hexec .empty)
    have hlength : x ≤ 4 := hx.2
    rw [hvalue, abs_of_nonneg hx.1]
    linarith
  have hzero : z 0 = 10 := by
    rw [hvalue, abs_zero, sub_zero]
  rw [hzero] at hexec
  obtain ⟨-, n, hn, hasked, -, -, hwhole⟩ := hsearched hnone
  refine ⟨hvalid, finiteEverywhere_beyond 10, rfl, asked, r, hexec, hnone, n, hn, hasked,
    hwhole ?_⟩
  show (4 : ℝ) ≤ (4 : ℕ) * 1
  norm_num

/-- With a single evaluation for a ray the direction is counted as safe, although the limit state
fails at the next point of its grid. -/
theorem ray_without_radius_hides_crossing :
    (Config.unitSteps 4 1).validate = .ok () ∧
      Model.FiniteEverywhere (beyond (3 / 2)).setup (beyond (3 / 2)).limitState ∧
      (∀ x, (beyond (3 / 2)).value (Coordinates.scale x [1]) = .ok (3 / 2 - |x|)) ∧
      (∀ j, (search (.unitSteps 4 1) (beyond (3 / 2)) (3 / 2) [1]).exec j =
        (.ok ⟨0, none⟩, j.spend 1)) ∧
      (∃ s, (Config.unitSteps 4 1).ray.find (3 / 2) (alongRay (beyond (3 / 2)) [1]) =
        Root.asking (alongRay (beyond (3 / 2)) [1]) [1] s) ∧
      (Config.unitSteps 4 1).ray.point (3 / 2) (fun x => 3 / 2 - |x|) 1 = ⟨1, 1 / 2⟩ ∧
      (Config.unitSteps 4 1).ray.point (3 / 2) (fun x => 3 / 2 - |x|) 2 = ⟨2, -1 / 2⟩ := by
  have hvalid := Config.validate_unitSteps four_pos one_ne_zero
  obtain ⟨hstep, hlength⟩ := Config.ray_pos hvalid
  have habscissa : ∀ k : ℕ, k ≤ 4 → (Config.unitSteps 4 1).ray.abscissa k = k := fun k hk =>
    Config.abscissa_unitSteps (by exact_mod_cast hk)
  have hone : (Config.unitSteps 4 1).ray.point (3 / 2) (fun x => 3 / 2 - |x|) 1 = ⟨1, 1 / 2⟩ := by
    show (⟨_, 3 / 2 - |_|⟩ : Root.Point ℝ) = _
    norm_num [habscissa 1]
  have htwo : (Config.unitSteps 4 1).ray.point (3 / 2) (fun x => 3 / 2 - |x|) 2 = ⟨2, -1 / 2⟩ := by
    show (⟨_, 3 / 2 - |_|⟩ : Root.Point ℝ) = _
    norm_num [habscissa 2]
  obtain ⟨n, rest, s, hcount, hends, hfind⟩ := Root.Ray.exists_finds hstep hlength (3 / 2)
    fun x => 3 / 2 - |x|
  have hbudget : n + rest.length ≤ 1 := hcount
  have hasked : (Config.unitSteps 4 1).ray.marched n ++ rest = [1] ∧ s.root = none := by
    cases hends with
    | uncrossed hno hlast =>
      have hn : n = 1 := by
        rcases hlast with hlast | hend
        · exact hlast
        · have hfour : (n : ℝ) = (4 : ℕ) :=
            (habscissa n (by omega)).symm.trans (hend.trans Nat.cast_ofNat.symm)
          have hfour : n = 4 := Nat.cast_injective hfour
          omega
      subst hn
      simp [Root.Ray.marched, habscissa 1]
    | @crossed k rest p converged hfirst =>
      -- The first cell does not cross.
      obtain rfl : k = 0 := by omega
      have hmul := hfirst.mul_nonpos
      rw [hone] at hmul
      norm_num [Root.Ray.point] at hmul
  have hasking := hfind (answers_alongRay (value_beyond (3 / 2)))
  rw [hasked.1] at hasking
  refine ⟨hvalid, finiteEverywhere_beyond (3 / 2), value_beyond (3 / 2), fun j => ?_, ⟨s, hasking⟩,
    hone, htwo⟩
  have hside : noteSide none (3 / 2 : ℝ) = some (3 / 2) := by simp [noteSide]
  have hsafe : ¬(3 / 2 : ℝ) < 0 := by norm_num
  rw [exec_search_of_asking (value_beyond (3 / 2)) hasking, hasked.2, hside]
  simp [noteSide, contribution, hsafe]

end Directional

end FailureProbability
