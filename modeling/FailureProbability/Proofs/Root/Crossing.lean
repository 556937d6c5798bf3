import FailureProbability.Proofs.Root.March
import FailureProbability.Proofs.Root.Narrowing

/-!
# The first crossing of a ray

A ray search marches over its grid until a cell crosses, and then either narrows that cell or
chooses a point for it. Whatever it does there, it stays inside the cell (`Ray.Ends`): so what it
returns is a point of the first cell that crosses. It returns none when the march has ended without
one, and tells whether that was at the end of the ray or of its budget.

Nothing is asked of the function. It need not be continuous, and a crossing is a change of sign
between two points of the grid, behind the first value that is not zero; what lies between two
points is only seen by a refinement, and changes of sign that come in pairs inside a cell are not
seen at all. The values are exact numbers, so that the signs of a cell are there.

The budget is one for march and refinement together. Where it ends the search early the answer is
the best point so far, or none if the march has not come to a crossing.
-/

namespace FailureProbability.Root

section

variable [SpecialFunctions]

/-! ## The further point of a march

A policy that interpolates asks for one more value, at the zero of the line through the two ends of
the crossing. It does so only while there is budget left, and it is the only policy that asks for
anything behind the march. -/

namespace March

/-- Across a crossing the line is zero behind the first point and not behind the second. -/
theorem interpolation?_of_crosses {p q : Point ℝ} (hx : p.x < q.x) (hp : p.z ≠ 0)
    (hsign : p.z * q.z ≤ 0) : ∃ x ∈ Set.Ioc p.x q.x, interpolation? p q = some x := by
  have hne : ¬(q.z == p.z) = true := by
    rw [beq_iff]
    intro heq
    rw [heq] at hsign
    exact hp (mul_self_eq_zero.mp (le_antisymm hsign (mul_self_nonneg _)))
  obtain ⟨hpos, hle⟩ := Bracket.share_mem_Ioc hp (mul_comm p.z q.z ▸ hsign)
  have heq : p.x - p.z * (q.x - p.x) / (q.z - p.z) =
      p.x + p.z / (p.z - q.z) * (q.x - p.x) := by
    rw [← neg_sub p.z q.z, div_neg]
    ring
  refine ⟨_, ?_, if_neg hne⟩
  rw [heq]
  have hwidth : 0 < q.x - p.x := sub_pos.mpr hx
  constructor
  · linarith [mul_pos hpos hwidth]
  · linarith [mul_le_of_le_one_left hwidth.le hle]

/-- Without a crossing there is no answer, whatever the policy. -/
theorem answer_of_uncrossed {s : March ℝ} (hun : s.crossing? = none) (choice : Choice) :
    s.answer choice = none := by
  cases s with
  | level last => rfl
  | onSide last => rfl
  | crossed before after last => cases hun

/-- What a policy returns for a crossing is one of the points it knows. -/
theorem exists_answer_of_crossed (choice : Choice) (p q r : Point ℝ) :
    ∃ c, (crossed p q r).answer choice = some c ∧ (c = p ∨ c = q ∨ c = r) ∧
      (choice = .firstNegative → c = if p.z < 0 then p else q) := by
  cases choice with
  | lastX => exact ⟨q, rfl, .inr (.inl rfl), fun h => by cases h⟩
  | minAbsZ =>
    refine ⟨p.nearer q, rfl, ?_, fun h => by cases h⟩
    unfold Point.nearer
    split
    · exact .inl rfl
    · exact .inr (.inl rfl)
  | interpolate => exact ⟨r, rfl, .inr (.inr rfl), fun h => by cases h⟩
  | firstNegative =>
    refine ⟨if p.z < 0 then p else q, by simp only [answer, Scalar.zero_eq], ?_, fun _ => rfl⟩
    split
    · exact .inl rfl
    · exact .inr (.inl rfl)

/-- The further point of a crossing, if there is one, lies in its cell; else the outer end takes its
place. -/
theorem exists_further_eq_asking {p q : Point ℝ} (hx : p.x < q.x) (hp : p.z ≠ 0)
    (hsign : p.z * q.z ≤ 0) (choice : Choice) (f : ℝ → ℝ) {budget n : ℕ} (hn : n ≤ budget)
    (converged : Bool) :
    ∃ rest r converged', n + rest.length ≤ budget ∧ (∀ x ∈ rest, x ∈ Set.Ioc p.x q.x) ∧
      Bracket.Met f p q rest r ∧
      ∀ {M : Type → Type} [Monad M] [LawfulMonad M] {F : ℝ → M ℝ}, Answers F f →
        (if choice = .interpolate then interpolate budget ⟨crossed p q q, n, converged⟩ F
          else pure ⟨crossed p q q, n, converged⟩) =
          asking F rest ⟨crossed p q r, n + rest.length, converged'⟩ := by
  obtain ⟨x, hmem, hinterpolation⟩ := interpolation?_of_crosses hx hp hsign
  have hnone : ∀ y ∈ ([] : List ℝ), y ∈ Set.Ioc p.x q.x := fun _ h => absurd h List.not_mem_nil
  by_cases hchoice : choice = .interpolate
  · by_cases hspent : budget ≤ n
    · -- The budget is spent, which leaves the outer end and a search that has not converged.
      refine ⟨[], q, false, hn, hnone, .inr (.inl rfl), ?_⟩
      intro M _ _ F _
      simp [interpolate, crossing?, hinterpolation, hspent, asking, hchoice]
    · refine ⟨[x], ⟨x, f x⟩, converged, not_le.mp hspent, ?_, ?_, ?_⟩
      · intro y hy
        rw [List.mem_singleton.mp hy]
        exact hmem
      · exact .inr (.inr ⟨x, List.mem_singleton_self x, rfl⟩)
      · intro M _ _ F hF
        simp only [if_pos hchoice, interpolate, crossing?, Option.bind_some, hinterpolation,
          if_neg hspent, asking]
        rw [hF.bind]
        rfl
  · refine ⟨[], q, converged, hn, hnone, .inr (.inl rfl), ?_⟩
    intro M _ _ F _
    rw [if_neg hchoice]
    rfl

section

variable {M : Type → Type} [Monad M] {F : ℝ → M ℝ}

/-- There is nothing to interpolate before a crossing. -/
theorem interpolate_of_uncrossed {w : Walk ℝ} (hun : w.state.crossing? = none) (budget : ℕ) :
    interpolate budget w F = pure w := by
  unfold interpolate
  rw [hun]
  rfl

/-- A march that has been walked, and the points that are asked for besides. -/
theorem solve_eq_asking [LawfulMonad M] {choice : Choice} {step maxX : ℝ} {budget : ℕ} {s : March ℝ}
    {w w' : Walk ℝ} {asked rest : List ℝ}
    (hwalk : advance step maxX F budget 0 s = asking F asked w)
    (hrest : (if choice = .interpolate then interpolate budget w F else pure w) =
      asking F rest w') :
    solve choice step maxX budget s F =
      asking F (asked ++ rest) ⟨w'.state.answer choice, w'.evaluations, w'.converged⟩ := by
  unfold solve
  rw [hwalk]
  refine asking_bind ?_
  have hreturn := asking_return (f := F)
    (fun w : Walk ℝ => (⟨w.state.answer choice, w.evaluations, w.converged⟩ : Search ℝ)) rest w'
  by_cases hchoice : choice = .interpolate
  · rw [if_pos hchoice] at hrest ⊢
    rw [hrest]
    exact hreturn
  · rw [if_neg hchoice] at hrest ⊢
    rw [hrest]
    exact hreturn

end

end March

/-! ## The refinement of a crossing -/

/-- A refinement stays strictly inside its first bracket, and returns what it has met. -/
theorem Bracket.exists_solve_eq_asking {a b : Point ℝ} (hapart : a.x ≠ b.x)
    (hsign : a.crosses b = true) (method : Method) (tolerance : ℝ) (budget : ℕ) (f : ℝ → ℝ) :
    ∃ rest p converged, rest.length ≤ budget ∧ (∀ x ∈ rest, x ∈ Set.uIoo a.x b.x) ∧
      Met f a b rest p ∧
      ∀ {M : Type → Type} [Monad M] [LawfulMonad M] {F : ℝ → M ℝ}, Answers F f →
        solve method tolerance budget ⟨a, b, a.z, none⟩ F =
          asking F rest ⟨some p, rest.length, converged⟩ := by
  obtain ⟨n, hn, hbefore, -, heq⟩ :=
    exists_narrow_eq_asking method tolerance f budget ⟨a, b, a.z, none⟩
  have hcourse := course_iterate hapart hsign fun k hk => open_of_not_isDone (hbefore k hk)
  have hlength : (proposals method f ⟨a, b, a.z, none⟩ n).length = n := by simp [proposals]
  refine ⟨proposals method f ⟨a, b, a.z, none⟩ n, _,
    ((step method f)^[n] ⟨a, b, a.z, none⟩).isDone tolerance, hlength.trans_le hn,
    fun x hx => mem_proposals hcourse hx, hcourse.met, ?_⟩
  intro M _ _ F hF
  rw [hlength]
  have hsolve := heq hF 0
  rw [Nat.zero_add] at hsolve
  exact hsolve

/-! ## How a search ends

Three predicates keep apart what is known of a search: over how many cells it has marched
(`Marches`), what it has asked for besides and what it answers (`Finds`), and in which of the
two ways it has come to its end (`Ends`). The first two hold in every monad, the last is about
values. -/

namespace Ray

/-- How a search ends that has marched over `n` cells and asked for the values at `rest`
besides. -/
inductive Ends (ray : Ray ℝ) (z0 : ℝ) (f : ℝ → ℝ) : ℕ → List ℝ → Search ℝ → Prop
  /-- No cell has crossed, and either the end is reached or the budget is spent. -/
  | uncrossed {n : ℕ} {converged : Bool} (hno : ∀ j < n, ¬CrossesAt (ray.point z0 f) j)
      (hlast : n = ray.budget ∨ ray.abscissa n = ray.maxLength)
      (hconverged : converged = true ↔ ray.abscissa n = ray.maxLength) :
      Ends ray z0 f n [] ⟨none, n, converged⟩
  /-- The last cell is the first that crosses, and the search has stayed inside it. -/
  | crossed {k : ℕ} {rest : List ℝ} {p : Point ℝ} {converged : Bool}
      (hfirst : IsFirstCrossing (ray.point z0 f) k)
      (hrest : ∀ x ∈ rest, x ∈ Set.Ioc (ray.abscissa k) (ray.abscissa (k + 1)))
      (hmet : Bracket.Met f (ray.point z0 f k) (ray.point z0 f (k + 1)) rest p)
      (hnegative : ray.method = .linearLoop .firstNegative →
        p = if (ray.point z0 f k).z < 0 then ray.point z0 f k else ray.point z0 f (k + 1)) :
      Ends ray z0 f (k + 1) rest ⟨some p, k + 1 + rest.length, converged⟩

/-- The abscissas of a march over `n` cells. -/
noncomputable def marched (ray : Ray ℝ) (n : ℕ) : List ℝ :=
  (List.range n).map fun i => ray.abscissa (i + 1)

/-- The march of a search goes over `n` cells and ends as `w`, whatever the values do besides. -/
def Marches (ray : Ray ℝ) (z0 : ℝ) (f : ℝ → ℝ) (n : ℕ) (w : March.Walk ℝ) : Prop :=
  ∀ {M : Type → Type} [Monad M] [LawfulMonad M] {F : ℝ → M ℝ}, Answers F f →
    March.advance ray.step ray.maxLength F ray.budget 0 (March.ofPoints [⟨0, z0⟩]) =
      asking F (ray.marched n) w

/-- A search marches over `n` cells, asks for the values at `rest` besides, and answers `s`. -/
def Finds (ray : Ray ℝ) (z0 : ℝ) (f : ℝ → ℝ) (n : ℕ) (rest : List ℝ) (s : Search ℝ) : Prop :=
  ∀ {M : Type → Type} [Monad M] [LawfulMonad M] {F : ℝ → ExceptT (Error ℝ) M ℝ}, Answers F f →
    ray.find z0 F = asking F (ray.marched n ++ rest) s

variable {ray : Ray ℝ} {z0 : ℝ} {f : ℝ → ℝ}

/-- A search whose march has not come to a crossing asks for nothing else. -/
theorem Marches.finds_of_uncrossed {n : ℕ} {w : March.Walk ℝ} (hmarch : Marches ray z0 f n w)
    (hun : w.state.crossing? = none) :
    Finds ray z0 f n [] ⟨none, w.evaluations, w.converged⟩ := by
  intro M _ _ F hF
  have hwalk := hmarch hF
  unfold find
  rw [Scalar.zero_eq]
  cases ray.method with
  | linearLoop choice =>
    have hrest : (if choice = .interpolate then March.interpolate ray.budget w F else pure w) =
        asking F [] w := by
      rw [March.interpolate_of_uncrossed hun, ite_self]
      rfl
    have hsolve := March.solve_eq_asking hwalk hrest
    rw [March.answer_of_uncrossed hun] at hsolve
    exact hsolve
  | robust refinement =>
    dsimp only
    rw [hwalk]
    refine asking_bind ?_
    rw [hun]
    rfl

/-! ## From a crossing on

Behind a crossing the two kinds of searches have nothing in common but this: they stay in the cell
and return a point of it that they have seen. That is all that is needed of them later. -/

section

variable (hstep : 0 < ray.step) (hlength : 0 < ray.maxLength)
include hstep hlength

/-- A cell that crosses first is not empty. -/
theorem abscissa_lt_of_crossing {k : ℕ} (h : IsFirstCrossing (ray.point z0 f) k) :
    ray.abscissa k < ray.abscissa (k + 1) := by
  refine abscissa_lt_succ hstep (lt_of_le_of_ne (ray.abscissa_le k) fun hend => ?_)
  have hmul := h.mul_nonpos
  have hnext : ray.abscissa (k + 1) = ray.abscissa k :=
    le_antisymm (hend ▸ ray.abscissa_le (k + 1)) (abscissa_mono hstep k.le_succ)
  have hsame : (ray.point z0 f (k + 1)).z = (ray.point z0 f k).z := by
    rw [z_point hstep hlength, z_point hstep hlength, x_point hlength, x_point hlength, hnext]
  rw [hsame] at hmul
  exact h.ne_zero (mul_self_eq_zero.mp (le_antisymm hmul (mul_self_nonneg _)))

omit [SpecialFunctions] in
/-- What has been met of a cell lies in it, with its value. -/
theorem mem_cell_of_met {k : ℕ} {rest : List ℝ} {p : Point ℝ}
    (hrest : ∀ x ∈ rest, x ∈ Set.Ioc (ray.abscissa k) (ray.abscissa (k + 1)))
    (hmet : Bracket.Met f (ray.point z0 f k) (ray.point z0 f (k + 1)) rest p) :
    p.x ∈ Set.Icc (ray.abscissa k) (ray.abscissa (k + 1)) ∧ p.z = value z0 f p.x := by
  have hle : ray.abscissa k ≤ ray.abscissa (k + 1) := abscissa_mono hstep k.le_succ
  rcases hmet with rfl | rfl | ⟨x, hx, rfl⟩
  · refine ⟨?_, z_point hstep hlength k⟩
    rw [x_point hlength]
    exact Set.left_mem_Icc.mpr hle
  · refine ⟨?_, z_point hstep hlength (k + 1)⟩
    exact Set.right_mem_Icc.mpr hle
  · have hpos : 0 < x := (abscissa_nonneg hstep hlength k).trans_lt (hrest x hx).1
    exact ⟨Set.Ioc_subset_Icc_self (hrest x hx), (value_of_pos hpos).symm⟩

section

variable {k : ℕ} {converged : Bool} (hfirst : IsFirstCrossing (ray.point z0 f) k)
  (hk : k + 1 ≤ ray.budget)
  (hmarch : Marches ray z0 f (k + 1)
    ⟨.crossed (ray.point z0 f k) (ray.point z0 f (k + 1)) (ray.point z0 f (k + 1)), k + 1,
      converged⟩)
include hfirst hk hmarch

/-- A linear loop chooses a point for the crossing. -/
theorem exists_finds_of_loop {choice : March.Choice} (hmethod : ray.method = .linearLoop choice) :
    ∃ rest s, k + 1 + rest.length ≤ ray.budget ∧ Ends ray z0 f (k + 1) rest s ∧
      Finds ray z0 f (k + 1) rest s := by
  have hx : (ray.point z0 f k).x < (ray.point z0 f (k + 1)).x := by
    rw [x_point hlength, x_point hlength]
    exact abscissa_lt_of_crossing hstep hlength hfirst
  obtain ⟨rest, r, converged', hcount, hrest, hr, heq⟩ := March.exists_further_eq_asking hx
    hfirst.ne_zero hfirst.mul_nonpos choice f hk converged
  obtain ⟨c, hanswer, hc, hnegative⟩ :=
    March.exists_answer_of_crossed choice (ray.point z0 f k) (ray.point z0 f (k + 1)) r
  have hmet : Bracket.Met f (ray.point z0 f k) (ray.point z0 f (k + 1)) rest c := by
    rcases hc with rfl | rfl | rfl
    · exact .inl rfl
    · exact .inr (.inl rfl)
    · exact hr
  rw [x_point hlength, x_point hlength] at hrest
  refine ⟨rest, ⟨some c, k + 1 + rest.length, converged'⟩, hcount, ?_, ?_⟩
  · refine .crossed hfirst hrest hmet fun h => hnegative ?_
    rw [hmethod] at h
    exact Method.linearLoop.inj h
  · intro M _ _ F hF
    rw [← hanswer]
    unfold find
    rw [hmethod, Scalar.zero_eq]
    exact March.solve_eq_asking (hmarch hF) (heq hF)

/-- A robust search refines the crossing. -/
theorem exists_finds_of_refinement {refinement : Bracket.Method}
    (hmethod : ray.method = .robust refinement) :
    ∃ rest s, k + 1 + rest.length ≤ ray.budget ∧ Ends ray z0 f (k + 1) rest s ∧
      Finds ray z0 f (k + 1) rest s := by
  have hlt : ray.abscissa k < ray.abscissa (k + 1) := abscissa_lt_of_crossing hstep hlength hfirst
  have hapart : (ray.point z0 f k).x ≠ (ray.point z0 f (k + 1)).x := by
    rw [x_point hlength, x_point hlength]
    exact hlt.ne
  obtain ⟨rest, p, converged', hcount, hrest, hmet, heq⟩ := Bracket.exists_solve_eq_asking hapart
    hfirst.1.2 refinement ray.tolerance (ray.budget - (k + 1)) f
  rw [x_point hlength, x_point hlength, Set.uIoo_of_lt hlt] at hrest
  refine ⟨rest, ⟨some p, k + 1 + rest.length, converged'⟩, by omega, ?_, ?_⟩
  · refine .crossed hfirst (fun x hx => Set.Ioo_subset_Ioc_self (hrest x hx)) hmet fun h => ?_
    rw [hmethod] at h
    cases h
  · intro M _ _ F hF
    unfold find
    rw [hmethod, Scalar.zero_eq]
    dsimp only
    rw [hmarch hF]
    refine asking_bind ?_
    -- The march has come to a crossing, so that the bracket is not refused.
    dsimp only [March.crossing?]
    rw [new_of_crosses hfirst.1.2]
    have hreturn := asking_return (f := F)
      (fun s : Search ℝ => { s with evaluations := k + 1 + s.evaluations }) rest
      ⟨some p, rest.length, converged'⟩
    rw [← heq hF] at hreturn
    exact (pure_bind _ _).trans hreturn

end

/-! ## The whole search -/

/-- The march of a search, from the origin. -/
theorem exists_marches (z0 : ℝ) (f : ℝ → ℝ) :
    ∃ n ≤ ray.budget, ∃ t, March.Sees (ray.point z0 f) n t ∧
      (t.crossing? = none → n = ray.budget ∨ ray.abscissa n = ray.maxLength) ∧
      Marches ray z0 f n ⟨t, n, (t.proposal? ray.step ray.maxLength).isNone⟩ := by
  obtain ⟨n, hn, t, ht, hlast, heq⟩ := March.exists_advance_eq_asking hstep hlength ray.budget
    (March.sees_start (ray.point z0 f))
  simp only [Nat.zero_add] at ht hlast heq
  refine ⟨n, hn, t, ht, hlast, fun hF => ?_⟩
  have hwalk := heq hF 0
  rw [Nat.zero_add] at hwalk
  exact hwalk

/-- Whatever its method, a search marches over the same cells, which do not cross, until it ends in
the one that does. -/
theorem exists_finds_of_methods (z0 : ℝ) (f : ℝ → ℝ) :
    ∃ n, ∀ method, ∃ rest s, n + rest.length ≤ ray.budget ∧
      Ends { ray with method := method } z0 f n rest s ∧
      Finds { ray with method := method } z0 f n rest s := by
  obtain ⟨n, hn, t, ht, hlast, hmarch⟩ := exists_marches hstep hlength z0 f
  refine ⟨n, fun method => ?_⟩
  cases hcross : t.crossing? with
  | none =>
    have hconverged : (t.proposal? ray.step ray.maxLength).isNone = true ↔
        ray.abscissa n = ray.maxLength := by
      rw [March.proposal?_of_uncrossed hstep hlength ht hcross]
      split
      case isTrue hend => simp [hend]
      case isFalse hend => simp [hend]
    have hends : Ends { ray with method := method } z0 f n [] ⟨none, n, _⟩ :=
      .uncrossed (ht.not_crossesAt hcross) (hlast hcross) hconverged
    have hmarch : Marches { ray with method := method } z0 f n _ := hmarch
    exact ⟨[], _, hn, hends, hmarch.finds_of_uncrossed hcross⟩
  | some crossing =>
    cases ht with
    | level => cases hcross
    | onSide => cases hcross
    | @crossed k hfirst =>
      have hfirst : IsFirstCrossing (point { ray with method := method } z0 f) k := hfirst
      have hmarch : Marches { ray with method := method } z0 f (k + 1) _ := hmarch
      have hstep : 0 < step { ray with method := method } := hstep
      cases method with
      | linearLoop choice => exact exists_finds_of_loop hstep hlength hfirst hn hmarch rfl
      | robust refinement => exact exists_finds_of_refinement hstep hlength hfirst hn hmarch rfl

/-- A search marches over cells that do not cross, until it ends in the one that does. -/
theorem exists_finds (z0 : ℝ) (f : ℝ → ℝ) :
    ∃ n rest s, n + rest.length ≤ ray.budget ∧ Ends ray z0 f n rest s ∧
      Finds ray z0 f n rest s := by
  obtain ⟨n, h⟩ := exists_finds_of_methods hstep hlength z0 f
  exact ⟨n, h ray.method⟩

/-! ## The first crossing -/

omit [SpecialFunctions] in
/-- A march does not leave the ray. -/
theorem mem_marched {n : ℕ} {x : ℝ} (hx : x ∈ ray.marched n) : x ∈ Set.Icc 0 ray.maxLength := by
  obtain ⟨i, -, rfl⟩ := List.mem_map.mp hx
  exact ⟨abscissa_nonneg hstep hlength (i + 1), ray.abscissa_le (i + 1)⟩

omit hstep hlength in
theorem Ends.evaluations_eq {n : ℕ} {rest : List ℝ} {s : Search ℝ} (h : Ends ray z0 f n rest s) :
    s.evaluations = n + rest.length := by
  cases h with
  | uncrossed => rfl
  | crossed => rfl

theorem Ends.mem_rest {n : ℕ} {rest : List ℝ} {s : Search ℝ} (h : Ends ray z0 f n rest s) {x : ℝ}
    (hx : x ∈ rest) : x ∈ Set.Icc 0 ray.maxLength := by
  cases h with
  | uncrossed => exact absurd hx List.not_mem_nil
  | crossed _ hrest =>
    obtain ⟨hlow, hhigh⟩ := hrest x hx
    exact ⟨(abscissa_nonneg hstep hlength _).trans hlow.le, hhigh.trans (ray.abscissa_le _)⟩

/-- What is returned is a point of the first cell that crosses. -/
theorem Ends.root_mem {n : ℕ} {rest : List ℝ} {s : Search ℝ} {p : Point ℝ}
    (h : Ends ray z0 f n rest s) (hp : s.root = some p) :
    p.z = value z0 f p.x ∧ ∃ k, IsFirstCrossing (ray.point z0 f) k ∧
      p.x ∈ Set.Icc (ray.abscissa k) (ray.abscissa (k + 1)) := by
  cases h with
  | uncrossed => cases hp
  | crossed hfirst hrest hmet =>
    obtain rfl := Option.some.inj hp
    obtain ⟨hmem, hz⟩ := mem_cell_of_met hstep hlength hrest hmet
    exact ⟨hz, _, hfirst, hmem⟩

omit hstep hlength in
/-- The policy returns the end that fails, or a zero. -/
theorem Ends.nonpos_of_firstNegative {n : ℕ} {rest : List ℝ} {s : Search ℝ} {p : Point ℝ}
    (h : Ends ray z0 f n rest s) (hp : s.root = some p)
    (hmethod : ray.method = .linearLoop .firstNegative) : p.z ≤ 0 := by
  cases h with
  | uncrossed => cases hp
  | crossed hfirst hrest hmet hnegative =>
    obtain rfl := Option.some.inj hp
    rw [hnegative hmethod]
    split
    case isTrue hneg => exact hneg.le
    case isFalse hge =>
      have hpos := lt_of_le_of_ne (not_lt.mp hge) hfirst.ne_zero.symm
      exact nonpos_of_mul_nonpos_right hfirst.mul_nonpos hpos

omit hstep hlength in
/-- Without a root no cell has crossed, and the search tells whether it has seen them all. -/
theorem Ends.of_root_eq_none {n : ℕ} {rest : List ℝ} {s : Search ℝ} (h : Ends ray z0 f n rest s)
    (hnone : s.root = none) :
    rest = [] ∧ (∀ k < n, ¬CrossesAt (ray.point z0 f) k) ∧
      (n = ray.budget ∨ ray.abscissa n = ray.maxLength) ∧
      (s.converged = true ↔ ray.abscissa n = ray.maxLength) := by
  cases h with
  | uncrossed hno hlast hconverged => exact ⟨rfl, hno, hlast, hconverged⟩
  | crossed => cases hnone

/-- What a search that has asked for the values at `asked` tells of the first crossing. -/
structure Meets (ray : Ray ℝ) (z0 : ℝ) (f : ℝ → ℝ) (s : Search ℝ) (asked : List ℝ) : Prop where
  counts : s.evaluations = asked.length
  within : asked.length ≤ ray.budget
  along : ∀ x ∈ asked, x ∈ Set.Icc 0 ray.maxLength
  point : ∀ p, s.root = some p → p.z = value z0 f p.x
  /-- What is returned lies in the first cell that crosses behind a value that is not zero. -/
  first : ∀ p, s.root = some p → ∃ k, IsFirstCrossing (ray.point z0 f) k ∧
    p.x ∈ Set.Icc (ray.abscissa k) (ray.abscissa (k + 1))
  /-- A search that has converged without a root has seen the whole grid, and no cell crosses. -/
  whole : s.root = none → s.converged = true → ∃ n, asked = ray.marched n ∧
    ray.abscissa n = ray.maxLength ∧ ∀ k < n, ¬CrossesAt (ray.point z0 f) k
  nonpos : ray.method = .linearLoop .firstNegative → ∀ p, s.root = some p → p.z ≤ 0

/-- A search for the first crossing, and the abscissas that it asks for. -/
noncomputable def trace (ray : Ray ℝ) (z0 : ℝ) (f : ℝ → ℝ) :
    Except (Error ℝ) (Search ℝ) × List ℝ :=
  (ray.find z0 (noted f) : ExceptT (Error ℝ) (StateM (List ℝ)) (Search ℝ)).run.run []

/-- A search that is noted tells what every other search does. -/
theorem exists_trace_eq (z0 : ℝ) (f : ℝ → ℝ) :
    ∃ n rest s, n + rest.length ≤ ray.budget ∧ Ends ray z0 f n rest s ∧
      ray.trace z0 f = (.ok s, ray.marched n ++ rest) := by
  obtain ⟨n, rest, s, hcount, hends, hfind⟩ := exists_finds hstep hlength z0 f
  refine ⟨n, rest, s, hcount, hends, ?_⟩
  unfold trace
  rw [hfind (answers_noted f), run_run_asking_noted, List.nil_append]

/-- A search never fails. It asks for values along the ray only, not for more than its budget, and
what it returns is a point of the first crossing. -/
theorem find_meets_first_crossing (z0 : ℝ) (f : ℝ → ℝ) :
    ∃ s asked, ray.trace z0 f = (.ok s, asked) ∧ Meets ray z0 f s asked := by
  obtain ⟨n, rest, s, hcount, hends, htrace⟩ := exists_trace_eq hstep hlength z0 f
  have hlen : (ray.marched n ++ rest).length = n + rest.length := by simp [marched]
  refine ⟨s, _, htrace, ?_⟩
  refine
    { counts := hends.evaluations_eq.trans hlen.symm
      within := hlen.trans_le hcount
      along := ?_
      point := fun p hp => (hends.root_mem hstep hlength hp).1
      first := fun p hp => (hends.root_mem hstep hlength hp).2
      whole := ?_
      nonpos := fun hmethod p hp => hends.nonpos_of_firstNegative hp hmethod }
  · intro x hx
    rcases List.mem_append.mp hx with hmarched | hrest
    · exact mem_marched hstep hlength hmarched
    · exact hends.mem_rest hstep hlength hrest
  · intro hnone hconverged
    obtain ⟨hrest, hno, -, hwhole⟩ := hends.of_root_eq_none hnone
    rw [hrest, List.append_nil]
    exact ⟨n, rfl, hwhole.mp hconverged, hno⟩

end

end Ray

end

/-- The origin is a zero that is no crossing, and the last cell is a short one. -/
theorem Ray.find_meets_first_crossing_descent :
    0 < (⟨2, 5, 1 / 100, .linearLoop .firstNegative, 10⟩ : Ray ℝ).step ∧
      0 < (⟨2, 5, 1 / 100, .linearLoop .firstNegative, 10⟩ : Ray ℝ).maxLength ∧
      ∃ s asked,
        Ray.trace ⟨2, 5, 1 / 100, .linearLoop .firstNegative, 10⟩ 0 (fun x => 9 / 2 - x) =
          (.ok s, asked) ∧
        Meets ⟨2, 5, 1 / 100, .linearLoop .firstNegative, 10⟩ 0 (fun x => 9 / 2 - x) s asked := by
  have hstep : (0 : ℝ) < 2 := by norm_num
  have hlength : (0 : ℝ) < 5 := by norm_num
  exact ⟨hstep, hlength, Ray.find_meets_first_crossing hstep hlength 0 _⟩

end FailureProbability.Root
