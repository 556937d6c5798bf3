import Mathlib
import FailureProbability.Proofs.Root.Asked
import FailureProbability.Scalar.Exact

/-!
# Brackets of a continuous function

The search inside a bracket is followed here for a continuous function of exact numbers. Every step
leaves a bracket inside the one before, at whose ends the function has values of opposite sign, so
that the function has a zero between the ends all along. Whether the abscissa that is returned is
near such a zero is another matter: it is when the search has ended at a small bracket, and it need
not be when the search has ended at a small step.

## Why a small step is not enough

Secants approach a zero from one side, and each of them may come only a little closer: on a function
that is level and then steep the steps are small far from the zero. A search that takes the size of
its last step for that of its error ends there and says that it has converged. `ledge` is such a
function, and neither damping the older end nor returning the better one helps against it. Bisection
is not deceived, since its steps are as wide as its brackets (`lastStep_iterate_bisection`).

That points are on the function, and that the sign changes between them, is all that is asked of the
first bracket. Continuity enters at the end, where a zero is named.
-/

namespace FailureProbability.Root

/-- The line through points between which the sign changes is zero at a share of the way back. -/
theorem Bracket.share_mem_Ioc {v w : ℝ} (hw : w ≠ 0) (h : v * w ≤ 0) :
    w / (w - v) ∈ Set.Ioc 0 1 := by
  rcases mul_nonpos_iff.mp h with ⟨hv, hw'⟩ | ⟨hv, hw'⟩
  · have hneg : w < 0 := lt_of_le_of_ne hw' hw
    have hdiff : w - v < 0 := by linarith
    exact ⟨div_pos_of_neg_of_neg hneg hdiff, (div_le_one_of_neg hdiff).mpr (by linarith)⟩
  · have hpos : 0 < w := lt_of_le_of_ne hw' hw.symm
    have hdiff : 0 < w - v := by linarith
    exact ⟨div_pos hpos hdiff, (div_le_one hdiff).mpr (by linarith)⟩

/-- Where the signs are opposite, the share is a proper one. -/
theorem Bracket.share_mem_Ioo {v w : ℝ} (h : v * w < 0) : w / (w - v) ∈ Set.Ioo 0 1 := by
  have hw : w ≠ 0 := right_ne_zero_of_mul h.ne
  obtain ⟨hpos, hle⟩ := share_mem_Ioc hw h.le
  refine ⟨hpos, lt_of_le_of_ne hle fun hone => left_ne_zero_of_mul h.ne ?_⟩
  have hdiff : w - v ≠ 0 := fun hzero => by simp [hzero] at hpos
  linarith [(div_eq_one_iff_eq hdiff).mp hone]

section

variable [SpecialFunctions]

theorem beq_iff (x y : ℝ) : (x == y) = true ↔ x = y := decide_eq_true_iff

theorem beq_zero_iff (x : ℝ) : (x == 0) = true ↔ x = 0 := beq_iff x 0

/-- The sign changes between two points, one of which may be a root. -/
theorem Point.crosses_iff (p q : Point ℝ) : p.crosses q = true ↔ p.z * q.z ≤ 0 := by
  unfold crosses
  rw [Scalar.zero_eq]
  simp only [Bool.or_eq_true, beq_zero_iff, bne_iff_ne, ne_eq, decide_eq_decide]
  constructor
  · rintro ((hp | hq) | hsign)
    · simp [hp]
    · simp [hq]
    · rcases le_or_gt 0 p.z with hp | hp
      · have hq : q.z < 0 := by
          by_contra hq
          exact hsign (iff_of_false (not_lt.mpr hp) hq)
        exact mul_nonpos_of_nonneg_of_nonpos hp hq.le
      · have hq : 0 ≤ q.z := by
          by_contra hq
          exact hsign (iff_of_true hp (not_le.mp hq))
        exact mul_nonpos_of_nonpos_of_nonneg hp.le hq
  · intro h
    rcases mul_nonpos_iff.mp h with ⟨hp, hq⟩ | ⟨hp, hq⟩
    · rcases eq_or_lt_of_le hq with hzero | hlt
      · exact .inl (.inr hzero)
      · exact .inr fun hsign => absurd (hsign.mpr hlt) (not_lt.mpr hp)
    · rcases eq_or_lt_of_le hp with hzero | hlt
      · exact .inl (.inl hzero)
      · exact .inr fun hsign => absurd (hsign.mp hlt) (not_lt.mpr hq)

namespace Bracket

/-- A search ends at a root, at a small bracket, or after a small step. -/
theorem isDone_iff (tolerance : ℝ) (s : Bracket ℝ) :
    s.isDone tolerance = true ↔ s.a.z = 0 ∨ s.b.z = 0 ∨ |s.b.x - s.a.x| ≤ tolerance ∨
      ∃ step, s.lastStep = some step ∧ step ≤ tolerance / 2 := by
  have hstep : stepWithin ((2⁻¹ : ℝ) * tolerance) s.lastStep = true ↔
      ∃ step, s.lastStep = some step ∧ step ≤ tolerance / 2 := by
    cases s.lastStep with
    | none =>
      -- A step that was not made is no step, since every bound is finite.
      simp [stepWithin, Scalar.isFinite_eq]
    | some step => simp [stepWithin, div_eq_inv_mul]
  unfold isDone
  rw [Scalar.zero_eq, Scalar.half_eq]
  simp only [Bool.or_eq_true, beq_zero_iff, decide_eq_true_eq, hstep, or_assoc]
  rfl

/-- Every other method takes the zero of the secant, with the value that the older end counts
with. -/
theorem proposal_of_ne_bisection {method : Method} (h : method ≠ .bisection) (s : Bracket ℝ) :
    s.proposal method = s.b.x - s.b.z * (s.b.x - s.a.x) / (s.b.z - s.za) := by
  cases method with
  | bisection => exact absurd rfl h
  | regulaFalsi => rfl
  | andersonBjorck => rfl

/-- The older end is exchanged when the sign has changed. -/
theorem observe_of_crosses (method : Method) {s : Bracket ℝ} {c : Point ℝ} (hz : c.z ≠ 0)
    (h : c.z * s.b.z ≤ 0) : s.observe method c = ⟨s.b, c, s.b.z, some |c.x - s.b.x|⟩ := by
  have hcross : c.crosses s.b = true := (Point.crosses_iff c s.b).mpr h
  have hbeq : (c.z == 0) = false := Bool.eq_false_iff.mpr fun heq => hz ((beq_zero_iff _).mp heq)
  simp only [observe, Scalar.zero_eq, hcross, hbeq, Bool.not_false, Bool.and_self, if_true]
  rfl

/-- The older end stays at a root or a point of the same sign, and counts with a value of the same
sign as before that is not larger. -/
theorem observe_of_stays (method : Method) {s : Bracket ℝ} {c : Point ℝ}
    (h : c.z = 0 ∨ 0 < c.z * s.b.z) :
    ∃ factor, 0 < factor ∧ factor ≤ 1 ∧
      s.observe method c = ⟨s.a, c, s.za * factor, some |c.x - s.b.x|⟩ := by
  have hstays : (c.crosses s.b && !(c.z == 0)) = false := by
    rcases h with hzero | hpos
    · simp [(beq_zero_iff _).mpr hzero]
    · have hcross : c.crosses s.b = false :=
        Bool.eq_false_iff.mpr fun hc => absurd ((Point.crosses_iff _ _).mp hc) (not_le.mpr hpos)
      rw [hcross, Bool.false_and]
  simp only [observe, Scalar.zero_eq, hstays, Bool.false_eq_true, if_false, Scalar.one_eq,
    Scalar.half_eq, Scalar.abs_eq]
  split
  case isTrue hdamped =>
    -- It is damped at a point of the same sign only, where the quotient is positive.
    have hpos : 0 < c.z * s.b.z := by
      refine h.resolve_left fun hzero => ?_
      simp [(beq_zero_iff _).mpr hzero] at hdamped
    have hquotient : 0 < c.z / s.b.z := div_pos_iff.mpr (mul_pos_iff.mp hpos)
    refine ⟨if 0 < 1 - c.z / s.b.z then 1 - c.z / s.b.z else 2⁻¹, ?_, ?_, rfl⟩
    · split
      · assumption
      · norm_num
    · split
      · linarith
      · norm_num
  case isFalse => exact ⟨1, one_pos, le_rfl, by rw [mul_one]⟩

/-! ## One step

A step puts the new point in the place of the newer end, and the newer end in that of the older one
if the sign has changed between them. Otherwise the older end stays and counts with a smaller
value, which keeps its sign. Both times the ends are points of the function with opposite signs. -/

/-- A bracket of a function: its ends are points of the function with values of opposite sign, and
the value that the older end counts with has the sign of its own. -/
structure Encloses (f : ℝ → ℝ) (s : Bracket ℝ) : Prop where
  older : s.a.z = f s.a.x
  newer : s.b.z = f s.b.x
  crosses : s.a.z * s.b.z ≤ 0
  counts : s.a.z = 0 ∨ 0 < s.za * s.a.z

theorem encloses_of_new {f : ℝ → ℝ} {a b : Point ℝ} {s : Bracket ℝ} (h : new a b = .ok s)
    (ha : a.z = f a.x) (hb : b.z = f b.x) : s = ⟨a, b, a.z, none⟩ ∧ s.Encloses f := by
  unfold new at h
  split at h
  case isFalse => cases h
  case isTrue hcross =>
    obtain rfl := Except.ok.inj h
    refine ⟨rfl, ha, hb, (Point.crosses_iff a b).mp hcross, ?_⟩
    rcases eq_or_ne a.z 0 with hzero | hne
    · exact .inl hzero
    · exact .inr (mul_self_pos.mpr hne)

variable {f : ℝ → ℝ} {s : Bracket ℝ}

omit [SpecialFunctions] in
/-- A continuous function has a zero between the ends. -/
theorem Encloses.exists_zero (h : s.Encloses f) (hf : Continuous f) :
    ∃ r ∈ Set.uIcc s.a.x s.b.x, f r = 0 := by
  have hzero : (0 : ℝ) ∈ Set.uIcc (f s.a.x) (f s.b.x) := by
    rw [← h.older, ← h.newer, Set.mem_uIcc]
    rcases mul_nonpos_iff.mp h.crosses with ⟨ha, hb⟩ | ⟨ha, hb⟩
    · exact .inr ⟨hb, ha⟩
    · exact .inl ⟨ha, hb⟩
  exact intermediate_value_uIcc hf.continuousOn hzero

/-- Neither end is a root. -/
structure Open (s : Bracket ℝ) : Prop where
  older : s.a.z ≠ 0
  newer : s.b.z ≠ 0

theorem open_of_not_isDone {tolerance : ℝ} (h : s.isDone tolerance = false) : s.Open := by
  have hno := mt (isDone_iff tolerance s).mpr (Bool.eq_false_iff.mp h)
  rw [not_or, not_or] at hno
  exact ⟨hno.1, hno.2.1⟩

omit [SpecialFunctions] in
/-- The value that the older end counts with and the value of the newer end have opposite signs. -/
theorem Encloses.za_mul_neg (h : s.Encloses f) (ho : s.Open) : s.za * s.b.z < 0 := by
  have hab : s.a.z * s.b.z < 0 := lt_of_le_of_ne h.crosses (mul_ne_zero ho.older ho.newer)
  have hza : 0 < s.za * s.a.z := h.counts.resolve_left ho.older
  have hprod : (s.za * s.b.z) * (s.a.z * s.a.z) < 0 :=
    calc (s.za * s.b.z) * (s.a.z * s.a.z) = (s.za * s.a.z) * (s.a.z * s.b.z) := by ring
      _ < 0 := mul_neg_of_pos_of_neg hza hab
  exact neg_of_mul_neg_left hprod (mul_self_nonneg _)

/-- Every method proposes an abscissa at a proper share of the way between the ends. -/
theorem exists_share (h : s.za * s.b.z < 0) (method : Method) :
    ∃ share ∈ Set.Ioo (0 : ℝ) 1, s.proposal method = s.b.x - share * (s.b.x - s.a.x) := by
  by_cases hbisection : method = .bisection
  · refine ⟨1 / 2, by norm_num, ?_⟩
    rw [hbisection]
    show s.middle = _
    unfold middle
    rw [Scalar.half_eq]
    ring
  · refine ⟨_, share_mem_Ioo h, ?_⟩
    rw [proposal_of_ne_bisection hbisection]
    ring

/-- What is proposed lies between the ends. -/
theorem Encloses.proposal_mem (h : s.Encloses f) (ho : s.Open) (method : Method) :
    s.proposal method ∈ Set.uIcc s.a.x s.b.x := by
  obtain ⟨share, hshare, heq⟩ := exists_share (h.za_mul_neg ho) method
  have hcombination : s.proposal method = share • s.a.x + (1 - share) • s.b.x := by
    rw [heq]
    simp only [smul_eq_mul]
    ring
  rw [hcombination]
  exact convex_uIcc s.a.x s.b.x Set.left_mem_uIcc Set.right_mem_uIcc hshare.1.le
    (sub_nonneg.mpr hshare.2.le) (add_sub_cancel _ _)

/-- The bracket after the value at the abscissa that it proposes. -/
noncomputable def step (method : Method) (f : ℝ → ℝ) (s : Bracket ℝ) : Bracket ℝ :=
  s.observe method ⟨s.proposal method, f (s.proposal method)⟩

/-- The older end of the next bracket is one of the ends. -/
theorem older_step (method : Method) (f : ℝ → ℝ) (s : Bracket ℝ) :
    (s.step method f).a.x ∈ Set.uIcc s.a.x s.b.x := by
  rcases a_observe method s ⟨s.proposal method, f (s.proposal method)⟩ with heq | heq
  · rw [step, heq]
    exact Set.left_mem_uIcc
  · rw [step, heq]
    exact Set.right_mem_uIcc

/-- A step to an abscissa between the ends leaves the bracket nowhere. -/
theorem uIcc_step_subset {method : Method} (f : ℝ → ℝ)
    (h : s.proposal method ∈ Set.uIcc s.a.x s.b.x) :
    Set.uIcc (s.step method f).a.x (s.step method f).b.x ⊆ Set.uIcc s.a.x s.b.x := by
  refine Set.uIcc_subset_uIcc (older_step method f s) ?_
  rw [step, b_observe]
  exact h

/-- A step narrows the bracket, and the next one is again a bracket of the function. -/
theorem Encloses.step (h : s.Encloses f) (ho : s.Open) (method : Method) :
    (s.step method f).Encloses f ∧
      Set.uIcc (s.step method f).a.x (s.step method f).b.x ⊆ Set.uIcc s.a.x s.b.x := by
  refine ⟨?_, uIcc_step_subset f (h.proposal_mem ho method)⟩
  unfold Bracket.step
  generalize s.proposal method = x
  -- The new point takes the place of the older end where it crosses the newer one, and else of the
  -- newer end, with the value of the older one damped.
  by_cases hcross : f x ≠ 0 ∧ f x * s.b.z ≤ 0
  · rw [observe_of_crosses method hcross.1 hcross.2]
    refine ⟨h.newer, rfl, ?_, .inr (mul_self_pos.mpr ho.newer)⟩
    rw [mul_comm]
    exact hcross.2
  · have hstays : f x = 0 ∨ 0 < f x * s.b.z := by
      rw [not_and_or, not_not, not_le] at hcross
      exact hcross
    obtain ⟨factor, hfactor, -, heq⟩ := observe_of_stays method (c := ⟨x, f x⟩) hstays
    rw [heq]
    refine ⟨h.older, rfl, ?_, .inr ?_⟩
    · rcases hstays with hzero | hpos
      · simp [hzero]
      · have hab : s.a.z * s.b.z < 0 := lt_of_le_of_ne h.crosses (mul_ne_zero ho.older ho.newer)
        have hprod : (s.a.z * f x) * (s.b.z * s.b.z) ≤ 0 :=
          calc (s.a.z * f x) * (s.b.z * s.b.z) = (s.a.z * s.b.z) * (f x * s.b.z) := by ring
            _ ≤ 0 := (mul_neg_of_neg_of_pos hab hpos).le
        exact nonpos_of_mul_nonpos_left hprod (mul_self_pos.mpr ho.newer)
    · have hza : 0 < s.za * s.a.z := h.counts.resolve_left ho.older
      calc (0 : ℝ) < s.za * s.a.z * factor := mul_pos hza hfactor
        _ = s.za * factor * s.a.z := by ring

/-- The last step of a bisection is as wide as its bracket. -/
theorem lastStep_bisection (f : ℝ → ℝ) (s : Bracket ℝ) :
    (s.step .bisection f).lastStep =
      some |(s.step .bisection f).b.x - (s.step .bisection f).a.x| := by
  have hproposal : s.proposal .bisection = (s.a.x + s.b.x) / 2 := by
    show s.middle = _
    unfold middle
    rw [Scalar.half_eq]
    ring
  unfold step
  rw [hproposal]
  by_cases hcross : f ((s.a.x + s.b.x) / 2) ≠ 0 ∧ f ((s.a.x + s.b.x) / 2) * s.b.z ≤ 0
  · rw [observe_of_crosses _ hcross.1 hcross.2]
  · rw [not_and_or, not_not, not_le] at hcross
    obtain ⟨factor, -, -, heq⟩ := observe_of_stays .bisection
      (c := ⟨(s.a.x + s.b.x) / 2, f ((s.a.x + s.b.x) / 2)⟩) hcross
    rw [heq]
    -- The middle is as far from one end as from the other.
    have hleft : (s.a.x + s.b.x) / 2 - s.b.x = -((s.b.x - s.a.x) / 2) := by ring
    have hright : (s.a.x + s.b.x) / 2 - s.a.x = (s.b.x - s.a.x) / 2 := by ring
    simp only [hleft, hright, abs_neg]

/-! ## The search

A search is the iteration of its step, up to the first bracket that is done. What a step keeps
is kept by the search, and the reason for which the last bracket is done tells how near its
ends are. -/

/-- The search for a zero of a function that is known. -/
noncomputable def search (method : Method) (tolerance : ℝ) (budget : ℕ) (f : ℝ → ℝ)
    (s : Bracket ℝ) : Search ℝ :=
  solve (m := Id) method tolerance budget s f

theorem narrow_succ {method : Method} {tolerance : ℝ} (hdone : s.isDone tolerance = false)
    (f : ℝ → ℝ) (budget spent : ℕ) :
    narrow (m := Id) method tolerance f (budget + 1) spent s =
      narrow (m := Id) method tolerance f budget (spent + 1) (s.step method f) := by
  simp only [narrow, hdone, Bool.false_eq_true, if_false]
  rfl

/-- A search makes steps until a bracket is done or the budget is spent. In every monad it asks for
what the brackets on its way propose. -/
theorem exists_narrow_eq_asking (method : Method) (tolerance : ℝ) (f : ℝ → ℝ) (budget : ℕ)
    (s : Bracket ℝ) :
    ∃ n ≤ budget, (∀ k < n, ((step method f)^[k] s).isDone tolerance = false) ∧
      (n < budget → ((step method f)^[n] s).isDone tolerance = true) ∧
      ∀ {M : Type → Type} [Monad M] [LawfulMonad M] {F : ℝ → M ℝ}, Answers F f → ∀ spent,
        narrow method tolerance F budget spent s =
          asking F ((List.range n).map fun k => ((step method f)^[k] s).proposal method)
            ⟨some ((step method f)^[n] s).answer, spent + n,
              ((step method f)^[n] s).isDone tolerance⟩ := by
  induction budget generalizing s with
  | zero =>
    exact ⟨0, le_refl 0, fun k hk => absurd hk (Nat.not_lt_zero k),
      fun h => absurd h (Nat.lt_irrefl 0), fun _ _ => rfl⟩
  | succ budget ih =>
    cases hdone : s.isDone tolerance with
    | true =>
      refine ⟨0, Nat.zero_le _, fun k hk => absurd hk (Nat.not_lt_zero k), fun _ => hdone, ?_⟩
      intro M _ _ F _ spent
      simp [narrow, asking, hdone]
    | false =>
      obtain ⟨n, hn, hbefore, hlast, heq⟩ := ih (s.step method f)
      refine ⟨n + 1, Nat.succ_le_succ hn, ?_, fun h => hlast (Nat.lt_of_succ_lt_succ h), ?_⟩
      · intro k hk
        cases k with
        | zero => exact hdone
        | succ k => exact hbefore k (Nat.lt_of_succ_lt_succ hk)
      · intro M _ _ F hF spent
        have hcount : spent + (n + 1) = spent + 1 + n := by omega
        rw [narrow, if_neg (by simp [hdone]), hF.bind, List.range_succ_eq_map, List.map_cons,
          List.map_map, hcount, asking]
        exact congrArg _ (funext fun _ => heq hF (spent + 1))

/-- What a search answers where its values do nothing else. -/
theorem narrow_eq_iterate (method : Method) (tolerance : ℝ) (f : ℝ → ℝ) (budget spent : ℕ)
    (s : Bracket ℝ) :
    ∃ n ≤ budget, (∀ k < n, ((step method f)^[k] s).isDone tolerance = false) ∧
      narrow (m := Id) method tolerance f budget spent s =
        ⟨some ((step method f)^[n] s).answer, spent + n,
          ((step method f)^[n] s).isDone tolerance⟩ := by
  obtain ⟨n, hn, hbefore, -, heq⟩ := exists_narrow_eq_asking method tolerance f budget s
  refine ⟨n, hn, hbefore, (heq (fun _ => rfl) spent).trans ?_⟩
  exact asking_id f _ _

/-- What the steps of a search preserve. -/
theorem Encloses.iterate (h : s.Encloses f) {method : Method} {tolerance : ℝ} {n : ℕ}
    (hbefore : ∀ k < n, ((Bracket.step method f)^[k] s).isDone tolerance = false) :
    ((Bracket.step method f)^[n] s).Encloses f ∧
      Set.uIcc ((Bracket.step method f)^[n] s).a.x ((Bracket.step method f)^[n] s).b.x ⊆
        Set.uIcc s.a.x s.b.x := by
  induction n with
  | zero => exact ⟨h, subset_refl _⟩
  | succ n ih =>
    obtain ⟨hencloses, hinside⟩ := ih fun k hk => hbefore k (Nat.lt_succ_of_lt hk)
    have hopen := open_of_not_isDone (hbefore n (Nat.lt_succ_self n))
    rw [Function.iterate_succ_apply']
    exact ⟨(hencloses.step hopen method).1, (hencloses.step hopen method).2.trans hinside⟩

theorem Encloses.answer (h : s.Encloses f) :
    s.answer.z = f s.answer.x ∧ s.answer.x ∈ Set.uIcc s.a.x s.b.x := by
  rcases s.answer_eq_or with heq | heq
  · rw [heq]
    exact ⟨h.older, Set.left_mem_uIcc⟩
  · rw [heq]
    exact ⟨h.newer, Set.right_mem_uIcc⟩

/-- Where an end is a root the answer is one. -/
theorem answer_eq_zero (h : s.a.z = 0 ∨ s.b.z = 0) : s.answer.z = 0 := by
  unfold answer Point.nearer
  simp only [Scalar.abs_eq]
  split
  case isTrue hlt =>
    refine h.resolve_right fun hb => ?_
    rw [hb, abs_zero] at hlt
    exact absurd hlt (not_lt.mpr (abs_nonneg _))
  case isFalse hle =>
    rcases h with ha | hb
    · rw [ha, abs_zero, not_lt] at hle
      exact abs_nonpos_iff.mp hle
    · exact hb

/-- The last step of a bisection is the width of its bracket at every stage. -/
theorem lastStep_iterate_bisection {method : Method} (hbisection : method = .bisection)
    (hs : s.lastStep = none) (n : ℕ) {last : ℝ}
    (hlast : ((step method f)^[n] s).lastStep = some last) :
    last = |((step method f)^[n] s).b.x - ((step method f)^[n] s).a.x| := by
  subst hbisection
  cases n with
  | zero =>
    rw [Function.iterate_zero, id_eq, hs] at hlast
    cases hlast
  | succ n =>
    rw [Function.iterate_succ_apply', lastStep_bisection] at hlast
    rw [Function.iterate_succ_apply']
    exact (Option.some.inj hlast).symm

/-- A bracket that is done has a zero near its answer, unless it is done by a last step that is
smaller than the bracket. -/
theorem Encloses.exists_zero_near (h : s.Encloses f) (hf : Continuous f) {method : Method}
    (hwidth : method = .bisection → ∀ last, s.lastStep = some last → last = |s.b.x - s.a.x|)
    {tolerance : ℝ} (htolerance : 0 < tolerance) (hdone : s.isDone tolerance = true) :
    ∃ r ∈ Set.uIcc s.a.x s.b.x, f r = 0 ∧
      (|r - s.answer.x| ≤ tolerance ∨
        method ≠ .bisection ∧ ∃ last, s.lastStep = some last ∧ last ≤ tolerance / 2) := by
  obtain ⟨hanswer, hmem⟩ := h.answer
  obtain ⟨r, hr, hzero⟩ := h.exists_zero hf
  have hnear : |r - s.answer.x| ≤ |s.b.x - s.a.x| :=
    Set.abs_sub_le_of_uIcc_subset_uIcc (Set.uIcc_subset_uIcc hmem hr)
  have hroot : s.a.z = 0 ∨ s.b.z = 0 → |s.answer.x - s.answer.x| ≤ tolerance ∧ f s.answer.x = 0 :=
    fun hends => ⟨by simpa using htolerance.le, by rw [← hanswer, answer_eq_zero hends]⟩
  rcases (isDone_iff tolerance s).mp hdone with ha | hb | hsmall | ⟨last, hlast, hle⟩
  · obtain ⟨hself, hends⟩ := hroot (.inl ha)
    exact ⟨s.answer.x, hmem, hends, .inl hself⟩
  · obtain ⟨hself, hends⟩ := hroot (.inr hb)
    exact ⟨s.answer.x, hmem, hends, .inl hself⟩
  · exact ⟨r, hr, hzero, .inl (hnear.trans hsmall)⟩
  · refine ⟨r, hr, hzero, ?_⟩
    by_cases hbisection : method = .bisection
    · left
      rw [← hwidth hbisection last hlast] at hnear
      linarith
    · exact .inr ⟨hbisection, last, hlast, hle⟩

/-- A converged search has a zero between the ends of its last bracket, which lies in the bracket of
the start and holds the abscissa that is returned. The zero is within the tolerance of that abscissa
unless a secant's small last step has ended the search. -/
theorem converged_search_encloses_zero (hf : Continuous f) {a b : Point ℝ} (ha : a.z = f a.x)
    (hb : b.z = f b.x) (hnew : new a b = .ok s) (method : Method) {tolerance : ℝ}
    (htolerance : 0 < tolerance) (budget : ℕ)
    (hconverged : (search method tolerance budget f s).converged = true) :
    ∃ n ≤ budget, ∃ t p r, t = (step method f)^[n] s ∧
      search method tolerance budget f s = ⟨some p, n, true⟩ ∧ p.z = f p.x ∧
      Set.uIcc t.a.x t.b.x ⊆ Set.uIcc a.x b.x ∧ p.x ∈ Set.uIcc t.a.x t.b.x ∧
      r ∈ Set.uIcc t.a.x t.b.x ∧ f r = 0 ∧
      (|r - p.x| ≤ tolerance ∨
        method ≠ .bisection ∧ ∃ last, t.lastStep = some last ∧ last ≤ tolerance / 2) := by
  obtain ⟨hs, hencloses⟩ := encloses_of_new hnew ha hb
  obtain ⟨n, hn, hbefore, heq⟩ := narrow_eq_iterate method tolerance f budget 0 s
  have hsearch : search method tolerance budget f s = _ := heq
  rw [Nat.zero_add] at hsearch
  have hdone : ((step method f)^[n] s).isDone tolerance = true := by
    rw [hsearch] at hconverged
    exact hconverged
  obtain ⟨hlast, hinside⟩ := hencloses.iterate hbefore
  obtain ⟨r, hr, hzero, hwithin⟩ := hlast.exists_zero_near hf
    (fun hbisection _ => lastStep_iterate_bisection hbisection (by rw [hs]) n) htolerance hdone
  obtain ⟨hp, hpmem⟩ := hlast.answer
  rw [hs] at hinside
  rw [hdone] at hsearch
  exact ⟨n, hn, _, _, r, rfl, hsearch, hp, by rwa [hs], hpmem, hr, hzero, hwithin⟩

end Bracket

end

namespace Bracket

/-- The first secant of a line finds its zero. -/
theorem converged_search_encloses_zero_line :
    new (⟨-1, id (-1)⟩ : Point ℝ) ⟨1, id 1⟩ = .ok ⟨⟨-1, -1⟩, ⟨1, 1⟩, -1, none⟩ ∧
      (search .regulaFalsi (1 / 10) 1 id ⟨⟨-1, -1⟩, ⟨1, 1⟩, -1, none⟩).converged = true ∧
      ∃ n ≤ 1, ∃ t p r, t = (step .regulaFalsi id)^[n] ⟨⟨-1, -1⟩, ⟨1, 1⟩, -1, none⟩ ∧
        search .regulaFalsi (1 / 10) 1 id ⟨⟨-1, -1⟩, ⟨1, 1⟩, -1, none⟩ = ⟨some p, n, true⟩ ∧
        p.z = id p.x ∧ Set.uIcc t.a.x t.b.x ⊆ Set.uIcc (-1) 1 ∧ p.x ∈ Set.uIcc t.a.x t.b.x ∧
        r ∈ Set.uIcc t.a.x t.b.x ∧ id r = 0 ∧
        (|r - p.x| ≤ 1 / 10 ∨ Method.regulaFalsi ≠ .bisection ∧
          ∃ last, t.lastStep = some last ∧ last ≤ 1 / 10 / 2) := by
  have hnew : new (⟨-1, id (-1)⟩ : Point ℝ) ⟨1, id 1⟩ = .ok ⟨⟨-1, -1⟩, ⟨1, 1⟩, -1, none⟩ :=
    if_pos ((Point.crosses_iff _ _).mpr (by norm_num))
  have hopen : isDone (1 / 10) (⟨⟨-1, -1⟩, ⟨1, 1⟩, -1, none⟩ : Bracket ℝ) = false := by
    rw [← Bool.not_eq_true, isDone_iff]
    norm_num
    intro last hlast
    cases hlast
  have hconverged :
      (search .regulaFalsi (1 / 10) 1 id ⟨⟨-1, -1⟩, ⟨1, 1⟩, -1, none⟩).converged = true := by
    unfold search solve
    rw [narrow_succ hopen]
    refine (isDone_iff _ _).mpr (.inr (.inl ?_))
    unfold step
    rw [b_observe, proposal_of_ne_bisection (by simp)]
    norm_num
  exact ⟨hnew, hconverged, converged_search_encloses_zero continuous_id rfl rfl hnew .regulaFalsi
    (by norm_num) 1 hconverged⟩

/-! ## A search that stalls -/

/-- Level below zero, and then steep. -/
noncomputable def ledge (t : ℝ) : ℝ := max (-1) (4000 * t - 2001)

theorem continuous_ledge : Continuous ledge := by
  unfold ledge
  fun_prop

theorem ledge_of_le {t : ℝ} (h : t ≤ 1 / 2) : ledge t = -1 := max_eq_left (by linarith)

theorem ledge_one : ledge 1 = 1999 := by
  unfold ledge
  rw [max_eq_right (by norm_num)]
  norm_num

/-- The only zero is on the steep part. -/
theorem eq_of_ledge_eq_zero {t : ℝ} (h : ledge t = 0) : t = 2001 / 4000 := by
  unfold ledge at h
  rcases max_choice (-1 : ℝ) (4000 * t - 2001) with hmax | hmax
  · linarith
  · linarith

/-- The bracket `[0, 1]` of the function. -/
def ledgeBracket : Bracket ℝ := ⟨⟨0, -1⟩, ⟨1, 1999⟩, -1, none⟩

variable {method : Method} (hmethod : method ≠ .bisection)
include hmethod

/-- The first value is on the level part, where the sign has changed. -/
theorem step_ledgeBracket : step method ledge ledgeBracket =
    ⟨⟨1, 1999⟩, ⟨1 / 2000, -1⟩, 1999, some (1999 / 2000)⟩ := by
  have hproposal : (1 : ℝ) - 1999 * (1 - 0) / (1999 - -1) = 1 / 2000 := by norm_num
  unfold step ledgeBracket
  rw [proposal_of_ne_bisection hmethod, hproposal, ledge_of_le (by norm_num),
    observe_of_crosses method (by norm_num) (by norm_num)]
  norm_num

/-- The second one is still there, after a small step. -/
theorem step_step_ledgeBracket : ∃ za, step method ledge (step method ledge ledgeBracket) =
    ⟨⟨1, 1999⟩, ⟨3999 / 4000000, -1⟩, za, some (1999 / 4000000)⟩ := by
  have hproposal : (1 / 2000 : ℝ) - -1 * (1 / 2000 - 1) / (-1 - 1999) = 3999 / 4000000 := by
    norm_num
  rw [step_ledgeBracket hmethod]
  unfold step
  rw [proposal_of_ne_bisection hmethod, hproposal, ledge_of_le (by norm_num)]
  obtain ⟨factor, -, -, heq⟩ := observe_of_stays method
    (s := ⟨⟨1, 1999⟩, ⟨1 / 2000, -1⟩, 1999, some (1999 / 2000)⟩)
    (c := ⟨3999 / 4000000, -1⟩) (.inr (by norm_num))
  refine ⟨1999 * factor, heq.trans ?_⟩
  norm_num

/-- The search ends there, as its last step is less than half the tolerance. -/
theorem search_ledgeBracket : search method (1 / 100) 2 ledge ledgeBracket =
    ⟨some ⟨3999 / 4000000, -1⟩, 2, true⟩ := by
  obtain ⟨za, hsecond⟩ := step_step_ledgeBracket hmethod
  have hstart : ledgeBracket.isDone (1 / 100) = false := by
    rw [← Bool.not_eq_true, isDone_iff]
    norm_num [ledgeBracket]
    intro last hlast
    cases hlast
  have hwide : (step method ledge ledgeBracket).isDone (1 / 100) = false := by
    rw [step_ledgeBracket hmethod, ← Bool.not_eq_true, isDone_iff]
    norm_num
  have hdone : (step method ledge (step method ledge ledgeBracket)).isDone (1 / 100) = true := by
    rw [hsecond, isDone_iff]
    exact .inr (.inr (.inr ⟨_, rfl, by norm_num⟩))
  have hanswer : (step method ledge (step method ledge ledgeBracket)).answer =
      ⟨3999 / 4000000, -1⟩ := by
    rw [hsecond]
    exact if_neg (by norm_num [Scalar.abs_eq])
  unfold search solve
  rw [narrow_succ hstart, narrow_succ hwide]
  unfold narrow
  rw [hanswer, hdone]
  rfl

omit hmethod in
/-- On the level part both secant methods make small steps, however far the zero is. -/
theorem stalled_search_is_far_from_zero :
    Continuous ledge ∧ new ⟨0, ledge 0⟩ ⟨1, ledge 1⟩ = .ok ledgeBracket ∧
      ∀ method ≠ Method.bisection, ∃ p,
        search method (1 / 100) 2 ledge ledgeBracket = ⟨some p, 2, true⟩ ∧
          ∀ r, ledge r = 0 → 1 / 100 < |r - p.x| := by
  refine ⟨continuous_ledge, ?_, fun method hmethod => ⟨_, search_ledgeBracket hmethod, ?_⟩⟩
  · rw [ledge_of_le (by norm_num), ledge_one]
    exact if_pos ((Point.crosses_iff _ _).mpr (by norm_num))
  · intro r hr
    rw [eq_of_ledge_eq_zero hr]
    norm_num

end Bracket

end FailureProbability.Root
