import FailureProbability.Proofs.Root.Bracket
import FailureProbability.Proofs.Root.Search

/-!
# Narrowing a bracket

What a search inside a bracket preserves, whatever the function is and however often the older end
was retained. The ends lie apart and have values of strictly opposite sign, and the older end counts
with a positive share of its own value (`Straddles`). So a secant is never level, every abscissa
that is proposed lies strictly between the ends, and the next bracket is inside this one. Only a
value of exactly zero ends this, and with it the search. `Course` says so of a whole search.

The function is any function on exact numbers. Its values are used through their signs, and through
the shares of the secants; that the share of a damped value stays positive is what keeps a secant
from leaving the bracket, however small it becomes.

A search that begins at a root has no bracket that is astride. It is done before its first step, and
the statements on steps are about none.
-/

namespace FailureProbability.Root.Bracket

/-- A proper share of the way from one number to another lies strictly between them. -/
theorem sub_share_mem {x y share : ℝ} (hne : x ≠ y) (hshare : share ∈ Set.Ioo 0 1) :
    y - share * (y - x) ∈ Set.uIoo x y := by
  obtain ⟨hpos, hlt⟩ := hshare
  rcases lt_or_gt_of_ne hne with h | h
  · exact Set.mem_uIoo_of_lt (by nlinarith) (by nlinarith)
  · exact Set.mem_uIoo_of_gt (by nlinarith) (by nlinarith)

section

variable [SpecialFunctions] {s : Bracket ℝ}

/-! ## The value of the older end -/

/-- The older end counts with a positive share of its value. -/
def Damped (s : Bracket ℝ) : Prop := ∃ share, 0 < share ∧ share ≤ 1 ∧ s.za = share * s.a.z

omit [SpecialFunctions] in
theorem Damped.sign_eq (h : s.Damped) : SignType.sign s.za = SignType.sign s.a.z := by
  obtain ⟨share, hpos, -, heq⟩ := h
  rw [heq, sign_mul, sign_pos hpos, one_mul]

omit [SpecialFunctions] in
theorem Damped.abs_le (h : s.Damped) : |s.za| ≤ |s.a.z| := by
  obtain ⟨share, hpos, hle, heq⟩ := h
  rw [heq, abs_mul, abs_of_pos hpos]
  exact mul_le_of_le_one_left (abs_nonneg _) hle

/-- A step keeps the older end damped: it is exchanged, or its value is cut down once more. -/
theorem Damped.observe (h : s.Damped) (method : Method) (c : Point ℝ) :
    (s.observe method c).Damped := by
  by_cases hcross : c.z ≠ 0 ∧ c.z * s.b.z ≤ 0
  · -- An end that has just become the older one counts in full.
    rw [observe_of_crosses method hcross.1 hcross.2]
    exact ⟨1, one_pos, le_rfl, (one_mul _).symm⟩
  · rw [not_and_or, not_not, not_le] at hcross
    obtain ⟨factor, hfactor, hle, heq⟩ := observe_of_stays method hcross
    obtain ⟨share, hshare, hshare', hza⟩ := h
    rw [heq]
    refine ⟨share * factor, mul_pos hshare hfactor, mul_le_one₀ hshare' hfactor.le hle, ?_⟩
    simp only [hza]
    ring

theorem Damped.iterate (h : s.Damped) (method : Method) (f : ℝ → ℝ) (n : ℕ) :
    ((step method f)^[n] s).Damped := by
  induction n with
  | zero => exact h
  | succ n ih =>
    rw [Function.iterate_succ_apply']
    exact ih.observe method _

/-! ## One step -/

/-- The ends lie apart, with values of strictly opposite sign, and the older one is damped. -/
structure Straddles (s : Bracket ℝ) : Prop where
  apart : s.a.x ≠ s.b.x
  opposite : s.a.z * s.b.z < 0
  damped : s.Damped

omit [SpecialFunctions] in
theorem Straddles.za_mul_neg (h : s.Straddles) : s.za * s.b.z < 0 := by
  obtain ⟨share, hpos, -, heq⟩ := h.damped
  rw [heq, mul_assoc]
  exact mul_neg_of_pos_of_neg hpos h.opposite

omit [SpecialFunctions] in
/-- A secant is never level. -/
theorem Straddles.sub_za_ne_zero (h : s.Straddles) : s.b.z - s.za ≠ 0 := by
  intro hzero
  have hneg := h.za_mul_neg
  rw [sub_eq_zero.mp hzero] at hneg
  exact absurd hneg (not_lt.mpr (mul_self_nonneg s.za))

/-- Every method proposes an abscissa strictly between the ends. -/
theorem Straddles.proposal_mem (h : s.Straddles) (method : Method) :
    s.proposal method ∈ Set.uIoo s.a.x s.b.x := by
  obtain ⟨share, hshare, heq⟩ := exists_share h.za_mul_neg method
  rw [heq]
  exact sub_share_mem h.apart hshare

/-- A step keeps the bracket astride unless it comes upon a root. -/
theorem Straddles.step (h : s.Straddles) {method : Method} {f : ℝ → ℝ}
    (hz : f (s.proposal method) ≠ 0) : (s.step method f).Straddles := by
  have hmem := h.proposal_mem method
  unfold Bracket.step
  refine ⟨?_, ?_, h.damped.observe method _⟩
  · -- The newer end lies strictly between the two of which the older one is one.
    rw [b_observe]
    intro hx
    have hx : (s.observe method _).a.x = s.proposal method := hx
    rcases a_observe method s ⟨s.proposal method, f (s.proposal method)⟩ with heq | heq
    · rw [← hx, heq] at hmem
      exact Set.left_notMem_uIoo hmem
    · rw [← hx, heq] at hmem
      exact Set.right_notMem_uIoo hmem
  · generalize s.proposal method = x at hz
    by_cases hcross : f x * s.b.z ≤ 0
    · rw [observe_of_crosses method hz hcross, mul_comm]
      have hb : s.b.z ≠ 0 := right_ne_zero_of_mul h.opposite.ne
      exact lt_of_le_of_ne hcross (mul_ne_zero hz hb)
    · have hsame : 0 < f x * s.b.z := not_le.mp hcross
      obtain ⟨factor, -, -, heq⟩ := observe_of_stays method (c := ⟨x, f x⟩) (.inr hsame)
      rw [heq]
      have hprod : (s.a.z * f x) * (s.b.z * s.b.z) < 0 :=
        calc (s.a.z * f x) * (s.b.z * s.b.z) = (s.a.z * s.b.z) * (f x * s.b.z) := by ring
          _ < 0 := mul_neg_of_neg_of_pos h.opposite hsame
      exact neg_of_mul_neg_left hprod (mul_self_nonneg _)

/-! ## The brackets of a search -/

section

variable {method : Method} {f : ℝ → ℝ}

/-- Until a root is an end, every bracket is astride. -/
theorem Open.straddles_iterate (hs : s.Open → s.Straddles) (n : ℕ)
    (hbefore : ∀ k < n, ((Bracket.step method f)^[k] s).Open)
    (hopen : ((Bracket.step method f)^[n] s).Open) :
    ((Bracket.step method f)^[n] s).Straddles := by
  induction n with
  | zero => exact hs hopen
  | succ n ih =>
    have hprevious := ih (fun k hk => hbefore k (Nat.lt_succ_of_lt hk)) (hbefore n n.lt_succ_self)
    rw [Function.iterate_succ_apply'] at hopen ⊢
    refine hprevious.step ?_
    have hnewer := hopen.newer
    rw [Bracket.step, b_observe] at hnewer
    exact hnewer

/-- The first bracket with a root for an end has it for its answer, and the others are astride. -/
theorem Open.opposite_or_root (hs : s.Open → s.Straddles) (n : ℕ)
    (hbefore : ∀ k < n, ((Bracket.step method f)^[k] s).Open) :
    ((Bracket.step method f)^[n] s).a.z * ((Bracket.step method f)^[n] s).b.z < 0 ∨
      ((Bracket.step method f)^[n] s).answer.z = 0 := by
  by_cases hroot : ((Bracket.step method f)^[n] s).a.z = 0 ∨
      ((Bracket.step method f)^[n] s).b.z = 0
  · exact .inr (answer_eq_zero hroot)
  · rw [not_or] at hroot
    exact .inl (Open.straddles_iterate hs n hbefore ⟨hroot.1, hroot.2⟩).opposite

/-- The abscissas that the first `n` brackets of a search propose. -/
noncomputable def proposals (method : Method) (f : ℝ → ℝ) (s : Bracket ℝ) (n : ℕ) : List ℝ :=
  (List.range n).map fun k => ((step method f)^[k] s).proposal method

/-- A point that a search has met: an end of its first bracket or a value that it asked for. -/
def Met (f : ℝ → ℝ) (a b : Point ℝ) (asked : List ℝ) (p : Point ℝ) : Prop :=
  p = a ∨ p = b ∨ ∃ x ∈ asked, p = ⟨x, f x⟩

omit [SpecialFunctions] in
theorem Met.append {a b p : Point ℝ} {asked : List ℝ} (h : Met f a b asked p) (more : List ℝ) :
    Met f a b (asked ++ more) p := by
  refine h.imp_right (Or.imp_right ?_)
  rintro ⟨x, hx, rfl⟩
  exact ⟨x, List.mem_append_left _ hx, rfl⟩

/-- The ends of every bracket are points that the search has met. -/
theorem met_iterate (method : Method) (f : ℝ → ℝ) (s : Bracket ℝ) (n : ℕ) :
    Met f s.a s.b (proposals method f s n) ((step method f)^[n] s).a ∧
      Met f s.a s.b (proposals method f s n) ((step method f)^[n] s).b := by
  induction n with
  | zero => exact ⟨.inl rfl, .inr (.inl rfl)⟩
  | succ n ih =>
    have hlist : proposals method f s (n + 1) =
        proposals method f s n ++ [((step method f)^[n] s).proposal method] := by
      unfold proposals
      rw [List.range_succ, List.map_append, List.map_singleton]
    rw [Function.iterate_succ_apply', hlist, step, b_observe]
    constructor
    · rcases a_observe method ((step method f)^[n] s) ⟨_, f _⟩ with heq | heq
      · rw [heq]
        exact ih.1.append _
      · rw [heq]
        exact ih.2.append _
    · exact .inr (.inr ⟨_, by simp, rfl⟩)

end

/-- What holds of both ends holds of the answer. -/
theorem answer_of_ends {P : Point ℝ → Prop} (ha : P s.a) (hb : P s.b) : P s.answer := by
  rcases s.answer_eq_or with heq | heq
  · rw [heq]
    exact ha
  · rw [heq]
    exact hb

/-- The end that is returned is the one of smaller value in size. -/
theorem abs_answer_le (s : Bracket ℝ) : |s.answer.z| ≤ |s.a.z| ∧ |s.answer.z| ≤ |s.b.z| := by
  unfold answer Point.nearer
  simp only [Scalar.abs_eq]
  split
  case isTrue hlt => exact ⟨le_rfl, hlt.le⟩
  case isFalse hle => exact ⟨not_lt.mp hle, le_rfl⟩

/-- How a search from the bracket of `a` and `b` goes that makes `n` steps, through the brackets
`t 0, …, t n`, and returns `p`. -/
structure Course (method : Method) (f : ℝ → ℝ) (a b : Point ℝ) (t : ℕ → Bracket ℝ) (n : ℕ)
    (p : Point ℝ) : Prop where
  /-- The ends have values of strictly opposite sign until the search comes upon a root. -/
  opposite : ∀ k ≤ n, (t k).a.z * (t k).b.z < 0 ∨ k = n ∧ p.z = 0
  inside : ∀ k < n, Set.uIcc (t (k + 1)).a.x (t (k + 1)).b.x ⊆ Set.uIcc (t k).a.x (t k).b.x
  between : ∀ k < n, (t k).proposal method ∈ Set.uIoo (t k).a.x (t k).b.x
  sign : ∀ k ≤ n, SignType.sign (t k).za = SignType.sign (t k).a.z
  damped : ∀ k ≤ n, |(t k).za| ≤ |(t k).a.z|
  /-- Where a secant is drawn it is not level. -/
  sloped : ∀ k < n, (t k).b.z - (t k).za ≠ 0
  isEnd : p = (t n).a ∨ p = (t n).b
  smallest : |p.z| ≤ |(t n).a.z| ∧ |p.z| ≤ |(t n).b.z|
  met : Met f a b ((List.range n).map fun k => (t k).proposal method) p
  mem : p.x ∈ Set.uIcc a.x b.x

omit [SpecialFunctions] in
/-- All brackets lie inside the first one. -/
theorem uIcc_subset_of_inside {t : ℕ → Bracket ℝ} {n : ℕ}
    (hinside : ∀ k < n,
      Set.uIcc (t (k + 1)).a.x (t (k + 1)).b.x ⊆ Set.uIcc (t k).a.x (t k).b.x)
    {k : ℕ} (hk : k ≤ n) :
    Set.uIcc (t k).a.x (t k).b.x ⊆ Set.uIcc (t 0).a.x (t 0).b.x := by
  induction k with
  | zero => exact subset_refl _
  | succ k ih => exact (hinside k hk).trans (ih (Nat.le_of_succ_le hk))

section

variable {a b : Point ℝ} (hapart : a.x ≠ b.x) (hsign : a.crosses b = true)
include hapart hsign

/-- Ends that lie apart, with a change of sign and no root, are astride. -/
theorem straddles_start (hopen : (⟨a, b, a.z, none⟩ : Bracket ℝ).Open) :
    (⟨a, b, a.z, none⟩ : Bracket ℝ).Straddles := by
  have hle : a.z * b.z ≤ 0 := (Point.crosses_iff a b).mp hsign
  have hne : a.z * b.z ≠ 0 := mul_ne_zero hopen.older hopen.newer
  exact ⟨hapart, lt_of_le_of_ne hle hne, 1, one_pos, le_rfl, (one_mul _).symm⟩

/-- The brackets on the way of a search, as long as none of them has a root for an end. -/
theorem course_iterate {method : Method} {f : ℝ → ℝ} {n : ℕ}
    (hopen : ∀ k < n, ((step method f)^[k] ⟨a, b, a.z, none⟩).Open) :
    Course method f a b (fun k => (step method f)^[k] ⟨a, b, a.z, none⟩) n
      ((step method f)^[n] ⟨a, b, a.z, none⟩).answer := by
  have hstart := straddles_start hapart hsign
  have hstraddles : ∀ k < n, ((step method f)^[k] ⟨a, b, a.z, none⟩).Straddles := fun k hk =>
    Open.straddles_iterate hstart k (fun i hi => hopen i (hi.trans hk)) (hopen k hk)
  have hdamped : ∀ k, ((step method f)^[k] ⟨a, b, a.z, none⟩).Damped :=
    Damped.iterate ⟨1, one_pos, le_rfl, (one_mul _).symm⟩ method f
  have hinside : ∀ k < n, _ := fun k hk =>
    Function.iterate_succ_apply' (step method f) k ⟨a, b, a.z, none⟩ ▸
      uIcc_step_subset f (Set.uIoo_subset_uIcc_self ((hstraddles k hk).proposal_mem method))
  refine
    { opposite := ?_
      inside := hinside
      between := fun k hk => (hstraddles k hk).proposal_mem method
      sign := fun k _ => (hdamped k).sign_eq
      damped := fun k _ => (hdamped k).abs_le
      sloped := fun k hk => (hstraddles k hk).sub_za_ne_zero
      isEnd := answer_eq_or _
      smallest := abs_answer_le _
      met := ?_
      mem := ?_ }
  · intro k hk
    rcases Nat.lt_or_eq_of_le hk with hlt | rfl
    · exact .inl (hstraddles k hlt).opposite
    · -- The last bracket may have come upon a root.
      exact (Open.opposite_or_root hstart k hopen).imp_right fun hroot => ⟨rfl, hroot⟩
  · obtain ⟨hmeta, hmetb⟩ := met_iterate method f ⟨a, b, a.z, none⟩ n
    exact answer_of_ends hmeta hmetb
  · have hends := uIcc_subset_of_inside (t := fun k => (step method f)^[k] ⟨a, b, a.z, none⟩)
      hinside le_rfl
    exact answer_of_ends (P := fun p => p.x ∈ Set.uIcc a.x b.x) (hends Set.left_mem_uIcc)
      (hends Set.right_mem_uIcc)

end

/-- Every abscissa that is proposed lies strictly inside the first bracket. -/
theorem mem_proposals {a b : Point ℝ} {method : Method} {f : ℝ → ℝ} {n : ℕ} {p : Point ℝ}
    (h : Course method f a b (fun k => (step method f)^[k] ⟨a, b, a.z, none⟩) n p) {x : ℝ}
    (hx : x ∈ proposals method f ⟨a, b, a.z, none⟩ n) : x ∈ Set.uIoo a.x b.x := by
  obtain ⟨k, hk, rfl⟩ := List.mem_map.mp hx
  have hk : k < n := List.mem_range.mp hk
  have hinside := uIcc_subset_of_inside (t := fun k => (step method f)^[k] ⟨a, b, a.z, none⟩)
    h.inside hk.le
  exact Set.uIoo_subset_Ioo (hinside Set.left_mem_uIcc) (hinside Set.right_mem_uIcc)
    (h.between k hk)

/-! ## The search -/

/-- A search for a root of a function, and the abscissas that it asks for. -/
noncomputable def trace (method : Method) (tolerance : ℝ) (budget : ℕ) (f : ℝ → ℝ)
    (s : Bracket ℝ) : Search ℝ × List ℝ :=
  (solve method tolerance budget s (noted f) : StateM (List ℝ) (Search ℝ)).run []

/-- A search notes what the brackets on its way propose. -/
theorem exists_trace_eq (method : Method) (tolerance : ℝ) (budget : ℕ) (f : ℝ → ℝ)
    (s : Bracket ℝ) :
    ∃ n ≤ budget, (∀ k < n, ((step method f)^[k] s).isDone tolerance = false) ∧
      (n < budget → ((step method f)^[n] s).isDone tolerance = true) ∧
      trace method tolerance budget f s =
        (⟨some ((step method f)^[n] s).answer, n, ((step method f)^[n] s).isDone tolerance⟩,
          proposals method f s n) := by
  obtain ⟨n, hn, hbefore, hlast, heq⟩ := exists_narrow_eq_asking method tolerance f budget s
  refine ⟨n, hn, hbefore, hlast, ?_⟩
  unfold trace solve
  rw [heq (answers_noted f) 0, run_asking_noted, List.nil_append, Nat.zero_add]
  rfl

/-- From points apart between which the sign changes, a search goes through brackets with ends of
opposite sign, each inside the one before and each with an abscissa strictly between its ends, and
returns the better end of the last one. -/
theorem search_keeps_bracket {a b : Point ℝ} (hapart : a.x ≠ b.x) (hsign : a.crosses b = true)
    (method : Method) (tolerance : ℝ) (budget : ℕ) (f : ℝ → ℝ) :
    ∃ s n t p, new a b = .ok s ∧ t = (fun k => (step method f)^[k] s) ∧ n ≤ budget ∧
      trace method tolerance budget f s =
        (⟨some p, n, (t n).isDone tolerance⟩,
          (List.range n).map fun k => (t k).proposal method) ∧
      Course method f a b t n p := by
  obtain ⟨n, hn, hbefore, -, heq⟩ :=
    exists_trace_eq method tolerance budget f ⟨a, b, a.z, none⟩
  refine ⟨_, n, _, _, Ray.new_of_crosses hsign, rfl, hn, heq, ?_⟩
  exact course_iterate hapart hsign fun k hk => open_of_not_isDone (hbefore k hk)

end

/-- On the ledge the second value has the sign of the first, so that the older end is damped. -/
theorem search_keeps_bracket_ledge :
    (⟨0, -1⟩ : Point ℝ).x ≠ (⟨1, 1999⟩ : Point ℝ).x ∧
      (⟨0, -1⟩ : Point ℝ).crosses ⟨1, 1999⟩ = true ∧
      ∃ s n t p, new ⟨0, -1⟩ ⟨1, 1999⟩ = .ok s ∧
        t = (fun k => (step .andersonBjorck ledge)^[k] s) ∧ n ≤ 2 ∧
        trace .andersonBjorck (1 / 100) 2 ledge s =
          (⟨some p, n, (t n).isDone (1 / 100)⟩,
            (List.range n).map fun k => (t k).proposal .andersonBjorck) ∧
        Course .andersonBjorck ledge ⟨0, -1⟩ ⟨1, 1999⟩ t n p := by
  have hapart : (⟨0, -1⟩ : Point ℝ).x ≠ (⟨1, 1999⟩ : Point ℝ).x := zero_ne_one
  have hsign : (⟨0, -1⟩ : Point ℝ).crosses ⟨1, 1999⟩ = true :=
    (Point.crosses_iff _ _).mpr (by norm_num)
  exact ⟨hapart, hsign, search_keeps_bracket hapart hsign .andersonBjorck (1 / 100) 2 ledge⟩

end FailureProbability.Root.Bracket
