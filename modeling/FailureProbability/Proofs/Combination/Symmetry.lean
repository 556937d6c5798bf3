import Mathlib
import FailureProbability.Proofs.Combination.List
import FailureProbability.Proofs.Form.Answers

/-!
# The order of two events

The combination of two events asks three times which of them comes first: for the event that is the
condition, for the event that sees a variable through a correlation of its own, and for the
direction where the combined index has none. The first choice is between two that agree where it is
open, as events of one probability have one index (`joint_comm`). The second one is none when both
events see the same variables (`sensitivity_comm`), and the third is open only between events with
the same index.

On exact numbers the combination is made for all events that are accepted, as the search behind the
conditional probability always answers; so it is made in both orders or in none.

Of the normal distribution it is supposed that the mass rises strictly, and not that it is
symmetric. The exception for coefficients is stated as it arises (`IsDegenerate`): neither half of
it can be left out, since a combination without a direction of its own takes that of the first event
where the two indices agree.
-/

namespace FailureProbability

open FailureProbability.Normal

section

variable [SpecialFunctions]

/-! ## Combinations that are made -/

namespace Conditional

variable {c : Config ℝ} {rho : ℝ}

theorem form_of_validate (hc : c.validate = .ok ()) : c.form.validate = .ok () := by
  unfold Config.validate at hc
  split at hc
  · cases hc
  · exact hc

/-- The search has two standard-normal variables and a margin that has a value everywhere. -/
theorem exists_solve (hc : c.validate = .ok ()) (q1 beta2 rho : ℝ) :
    ∃ p, solve c q1 beta2 rho = .ok p := by
  have hform := form_of_validate hc
  have hsetup : Setup.independent [.standardNormal, .standardNormal] =
      .ok (.standardNormals 2 : Setup ℝ) := rfl
  have haccepted := Setup.accepted_of_new hsetup
  have hvalue (u : List ℝ) :
      ∃ z, limitState q1 beta2 rho (Draw.start (.standardNormals 2) u) = .ok z := by
    have hmargin : Draw.Answers (.standardNormals 2) u (do
        let w1 ← Draw.value 0
        let w2 ← Draw.value 1
        return margin q1 beta2 rho w1 w2) fun _ => True :=
      Draw.answers_bind (Draw.answers_value haccepted Nat.zero_lt_two) fun _ _ =>
        Draw.answers_bind (Draw.answers_value haccepted Nat.one_lt_two) fun _ _ =>
          Draw.answers_pure trivial
    obtain ⟨z, d, hrun, -⟩ := hmargin _ (Draw.isAt_start ..)
    exact ⟨z, congrArg Prod.fst hrun⟩
  choose v hv using hvalue
  have hvalues : (⟨.standardNormals 2, limitState q1 beta2 rho, 1, .silent⟩ : Model ℝ).HasValues v :=
    fun u hu => bind_eq_ok.mpr ⟨_, Model.draw_eq_ok hu, hv u⟩
  have hstart : (Coordinates.origin 2 : List ℝ).length = 2 := rfl
  obtain ⟨e, j', hexec⟩ := Form.exists_estimateFrom hvalues haccepted
    (Form.Config.validate_iff.mp hform).1 hstart .empty
  refine (exists_bind_eq_ok hsetup).mpr ((exists_bind_eq_ok hform).mpr ?_)
  exact ⟨_, bind_eq_ok.mpr ⟨e, congrArg Prod.fst hexec, rfl⟩⟩

theorem exists_probability (hc : c.validate = .ok ()) (hrho : |rho| ≤ 1) (beta1 beta2 : ℝ) :
    ∃ p, probability c beta1 beta2 rho = .ok p := by
  rw [probability_of_abs_le_one hrho]
  split
  · exact ⟨_, rfl⟩
  · split
    · obtain ⟨p, hp⟩ := exists_solve hc (cdf (-beta1)) beta2 (Scalar.signum rho * c.rhoLimit)
      exact (exists_bind_eq_ok hp).mpr ⟨_, rfl⟩
    · exact exists_solve hc ..

end Conditional

namespace Combination

variable {c : Config ℝ} {rule : Rule} {rho : List ℝ} {a b d : Direction ℝ}

/-- Under accepted settings a combination has a probability for every coefficient. -/
theorem exists_probability {c : Conditional.Config ℝ} (hc : c.validate = .ok ()) {r : ℝ} (hr : |r| ≤ 1)
    (rule : Rule) (betaA betaB : ℝ) : ∃ q, probability c rule betaA betaB r = .ok q := by
  have hjoint : ∃ both, joint c betaA betaB r = .ok both := by
    unfold joint
    dsimp only
    split
    · obtain ⟨p, hp⟩ := Conditional.exists_probability hc hr betaA betaB
      rw [hp]
      exact ⟨_, rfl⟩
    · obtain ⟨p, hp⟩ := Conditional.exists_probability hc hr betaB betaA
      rw [hp]
      exact ⟨_, rfl⟩
  obtain ⟨both, hboth⟩ := hjoint
  exact (exists_bind_eq_ok hboth).mpr ⟨_, rfl⟩

theorem abs_correlation_le_one {r : ℝ} (hr : correlation a b rho = .ok r) : |r| ≤ 1 := by
  obtain ⟨_, -, hr⟩ := bind_eq_ok.mp hr
  have hclamp := Except.ok.inj hr
  rw [Scalar.one_eq, Scalar.clamp_eq (by norm_num)] at hclamp
  rw [← hclamp, abs_le]
  exact ⟨le_max_left _ _, max_le (by norm_num) (min_le_right _ _)⟩

theorem conditional_of_validate (hc : c.validate = .ok ()) : c.conditional.validate = .ok () := by
  unfold Config.validate at hc
  split at hc
  · cases hc
  · exact hc

/-- Events are combined whenever they are accepted. -/
theorem exists_two_of_correlation (hc : c.validate = .ok ()) {r : ℝ}
    (hr : correlation a b rho = .ok r) : ∃ d, two c rule rho a b = .ok d :=
  exists_two_of_probability hc hr
    (exists_probability (conditional_of_validate hc) (abs_correlation_le_one hr) rule)

/-! ## What a combination consists of -/

/-- A combination with the correlation, the probability and the changes of the index that it is made
of. -/
structure MadeOf (c : Config ℝ) (rule : Rule) (rho : List ℝ) (a b : Direction ℝ) (r q : ℝ)
    (alpha : List ℝ) (d : Direction ℝ) : Prop where
  correlation : correlation a b rho = .ok r
  probability : probability c.conditional rule a.beta b.beta r = .ok q
  changes : ((a.alpha.zip (b.alpha.zip rho)).mapM fun e =>
    sensitivity c rule a b r (betaFromQ q) e.1 e.2.1 e.2.2) = .ok alpha
  eq : d = if betaMax ≤ |betaFromQ q| ∨ Coordinates.norm alpha = 0
    then (dominant rule a b).withBeta (betaFromQ q)
    else Direction.normalized ⟨betaFromQ q, alpha⟩

/-- An equivalent event is made of a correlation, a probability and the changes of the index, under
settings that were accepted. -/
theorem madeOf_of_two (hd : two c rule rho a b = .ok d) :
    c.validate = .ok () ∧ ∃ r q alpha, MadeOf c rule rho a b r q alpha d := by
  obtain ⟨_, hc, hd⟩ := bind_eq_ok.mp hd
  obtain ⟨r, hr, hd⟩ := bind_eq_ok.mp hd
  obtain ⟨q, hq, hd⟩ := bind_eq_ok.mp hd
  obtain ⟨alpha, halpha, hd⟩ := bind_eq_ok.mp hd
  refine ⟨hc, r, q, alpha, hr, hq, halpha, ?_⟩
  have hzero : (Coordinates.norm alpha == 0) = true ↔ Coordinates.norm alpha = 0 := decide_eq_true_iff
  rw [Scalar.abs_eq, Scalar.zero_eq] at hd
  split at hd
  case isTrue hnone =>
    rw [if_pos (hnone.imp_right hzero.mp)]
    exact (Except.ok.inj hd).symm
  case isFalse hsome =>
    rw [if_neg fun hnone => hsome (hnone.imp_right hzero.mpr)]
    exact (Except.ok.inj hd).symm

theorem MadeOf.beta_eq {r q : ℝ} {alpha : List ℝ} (h : MadeOf c rule rho a b r q alpha d) :
    d.beta = betaFromQ q := by
  rw [h.eq]
  split
  · rfl
  · exact Direction.beta_normalized _

/-! ## Choices between two events -/

/-- Where two events are equally probable, they have the same index. -/
theorem joint_comm (h : StrictMono (cdf : ℝ → ℝ)) (c : Conditional.Config ℝ) (x y r : ℝ) :
    joint c x y r = joint c y x r := by
  have hmin : Scalar.min (cdf (-x)) (cdf (-y)) = Scalar.min (cdf (-y)) (cdf (-x) : ℝ) := by
    rw [Scalar.min_eq, Scalar.min_eq, min_comm]
  unfold joint
  dsimp only
  rcases lt_trichotomy (cdf (-x) : ℝ) (cdf (-y)) with hlt | heq | hlt
  · rw [if_neg (not_le.mpr hlt), if_pos hlt.le, hmin]
  · obtain rfl : x = y := neg_inj.mp (h.injective heq)
    rfl
  · rw [if_pos hlt.le, if_neg (not_le.mpr hlt), hmin]

/-- The combination of two probabilities is one of symmetric functions of them. -/
theorem probability_comm (h : StrictMono (cdf : ℝ → ℝ)) (c : Conditional.Config ℝ) (rule : Rule)
    (x y r : ℝ) : probability c rule x y r = probability c rule y x r := by
  have hmax : Scalar.max (cdf (-x)) (cdf (-y)) = Scalar.max (cdf (-y)) (cdf (-x) : ℝ) := by
    rw [Scalar.max_eq, Scalar.max_eq, max_comm]
  have hsum : (cdf (-x) + cdf (-y) : ℝ) = cdf (-y) + cdf (-x) := add_comm _ _
  unfold probability
  dsimp only
  rw [joint_comm h, hmax, hsum]

/-- Only the second event sees a variable through its correlation, so that the first one might as
well if both see the same. -/
theorem sensitivity_comm (h : StrictMono (cdf : ℝ → ℝ)) (c : Config ℝ) (rule : Rule)
    (a b : Direction ℝ) (r beta alphaA alphaB : ℝ) :
    sensitivity c rule a b r beta alphaA alphaB 1 = sensitivity c rule b a r beta alphaB alphaA 1 := by
  unfold sensitivity
  dsimp only
  rw [mul_one, mul_one, probability_comm h]

/-- Of two events with different indices one is dominant, whichever comes first. -/
theorem dominant_comm (hne : a.beta ≠ b.beta) : dominant rule a b = dominant rule b a := by
  unfold dominant
  rcases lt_or_gt_of_ne hne with hlt | hlt
  · rw [if_neg (not_le.mpr hlt), if_pos hlt.le, if_neg (not_le.mpr hlt), if_pos hlt.le]
  · rw [if_pos hlt.le, if_neg (not_le.mpr hlt), if_pos hlt.le, if_neg (not_le.mpr hlt)]

/-- An inner product does not depend on the order of its factors. -/
theorem correlation_comm {r : ℝ} (hr : correlation a b rho = .ok r) : correlation b a rho = .ok r := by
  obtain ⟨_, hcheck, hr⟩ := bind_eq_ok.mp hr
  refine bind_eq_ok.mpr ⟨(), ?_, ?_⟩
  · unfold checkLengths at hcheck ⊢
    split at hcheck
    · cases hcheck
    · rw [if_neg (by omega)]
      exact hcheck
  · have hproducts : List.zipWith (· * ·) b.alpha a.alpha = List.zipWith (· * ·) a.alpha b.alpha :=
      List.zipWith_comm_of_comm mul_comm
    rw [hproducts]
    exact hr

/-- The same for all variables. -/
theorem mapM_sensitivity_comm (h : StrictMono (cdf : ℝ → ℝ)) {r beta : ℝ} {alphas others : List ℝ}
    (hones : ∀ ri ∈ rho, ri = 1) :
    ((alphas.zip (others.zip rho)).mapM fun e => sensitivity c rule a b r beta e.1 e.2.1 e.2.2) =
      (others.zip (alphas.zip rho)).mapM fun e =>
        sensitivity c rule b a r beta e.1 e.2.1 e.2.2 := by
  induction rho generalizing alphas others with
  | nil => simp
  | cons ri rho ih =>
    obtain ⟨rfl, hrest⟩ := List.forall_mem_cons.mp hones
    cases alphas with
    | nil => simp
    | cons alpha alphas =>
      cases others with
      | nil => simp
      | cons other others =>
        simp only [List.zip_cons_cons, List.mapM_cons]
        rw [sensitivity_comm h, ih hrest]

/-! ## Symmetry -/

/-- The combined index is at an end of its range, or it stays as it is when any variable is
moved. -/
def IsDegenerate (c : Config ℝ) (rule : Rule) (rho : List ℝ) (a b d : Direction ℝ) : Prop :=
  betaMax ≤ |d.beta| ∨ ∃ r, correlation a b rho = .ok r ∧
    ∀ e ∈ a.alpha.zip (b.alpha.zip rho),
      sensitivity c rule a b r d.beta e.1 e.2.1 e.2.2 = .ok 0

theorem MadeOf.isDegenerate {r q : ℝ} {alpha : List ℝ} (h : MadeOf c rule rho a b r q alpha d)
    (hnone : betaMax ≤ |betaFromQ q| ∨ Coordinates.norm alpha = 0) : IsDegenerate c rule rho a b d := by
  unfold IsDegenerate
  rw [h.beta_eq]
  refine hnone.imp_right fun hzero => ⟨r, h.correlation, forall_mem_of_mapM h.changes fun x hx => ?_⟩
  rw [Coordinates.norm_eq_zero_iff.mp hzero] at hx
  exact (List.mem_replicate.mp hx).2.trans Scalar.zero_eq

/-- The combination of two events does not depend on their order. Whenever it is made in one, it
is made in the other, with the same index; and if the events see the same variables, with the same
coefficients, except where a degenerate combination has to choose between events of the same
index. -/
theorem two_is_symmetric (h : StrictMono (cdf : ℝ → ℝ)) (hd : two c rule rho a b = .ok d) :
    ∃ d', two c rule rho b a = .ok d' ∧ d'.beta = d.beta ∧
      ((∀ r ∈ rho, r = 1) → ¬(IsDegenerate c rule rho a b d ∧ a.beta = b.beta) →
        d'.alpha = d.alpha) := by
  obtain ⟨hc, r, q, alpha, hmade⟩ := madeOf_of_two hd
  have hr := correlation_comm hmade.correlation
  obtain ⟨d', hd'⟩ : ∃ d', two c rule rho b a = .ok d' := exists_two_of_correlation hc hr
  obtain ⟨-, r', q', alpha', hmade'⟩ := madeOf_of_two hd'
  obtain rfl : r = r' := Except.ok.inj (hr.symm.trans hmade'.correlation)
  obtain rfl : q = q' := by
    have hq := hmade'.probability
    rw [probability_comm h, hmade.probability] at hq
    exact Except.ok.inj hq
  refine ⟨d', hd', hmade'.beta_eq.trans hmade.beta_eq.symm, fun hones hchoice => ?_⟩
  obtain rfl : alpha = alpha' := by
    have halpha := hmade'.changes
    rw [← mapM_sensitivity_comm h hones, hmade.changes] at halpha
    exact Except.ok.inj halpha
  rw [hmade.eq, hmade'.eq]
  split
  case isFalse => rfl
  case isTrue hnone =>
    have hdegenerate : IsDegenerate c rule rho a b d := hmade.isDegenerate hnone
    rw [dominant_comm fun heq => hchoice ⟨hdegenerate, heq⟩]

end Combination

end

/-- An event that depends on the first of two variables and occurs beyond one deviation. -/
def Combination.beyondFirst : Direction ℝ := ⟨1, [1, 0]⟩

/-- Two events of which one implies the other. -/
theorem Combination.two_is_symmetric_implied : ∃ d d' : Direction ℝ,
    two .standard .or [1, 1] alongFirst beyondFirst = .ok d ∧
      two .standard .or [1, 1] beyondFirst alongFirst = .ok d' ∧
      d'.beta = d.beta ∧ d'.alpha = d.alpha := by
  have hcheck : checkLengths alongFirst beyondFirst [1, 1] = .ok () := by
    unfold checkLengths alongFirst beyondFirst
    simp [Scalar.abs_eq]
  have hcorrelation : ∃ r, correlation alongFirst beyondFirst [1, 1] = .ok r :=
    (exists_bind_eq_ok hcheck).mpr ⟨_, rfl⟩
  obtain ⟨r, hr⟩ := hcorrelation
  obtain ⟨d, hd⟩ : ∃ d, two .standard .or [1, 1] alongFirst beyondFirst = .ok d :=
    exists_two_of_correlation validate_standard hr
  obtain ⟨d', hd', hbeta, halpha⟩ := two_is_symmetric SpecialFunctions.isDistribution.strictMono hd
  refine ⟨d, d', hd, hd', hbeta, halpha (by simp) ?_⟩
  rintro ⟨-, heq⟩
  exact zero_ne_one heq

end FailureProbability
