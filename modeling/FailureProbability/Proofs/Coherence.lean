import FailureProbability.Directional
import FailureProbability.Form
import FailureProbability.Grid
import FailureProbability.Proofs.Contract
import FailureProbability.Proofs.Draw
import FailureProbability.Sampling.Adaptive
import FailureProbability.Sampling.Crude
import FailureProbability.Sampling.Importance

/-!
# Coherence of estimates

An estimate holds a direction, a point and physical values, which are put together at the end of a
run. They are coherent when the point has as many coordinates as the direction and the values are
those of the model at just this point (`Estimate.Coherent`). Methods that only know a direction take
its design point (`Estimate.AtDesignPoint`); a search for the design point ends where it is.

Only answers are spoken of here, and only what can be read off an estimate. That a run answers at
all is not stated, and nothing is supposed of the limit state, of the monitor, of the setup or of
arithmetic: physical values are part of an estimate only if they were found.

There are three kinds of computations here: runs, plain results and what is asked of a draw.
Conditions on the answers of the last two are contracts that charge nothing, so that their lists
need no induction of their own.
-/

namespace FailureProbability

variable {α β γ : Type}

/-! ## Conditions on answers -/

/-- A list of computations has as many answers as members. -/
theorem Contract.length_mapM {M : Type → Type} [Monad M] [LawfulMonad M] (C : Contract M)
    {ι : Type} {f : ι → M β} {l : List ι} (hf : ∀ a ∈ l, C.Holds (f a) fun _ _ => True) :
    C.Holds (l.mapM f) fun bs _ => bs.length = l.length := by
  induction l with
  | nil =>
    rw [List.mapM_nil]
    exact C.of_pure rfl
  | cons a l ih =>
    rw [List.mapM_cons]
    refine C.of_bind (hf a (by simp)) fun b k _ => ?_
    refine C.of_bind (ih fun a' ha' => hf a' (by simp [ha'])) fun bs n hbs => ?_
    exact C.of_pure (by simp [hbs])

namespace Runs

section

variable {M : Type → Type} {τ : Type} [Monad M] [Runs M τ α]

/-- Every answer of the run meets a condition. -/
def Ensures (r : M β) (P : β → Prop) : Prop :=
  ∀ s j b s' j', exec r s j = (.ok b, s', j') → P b

theorem Ensures.mono {r : M β} {P Q : β → Prop} (h : Ensures r P) (himp : ∀ b, P b → Q b) :
    Ensures r Q :=
  fun s j b s' j' hb => himp b (h s j b s' j' hb)

theorem ensures_true (r : M β) : Ensures r fun _ => True := fun _ _ _ _ _ _ => trivial

theorem ensures_pure {b : β} {P : β → Prop} (h : P b) : Ensures (pure b : M β) P := by
  intro s j b' s' j' hb
  rw [exec_pure] at hb
  cases hb
  exact h

theorem ensures_bind {r : M β} {f : β → M γ} {P : β → Prop} {Q : γ → Prop}
    (hr : Ensures r P) (hf : ∀ b, P b → Ensures (f b) Q) : Ensures (r >>= f) Q := by
  intro s j c s'' j'' hc
  rcases hj : exec r s j with ⟨e | b, s', j'⟩
  · rw [exec_bind_error hj] at hc
    cases hc
  · rw [exec_bind_ok hj] at hc
    exact hf b (hr s j b s' j' hj) s' j' c s'' j'' hc

/-- What the end of a sequence ensures by itself. -/
theorem ensures_rest {r : M β} {f : β → M γ} {Q : γ → Prop} (hf : ∀ b, Ensures (f b) Q) :
    Ensures (r >>= f) Q :=
  ensures_bind (ensures_true r) fun b _ => hf b

end

/-- Without a state, an answer is one from some journal. -/
theorem ensures_iff {r : Run α β} {P : β → Prop} :
    Ensures r P ↔ ∀ j b j', r.exec j = (.ok b, j') → P b := by
  constructor
  · intro h j b j' hb
    exact h ⟨⟩ j b ⟨⟩ j' (exec_eq_iff.mpr hb)
  · intro h s j b s' j' hb
    exact h j b j' (exec_eq_iff.mp hb)

theorem ensures_lift {M : Type → Type} {τ : Type} [Monad M] [Runs M τ α] {r : Run α β}
    {P : β → Prop} (h : Ensures r P) : Ensures (lift r : M β) P := by
  intro s j b s' j' hb
  exact ensures_iff.mp h j b j' (exec_lift_eq_ok.mp hb).1

theorem ensures_throw (e : Error α) (P : β → Prop) : Ensures (throw e : Run α β) P := by
  intro s j b s' j' hb
  cases hb

theorem ensures_ofExcept (x : Except (Error α) β) : Ensures (Run.ofExcept x) fun b => x = .ok b :=
  fun _ _ _ _ _ hb => congrArg Prod.fst hb

theorem ensures_withSupply {σ : Type} {r : Sampling.Sampler σ α β} {P : β → Prop}
    (h : Ensures r P) (s : Sampling.Supply σ α) : Ensures (Sampling.Sampler.withSupply s r) P := by
  refine ensures_iff.mpr fun j b j' hb => ?_
  rw [Sampling.Sampler.exec_withSupply] at hb
  obtain ⟨hans, -⟩ := Prod.mk.inj hb
  exact h s j b _ _ (Prod.ext hans rfl)

end Runs

/-- Conditions on plain results, as a contract that charges nothing. -/
def resultAnswers (ε : Type) : Contract (Except ε) where
  Holds x P := ∀ b, x = .ok b → P b 0
  of_pure h := by
    intro b hb
    cases hb
    exact h
  of_bind hx hf := by
    intro c hc
    obtain ⟨b, hb, hc⟩ := bind_eq_ok.mp hc
    exact hf b 0 (hx b hb) c hc

namespace Draw

/-- Conditions on what a draw answers, as a contract that charges nothing. -/
def answers (α : Type) : Contract (Action α) where
  Holds action P := ∀ (d : Draw α) b d', action.run d = (.ok b, d') → P b 0
  of_pure h := by
    intro d b d' hb
    cases hb
    exact h
  of_bind {β γ action f P Q} haction hf := by
    intro d c d'' hc
    have hrun : (ExceptT.bindCont f (action.run d).1).run (action.run d).2 = (.ok c, d'') := hc
    rcases hb : action.run d with ⟨e | b, d'⟩
    · rw [hb] at hrun
      cases hrun
    · rw [hb] at hrun
      exact hf b 0 (haction d b d' hb) d' c d'' hrun

end Draw

variable [Scalar α]

/-! ## Values and gradients

Physical values exist only at points that have a coordinate for every active variable. That is
where the length of a point is learned: a method that has found values there has had a point of the
model. -/

theorem Draw.length_of_values (d : Draw α) {xs : List α} (h : d.ask values = .ok xs) :
    xs.length = d.setup.marginals.length := by
  have hall := (answers α).length_mapM (f := value) (l := List.range d.setup.marginals.length)
    fun i _ _ _ _ _ => trivial
  have hlength := hall d xs (Draw.values.run d).2 (Prod.ext h rfl)
  rwa [List.length_range] at hlength

namespace Model

/-- Physical values exist at points of the model only, one for every variable. -/
theorem length_of_x {m : Model α} {u x : List α} (h : m.x u = .ok x) :
    u.length = m.dimension ∧ x.length = m.setup.marginals.length := by
  obtain ⟨d, hd, hx⟩ := bind_eq_ok.mp h
  have hu := length_of_draw hd
  rw [draw_eq_ok hu] at hd
  cases hd
  exact ⟨hu, Draw.length_of_values _ hx⟩

/-- A gradient has a derivative for every coordinate. -/
theorem ensures_gradient (m : Model α) (u : List α) (du : α) :
    Runs.Ensures (m.gradient u du) fun g => g.slope.length = u.length := by
  refine Runs.ensures_rest fun values => ?_
  refine (Runs.ensures_ofExcept _).mono fun g hg => ?_
  obtain ⟨-, slope, hslope, rfl⟩ := differences_eq_ok_iff.mp hg
  have hlength := (resultAnswers (Error α)).length_mapM (fun _ _ _ _ => trivial) slope hslope
  rw [hlength, List.length_range]

end Model

/-! ## Estimates -/

namespace Estimate

/-- The point has a coordinate for each one of the direction, and the physical values are those at
the point. -/
structure Coherent (m : Model α) (e : Estimate α) : Prop where
  alpha : e.direction.alpha.length = e.u.length
  values : m.x e.u = .ok e.x

/-- The point is the design point of the direction. -/
structure AtDesignPoint (m : Model α) (e : Estimate α) : Prop where
  point : e.u = e.direction.designPoint
  values : m.x e.u = .ok e.x

theorem AtDesignPoint.coherent {m : Model α} {e : Estimate α} (h : e.AtDesignPoint m) :
    e.Coherent m :=
  ⟨by rw [h.point, Direction.length_designPoint], h.values⟩

end Estimate

/-! ## The first-order method

A trial ends either at the point where it is, with a direction that the gradient or the last plane
gave, or at the design point of what it extrapolates. In both cases the lengths fit, since every
direction that is kept came from a gradient at a point of the same space. -/

namespace Form

variable {m : Model α}

theorem ensures_finish (status : Status) {d : Direction α} {u : List α}
    (h : d.alpha.length = u.length) (steps evaluations : Nat) :
    Runs.Ensures (finish m status d u steps evaluations) fun e => e.Coherent m := by
  refine Runs.ensures_bind (Runs.ensures_ofExcept _) fun x hx => ?_
  exact Runs.ensures_pure ⟨h, hx⟩

/-- The last direction of a trial is one of the space that its point is in. This is all that the
points of a trial have to preserve: where there is no tangent plane any more, or no point is left,
the estimate gets the last direction. -/
def Trial.Fits (t : Trial α) : Prop := ∀ d, t.last = some d → d.alpha.length = t.u.length

theorem Trial.Fits.withoutTangent {t : Trial α} (h : t.Fits) (z : α) :
    (withoutTangent t z).alpha.length = t.u.length := by
  unfold Form.withoutTangent
  cases hlast : t.last with
  | none => exact Direction.length_isotropic ..
  | some d => exact h d hlast

theorem length_tangent {g : Gradient α} {u : List α} (h : g.slope.length = u.length) (sigma : α) :
    (tangent g u sigma).alpha.length = u.length :=
  (Coordinates.length_divide ..).trans h

theorem length_relax (relaxation : α) {u : List α} {d : Direction α}
    (h : d.alpha.length = u.length) : (relax relaxation u d).length = u.length := by
  simp [relax, h]

/-- A trial ends at a point where its direction is one of the same space, or at the design point of
its direction. -/
theorem ensures_iterate (c : Config α) (relaxation : α) (remaining steps evaluations : Nat)
    {t : Trial α} (ht : t.Fits) :
    Runs.Ensures (iterate m c relaxation remaining steps evaluations t) fun e => e.Coherent m := by
  induction remaining generalizing steps evaluations t with
  | zero => exact ensures_finish _ (Direction.length_designPoint _).symm _ _
  | succ remaining ih =>
    unfold iterate
    refine Runs.ensures_bind (m.ensures_gradient t.u c.du) fun g hg => ?_
    dsimp only
    have hd := length_tangent hg (Coordinates.norm g.slope)
    split
    · exact ensures_finish _ (ht.withoutTangent g.z) _ _
    · refine Runs.ensures_rest fun stop => ?_
      split
      · exact ensures_finish _ hd _ _
      · split
        · exact ensures_finish _ hd _ _
        · refine ih _ _ fun d hlast => ?_
          cases hlast
          rw [length_relax relaxation hd]
          exact hd

theorem ensures_trial (c : Config α) (start : List α) (relaxation : α) :
    Runs.Ensures (trial m c start relaxation) fun e => e.Coherent m := by
  refine ensures_iterate c relaxation c.maxIterations 0 0 fun d hlast => ?_
  cases hlast

/-- Of several trials the last one makes the estimate. -/
theorem ensures_trials (c : Config α) (start : List α) (left steps evaluations : Nat)
    (relaxation : α) :
    Runs.Ensures (trials m c start left steps evaluations relaxation) fun e => e.Coherent m := by
  induction left generalizing steps evaluations relaxation with
  | zero =>
    unfold trials
    refine Runs.ensures_bind (ensures_trial c start relaxation) fun e he => ?_
    exact Runs.ensures_pure ⟨he.alpha, he.values⟩
  | succ left ih =>
    unfold trials
    refine Runs.ensures_bind (ensures_trial c start relaxation) fun e he => ?_
    dsimp only
    split
    · exact Runs.ensures_pure ⟨he.alpha, he.values⟩
    · exact ih _ _ _

theorem ensures_estimateFrom (c : Config α) (start : List α) :
    Runs.Ensures (estimateFrom c start m) fun e => e.Coherent m := by
  unfold estimateFrom
  split
  · exact Runs.ensures_throw _ _
  · exact ensures_trials c start _ _ _ _

theorem ensures_estimate (c : Config α) :
    Runs.Ensures (estimate c m) fun e => e.Coherent m := by
  refine Runs.ensures_rest fun start => ?_
  refine Runs.ensures_bind (ensures_estimateFrom c start.u) fun e he => ?_
  exact Runs.ensures_pure ⟨he.alpha, he.values⟩

theorem ensures_estimateAfter (c : Config α) (earlier : Estimate α) :
    Runs.Ensures (estimateAfter c earlier m) fun e => e.Coherent m := by
  unfold estimateAfter
  split
  · exact ensures_estimateFrom c earlier.u
  · exact ensures_estimate c

end Form

/-! ## Methods that end with a direction

Sampling and integration know no point but the design point of the direction that they end with,
and ask for the physical values there. The length of the direction need not be known: had it been
another one, there would be no values and no estimate. -/

section

variable {m : Model α}

theorem Grid.ensures_estimate (c : Config α) :
    Runs.Ensures (estimate c m) fun e => e.AtDesignPoint m := by
  unfold estimate
  dsimp only
  split
  · exact Runs.ensures_throw _ _
  · refine Runs.ensures_rest fun before => Runs.ensures_rest fun b => ?_
    refine Runs.ensures_bind (Runs.ensures_ofExcept _) fun x hx => Runs.ensures_rest fun after => ?_
    exact Runs.ensures_pure ⟨rfl, hx⟩

theorem Directional.ensures_estimate (c : Config α) :
    Runs.Ensures (estimate c m) fun e => e.AtDesignPoint m := by
  unfold estimate estimateOn
  refine Runs.ensures_rest fun before => Runs.ensures_rest fun z0 => Runs.ensures_rest fun b => ?_
  refine Runs.ensures_bind (Runs.ensures_ofExcept _) fun x hx => Runs.ensures_rest fun after => ?_
  exact Runs.ensures_pure ⟨rfl, hx⟩

namespace Sampling

theorem Outcome.ensures_estimate (o : Outcome α) (method : String) (alpha : AlphaEstimate) :
    Runs.Ensures (o.estimate m method alpha) fun e => e.AtDesignPoint m := by
  refine Runs.ensures_bind (Runs.ensures_ofExcept _) fun x hx => ?_
  exact Runs.ensures_pure ⟨rfl, hx⟩

theorem Crude.ensures_estimate (c : Config α) :
    Runs.Ensures (Crude.estimate c m) fun e => e.AtDesignPoint m :=
  Runs.ensures_rest fun o => o.ensures_estimate _ _

namespace Importance

theorem ensures_estimateWith (c : Importance.Config α) (d : Density α) :
    Runs.Ensures (estimateWith c d m) fun e => e.AtDesignPoint m :=
  Runs.ensures_rest fun o => o.ensures_estimate _ _

theorem ensures_estimate (c : Importance.Config α) :
    Runs.Ensures (estimate c m) fun e => e.AtDesignPoint m :=
  Runs.ensures_rest fun d => ensures_estimateWith c d

theorem ensures_estimateAfter (c : Importance.Config α) (earlier : Estimate α) :
    Runs.Ensures (estimateAfter c earlier m) fun e => e.AtDesignPoint m :=
  Runs.ensures_rest fun d => ensures_estimateWith c d

end Importance

namespace Adaptive

variable {σ : Type}

theorem ensures_finish (o : Outcome α) (status : Status) (steps evaluations : Nat) :
    Runs.Ensures (finish m o status steps evaluations : Sampler σ α (Estimate α)) fun e =>
      e.AtDesignPoint m := by
  refine Runs.ensures_bind (Runs.ensures_lift (o.ensures_estimate _ _)) fun e he => ?_
  exact Runs.ensures_pure ⟨he.point, he.values⟩

variable [RandomSource σ α]

/-- Where a run is left, or has been made, the estimate is that of an outcome. -/
theorem ensures_loops (run : Engine σ α) (c : Adaptive.Config α) (left : Nat) (d : Density α)
    (steps evaluations : Nat) {last : Option (Outcome α)} (hlast : last.isSome = true ∨ 0 < left) :
    Runs.Ensures (loops run c m left d steps evaluations last) fun e => e.AtDesignPoint m := by
  induction left generalizing d steps evaluations last with
  | zero =>
    cases last with
    | none => simp at hlast
    | some o => exact ensures_finish o _ _ _
  | succ left ih =>
    unfold loops
    refine Runs.ensures_rest fun o => ?_
    dsimp only
    split
    · exact ensures_finish o _ _ _
    · split
      · refine Runs.ensures_rest fun d' => Runs.ensures_rest fun _ => ?_
        exact ih d' _ _ (.inl rfl)
      · split
        · split
          · exact ensures_finish o _ _ _
          · exact Runs.ensures_rest fun o' => ensures_finish o' _ _ _
        · exact Runs.ensures_rest fun d' => ih d' _ _ (.inl rfl)

theorem Config.maxLoops_pos {c : Adaptive.Config α} (h : c.validate = .ok ()) : 0 < c.maxLoops := by
  obtain ⟨_, -, h⟩ := bind_eq_ok.mp h
  by_contra hzero
  rw [if_pos (Nat.eq_zero_of_not_pos hzero)] at h
  cases h

theorem ensures_estimate {c : Adaptive.Config α} (hc : c.validate = .ok ()) :
    Runs.Ensures (estimate c m) fun e => e.AtDesignPoint m := by
  refine Runs.ensures_withSupply ?_ _
  refine Runs.ensures_rest fun d => ?_
  exact ensures_loops (buffered m) c c.maxLoops d 0 0 (.inr (Config.maxLoops_pos hc))

end Adaptive

end Sampling

end

end FailureProbability
