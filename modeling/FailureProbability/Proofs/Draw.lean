import FailureProbability.Model
import FailureProbability.Proofs.Setup

/-!
# Values of draws

What the value of a variable at a point is needs no draw (`Setup.HasValue`): a variable with a
coordinate of its own has it by its quantile transform, and a derived one by its operands. A draw of
an accepted setup finds it, whatever it has been asked before, as all that it knows is so at its
point (`Draw.IsAt`) and the operands are fewer levels deep. Hence an accepted model has physical
values wherever it has a point (`Model.exists_x`).

Two things are used of a setup that is accepted. Every operand is one of the variables, so that
looking one up does not fail; and operands are fewer levels deep than the variable, so that the
levels that a draw allows for are enough. Nothing is used of the arithmetic: values need not be
finite, nor numbers.

A draw changes when it is asked. `Draw.Answers` is a statement on all draws at a point for this
reason, and a sequence of questions is taken apart by the lemma on binds alone.
-/

namespace FailureProbability

variable {α : Type} [Scalar α]

namespace Marginal

/-- Every variable that is not derived has a value at every standard-normal one. -/
theorem exists_fromNormal {m : Marginal α} (h : m.operands = none) (u : α) :
    ∃ x, m.fromNormal u = .ok x := by
  cases m with
  | combined first second op => cases h
  | normal mean deviation => exact ⟨_, rfl⟩
  | lognormal mu sigma => exact ⟨_, rfl⟩
  | uniform lower upper => exact ⟨_, rfl⟩
  | exponential rate shift => exact ⟨_, rfl⟩
  | gumbel location scale => exact ⟨_, rfl⟩
  | weibull shape scale => exact ⟨_, rfl⟩
  | deterministic value => exact ⟨_, rfl⟩

/-- And every derived one has a value of any two operands. -/
theorem exists_fromPair {m : Marginal α} {operands : Nat × Nat} (h : m.operands = some operands)
    (x y : α) : ∃ z, m.fromPair x y = .ok z := by
  cases m with
  | combined first second op =>
    cases op with
    | sum => exact ⟨_, rfl⟩
    | product => exact ⟨_, rfl⟩
    | min => exact ⟨_, rfl⟩
    | max => exact ⟨_, rfl⟩
  | normal mean deviation => cases h
  | lognormal mu sigma => cases h
  | uniform lower upper => cases h
  | exponential rate shift => cases h
  | gumbel location scale => cases h
  | weibull shape scale => cases h
  | deterministic value => cases h

end Marginal

namespace Setup

/-- The value of a variable at a point. -/
inductive HasValue (s : Setup α) (u : List α) : Nat → α → Prop
  | plain {i : Nat} {m : Marginal α} {x : α} (hm : s.marginals[i]? = some m)
      (hoperands : m.operands = none)
      (hx : m.fromNormal ((s.correlatedU u).getD i 0) = .ok x) : HasValue s u i x
  | derived {i a b : Nat} {m : Marginal α} {x y z : α} (hm : s.marginals[i]? = some m)
      (hoperands : m.operands = some (a, b)) (hx : HasValue s u a x) (hy : HasValue s u b y)
      (hz : m.fromPair x y = .ok z) : HasValue s u i z

variable {s : Setup α} {u : List α} {i : Nat} {x y : α}

theorem HasValue.lt_length (h : s.HasValue u i x) : i < s.marginals.length := by
  cases h with
  | plain hm => exact (List.getElem?_eq_some_iff.mp hm).1
  | derived hm => exact (List.getElem?_eq_some_iff.mp hm).1

/-- A variable has one value at a point. -/
theorem HasValue.unique (hx : s.HasValue u i x) (hy : s.HasValue u i y) : x = y := by
  induction hx generalizing y with
  | plain hm hoperands hx =>
    cases hy with
    | plain hm' _ hy =>
      obtain rfl := Option.some.inj (hm.symm.trans hm')
      exact Except.ok.inj (hx.symm.trans hy)
    | derived hm' hoperands' =>
      obtain rfl := Option.some.inj (hm.symm.trans hm')
      rw [hoperands] at hoperands'
      cases hoperands'
  | derived hm hoperands _ _ hz iha ihb =>
    cases hy with
    | plain hm' hoperands' =>
      obtain rfl := Option.some.inj (hm.symm.trans hm')
      rw [hoperands] at hoperands'
      cases hoperands'
    | derived hm' hoperands' ha hb hz' =>
      obtain rfl := Option.some.inj (hm.symm.trans hm')
      obtain ⟨rfl, rfl⟩ := Prod.mk.inj (Option.some.inj (hoperands.symm.trans hoperands'))
      obtain rfl := iha ha
      obtain rfl := ihb hb
      exact Except.ok.inj (hz.symm.trans hz')

end Setup

namespace Draw

variable {β γ : Type} {s : Setup α} {u : List α}

/-- A draw of a setup at a point, of whose values it knows any number. -/
structure IsAt (s : Setup α) (u : List α) (d : Draw α) : Prop where
  setup : d.setup = s
  point : d.u = u
  correlated : d.correlated = s.correlatedU u
  known : ∀ i x, d.known.getD i none = some x → s.HasValue u i x

theorem isAt_start (s : Setup α) (u : List α) : IsAt s u (start s u) := by
  refine ⟨rfl, rfl, rfl, fun i x hx => ?_⟩
  rw [start, List.getD_eq_getElem?_getD, List.getElem?_replicate] at hx
  split at hx <;> cases hx

/-- To keep a value that is the right one changes nothing of what a draw is at. -/
theorem IsAt.remember {d : Draw α} (hd : IsAt s u d) {i : Nat} {x : α} (hx : s.HasValue u i x) :
    IsAt s u (d.remember i x) := by
  refine ⟨hd.setup, hd.point, hd.correlated, fun j y hy => ?_⟩
  rw [Draw.remember, List.getD_eq_getElem?_getD, List.getElem?_set] at hy
  split at hy
  · rename_i hij
    subst hij
    split at hy
    · obtain rfl := Option.some.inj hy
      exact hx
    · cases hy
  · rw [← List.getD_eq_getElem?_getD] at hy
    exact hd.known j y hy

/-- An action answers on every draw at a point, in the way described, and leaves a draw at that
point. -/
def Answers (s : Setup α) (u : List α) (action : Action α β) (P : β → Prop) : Prop :=
  ∀ d, IsAt s u d → ∃ b d', action.run d = (.ok b, d') ∧ IsAt s u d' ∧ P b

theorem answers_pure {P : β → Prop} {b : β} (hb : P b) : Answers s u (pure b : Action α β) P :=
  fun d hd => ⟨b, d, rfl, hd, hb⟩

theorem answers_bind {action : Action α β} {f : β → Action α γ} {P : β → Prop} {Q : γ → Prop}
    (h : Answers s u action P) (hf : ∀ b, P b → Answers s u (f b) Q) :
    Answers s u (action >>= f) Q := by
  intro d hd
  obtain ⟨b, d₁, hrun, hd₁, hb⟩ := h d hd
  obtain ⟨c, d₂, hc, hd₂⟩ := hf b hb d₁ hd₁
  refine ⟨c, d₂, ?_, hd₂⟩
  show (ExceptT.bindCont f (action.run d).1).run (action.run d).2 = _
  rw [hrun]
  exact hc

/-- What begins by looking at the draw may use that it is one at the point. -/
theorem answers_get {f : Draw α → Action α β} {P : β → Prop}
    (hf : ∀ d, IsAt s u d → Answers s u (f d) P) : Answers s u (get >>= f) P :=
  fun d hd => hf d hd d hd

theorem answers_liftExcept {r : Except (Error α) β} (h : ∃ b, r = .ok b) :
    Answers s u (valueWithin.liftExcept r) fun b => r = .ok b := by
  obtain ⟨b, rfl⟩ := h
  exact fun d hd => ⟨b, d, rfl, hd, rfl⟩

/-- A value may be kept. -/
theorem answers_remember {i : Nat} {x : α} (hx : s.HasValue u i x) :
    Answers s u (do modify (·.remember i x); return x) fun x => s.HasValue u i x :=
  fun d hd => ⟨x, d.remember i x, rfl, hd.remember hx, hx⟩

/-- As many levels as a variable has are enough for its value. -/
theorem answers_valueWithin (hexist : Setup.OperandsExist s.marginals) {levels i : Nat}
    (hi : i < s.marginals.length) (h : Setup.Within s.marginals levels i) :
    Answers s u (valueWithin levels i) fun x => s.HasValue u i x := by
  induction levels generalizing i with
  | zero => exact absurd h (by simp [Setup.Within])
  | succ levels ih =>
    have hm := List.getElem?_eq_getElem hi
    rw [valueWithin]
    refine answers_get fun d hd => ?_
    rw [hd.setup, hm]
    dsimp only
    cases hknown : d.known.getD i none with
    | some value => exact answers_pure (hd.known i value hknown)
    | none =>
      dsimp only
      cases hoperands : s.marginals[i].operands with
      | none =>
        refine answers_bind (answers_liftExcept (Marginal.exists_fromNormal hoperands _)) ?_
        intro x hx
        rw [hd.correlated] at hx
        exact answers_remember (.plain hm hoperands hx)
      | some pair =>
        -- Both operands have one level less, and the draw after the first is one of the same point.
        obtain ⟨a, b⟩ := pair
        have hab : Setup.operandsOf s.marginals i = some (a, b) := by
          rw [Setup.operandsOf, hm, Option.bind_some, hoperands]
        obtain ⟨ha, hb⟩ := hexist i a b hab
        obtain ⟨hwa, hwb⟩ := h a b hab
        refine answers_bind (ih ha hwa) fun x hx => answers_bind (ih hb hwb) fun y hy => ?_
        refine answers_bind (answers_liftExcept (Marginal.exists_fromPair hoperands x y)) ?_
        exact fun z hz => answers_remember (.derived hm hoperands hx hy hz)

/-- A variable that there is has a value at every point. -/
theorem answers_value (h : s.Accepted) {i : Nat} (hi : i < s.marginals.length) :
    Answers s u (value i) fun x => s.HasValue u i x := by
  refine answers_get fun d hd => ?_
  rw [hd.setup]
  exact answers_valueWithin h.operands hi (h.within i hi).succ

/-- So have all of them, in their order. -/
theorem answers_values (h : s.Accepted) : Answers s u values fun xs =>
    List.Forall₂ (s.HasValue u) (List.range s.marginals.length) xs := by
  refine answers_get fun d hd => ?_
  rw [hd.setup]
  have hall : ∀ is : List Nat, (∀ i ∈ is, i < s.marginals.length) →
      Answers s u (is.mapM value) fun xs => List.Forall₂ (s.HasValue u) is xs := by
    intro is
    induction is with
    | nil =>
      intro _
      rw [List.mapM_nil]
      exact answers_pure .nil
    | cons i is ih =>
      intro his
      rw [List.mapM_cons]
      refine answers_bind (answers_value h (his i (by simp))) fun x hx => ?_
      refine answers_bind (ih fun i' hi' => his i' (by simp [hi'])) fun xs hxs => ?_
      exact answers_pure (.cons hx hxs)
  exact hall _ fun i hi => by simpa using hi

end Draw

namespace Model

variable {m : Model α}

theorem draw_eq_ok {u : List α} (h : u.length = m.dimension) :
    m.draw u = .ok (Draw.start m.setup u) := if_pos h

theorem length_of_draw {u : List α} {d : Draw α} (h : m.draw u = .ok d) :
    u.length = m.dimension := by
  unfold draw Draw.new at h
  by_cases hu : u.length = m.setup.dimension
  · exact hu
  · rw [if_neg hu] at h
    cases h

/-- A model with an accepted setup has physical values at every point of its dimension. -/
theorem exists_x (h : m.setup.Accepted) {u : List α} (hu : u.length = m.dimension) :
    ∃ x, m.x u = .ok x := by
  obtain ⟨xs, d, hxs, -⟩ := Draw.answers_values h _ (Draw.isAt_start m.setup u)
  refine ⟨xs, ?_⟩
  unfold x
  rw [draw_eq_ok hu]
  exact congrArg Prod.fst hxs

end Model

end FailureProbability
