import Mathlib.Data.List.Forall2
import FailureProbability.Proofs.Draw
import FailureProbability.Proofs.Setup.Exchange

/-!
# Histories of draws

A draw is asked for values and moved to other points, in any order and any number of times. `Eager`
says without a draw what a call has to answer: it knows the point and nothing else, not even that
there were calls before. What a draw answers in the course of its history is just that, so neither
what was asked before nor earlier points show in any answer, and a call that is refused changes
nothing.

The invariant is that the draw is one at the point, with values of that point only (`IsAt`). A
variable that is asked for adds values of it and of its operands; a move forgets all.

Setups are those that can be reached by making and exchanging (`Setup.Reached`), which are all that
a draw is ever made of. On them only two things go wrong, a variable that there is not and a point
of another dimension; `Eager` has one constructor for each. What a limit state does with the values
that it asked for is left out here.
-/

namespace FailureProbability

variable {α : Type} [Scalar α]

/-! ## Correlated coordinates -/

namespace Setup

/-- The correlation is one of as many variables as there are. -/
theorem Reached.correlation_dimension {s : Setup α} (h : Reached s) :
    s.correlation.dimension = s.marginals.length := by
  induction h with
  | new h =>
    obtain ⟨hsize, -, -, -, rfl⟩ := new_eq_ok_iff.mp h
    exact hsize
  | exchange i m hs ih =>
    rcases exchange_cases hs.settled i m with ⟨t, hrun, -, hmarginals, hcorrelation, -⟩ | ⟨e, hrun, -⟩
    · rw [hrun, hcorrelation, hmarginals, List.length_set]
      exact ih
    · rw [hrun]
      exact ih

/-- Every variable has a correlated coordinate. -/
theorem Reached.length_correlatedU {s : Setup α} (h : Reached s) (u : List α) :
    (s.correlatedU u).length = s.marginals.length := by
  have hdimension := h.correlation_dimension
  unfold correlatedU Correlation.correlate
  cases hcorrelation : s.correlation with
  | identity n => simp [Correlation.map?, spread]
  | gaussian g | robust g =>
    rw [hcorrelation] at hdimension
    rw [← hdimension]
    exact List.length_map _

end Setup

namespace Draw

/-! ## Calls and their answers -/

/-- What a draw may be asked to do. -/
inductive Call (α : Type) where
  | value (i : Nat)
  | values
  | move (u : List α)

/-- What it answers, unless it refuses. -/
inductive Reply (α : Type) where
  | value (x : α)
  | values (xs : List α)
  | moved

def Call.action : Call α → Action α (Reply α)
  | value i => .value <$> Draw.value i
  | values => .values <$> Draw.values
  | move u => (fun _ => .moved) <$> Draw.move u

def perform (d : Draw α) (c : Call α) : Except (Error α) (Reply α) × Draw α := c.action.run d

/-- The answers to one call after the other, and what has become of the draw. -/
def history (d : Draw α) : List (Call α) → List (Except (Error α) (Reply α)) × Draw α
  | [] => ([], d)
  | c :: calls =>
    let (reply, d) := d.perform c
    let (replies, d) := history d calls
    (reply :: replies, d)

/-- The answer to a call by the values at the point, and the point after it. -/
inductive Eager (s : Setup α) (u : List α) : Call α → Except (Error α) (Reply α) → List α → Prop
  | value {i : Nat} {x : α} (hx : s.HasValue u i x) : Eager s u (.value i) (.ok (.value x)) u
  | outside {i : Nat} (hi : s.marginals.length ≤ i) :
      Eager s u (.value i) (.error (.invalid (.variableOutside i s.marginals.length))) u
  | values {xs : List α} (hxs : List.Forall₂ (s.HasValue u) (List.range s.marginals.length) xs) :
      Eager s u .values (.ok (.values xs)) u
  | moved {u' : List α} (hu' : u'.length = s.dimension) : Eager s u (.move u') (.ok .moved) u'
  | refused {u' : List α} (hu' : u'.length ≠ s.dimension) :
      Eager s u (.move u') (.error (.invalid (.coordinateCount s.dimension u'.length))) u

/-- The same for one call after the other. -/
inductive EagerHistory (s : Setup α) :
    List α → List (Call α) → List (Except (Error α) (Reply α)) → List α → Prop
  | nil {u : List α} : EagerHistory s u [] [] u
  | cons {u u' u'' : List α} {c : Call α} {calls : List (Call α)}
      {reply : Except (Error α) (Reply α)} {replies : List (Except (Error α) (Reply α))}
      (hc : Eager s u c reply u') (hcalls : EagerHistory s u' calls replies u'') :
      EagerHistory s u (c :: calls) (reply :: replies) u''

variable {s : Setup α} {u u₁ u₂ : List α}

/-! ## One answer at most -/

theorem rightUnique_hasValue : Relator.RightUnique (s.HasValue u) :=
  fun _ _ _ => Setup.HasValue.unique

/-- A call has one answer, and leads to one point. -/
theorem Eager.unique {c : Call α} {r₁ r₂ : Except (Error α) (Reply α)} (h₁ : Eager s u c r₁ u₁)
    (h₂ : Eager s u c r₂ u₂) : r₁ = r₂ ∧ u₁ = u₂ := by
  cases h₁ with
  | value hx =>
    cases h₂ with
    | value hy => exact ⟨by rw [hx.unique hy], rfl⟩
    | outside hi => exact absurd hx.lt_length (Nat.not_lt.mpr hi)
  | outside hi =>
    cases h₂ with
    | value hy => exact absurd hy.lt_length (Nat.not_lt.mpr hi)
    | outside _ => exact ⟨rfl, rfl⟩
  | values hxs =>
    cases h₂ with
    | values hys => exact ⟨by rw [rightUnique_hasValue.forall₂ hxs hys], rfl⟩
  | moved hu =>
    cases h₂ with
    | moved _ => exact ⟨rfl, rfl⟩
    | refused hne => exact absurd hu hne
  | refused hne =>
    cases h₂ with
    | moved hu => exact absurd hu hne
    | refused _ => exact ⟨rfl, rfl⟩

/-- A list of calls has one history. -/
theorem EagerHistory.unique {calls : List (Call α)} {rs₁ rs₂ : List (Except (Error α) (Reply α))}
    (h₁ : EagerHistory s u calls rs₁ u₁) (h₂ : EagerHistory s u calls rs₂ u₂) :
    rs₁ = rs₂ ∧ u₁ = u₂ := by
  induction h₁ generalizing rs₂ with
  | nil =>
    cases h₂
    exact ⟨rfl, rfl⟩
  | cons hc _ ih =>
    cases h₂ with
    | cons hc' hcalls =>
      obtain ⟨rfl, rfl⟩ := hc.unique hc'
      obtain ⟨rfl, rfl⟩ := ih hcalls
      exact ⟨rfl, rfl⟩

/-! ## What a draw answers -/

omit [Scalar α] in
/-- A call answers what its action does. -/
theorem run_map {β γ : Type} {d d' : Draw α} {action : Action α β} {f : β → γ}
    {r : Except (Error α) β} (h : action.run d = (r, d')) :
    (f <$> action).run d = (r.map f, d') := by
  rw [map_eq_pure_bind]
  show (ExceptT.bindCont (fun b => (pure (f b) : Action α γ)) (action.run d).1).run
    (action.run d).2 = _
  rw [h]
  cases r <;> rfl

omit [Scalar α] in
theorem run_get_bind {β : Type} (f : Draw α → Action α β) (d : Draw α) :
    (get >>= f).run d = (f d).run d := rfl

/-- A variable that there is not is refused. -/
theorem run_value_outside {d : Draw α} (hd : IsAt s u d) {i : Nat} (hi : s.marginals.length ≤ i) :
    (value i).run d = (.error (.invalid (.variableOutside i s.marginals.length)), d) := by
  rw [value, run_get_bind, valueWithin, run_get_bind, hd.setup, List.getElem?_eq_none hi]
  rfl

/-- A move starts anew where it is accepted. -/
theorem run_move {d : Draw α} (hd : IsAt s u d) (hu : u.length = s.dimension) (u' : List α) :
    (move u').run d = if u'.length = s.dimension then (.ok (), start s u')
      else (.error (.invalid (.coordinateCount s.dimension u'.length)), d) := by
  rw [move, run_get_bind, hd.setup, hd.point, hu]
  split <;> rfl

/-- One call. -/
theorem perform_cases (h : s.Accepted) {d : Draw α} (hd : IsAt s u d) (hu : u.length = s.dimension)
    (c : Call α) :
    (∃ reply d' u', d.perform c = (.ok reply, d') ∧ Eager s u c (.ok reply) u' ∧ IsAt s u' d' ∧
      u'.length = s.dimension) ∨
    ∃ e, d.perform c = (.error e, d) ∧ Eager s u c (.error e) u := by
  cases c with
  | value i =>
    by_cases hi : i < s.marginals.length
    · obtain ⟨x, d', hrun, hd', hx⟩ := answers_value h hi d hd
      exact .inl ⟨_, d', u, run_map hrun, .value hx, hd', hu⟩
    · have hout := Nat.le_of_not_lt hi
      exact .inr ⟨_, run_map (run_value_outside hd hout), .outside hout⟩
  | values =>
    obtain ⟨xs, d', hrun, hd', hxs⟩ := answers_values h d hd
    exact .inl ⟨_, d', u, run_map hrun, .values hxs, hd', hu⟩
  | move u' =>
    have hrun := run_move hd hu u'
    by_cases hu' : u'.length = s.dimension
    · rw [if_pos hu'] at hrun
      exact .inl ⟨_, _, u', run_map hrun, .moved hu', isAt_start s u', hu'⟩
    · rw [if_neg hu'] at hrun
      exact .inr ⟨_, run_map hrun, .refused hu'⟩

theorem history_cons (d : Draw α) (c : Call α) (calls : List (Call α)) :
    d.history (c :: calls) = ((d.perform c).1 :: ((d.perform c).2.history calls).1,
      ((d.perform c).2.history calls).2) := rfl

/-- One call after the other. -/
theorem history_eager (h : s.Accepted) {d : Draw α} (hd : IsAt s u d) (hu : u.length = s.dimension)
    (calls : List (Call α)) :
    ∃ u', EagerHistory s u calls (d.history calls).1 u' ∧ IsAt s u' (d.history calls).2 ∧
      u'.length = s.dimension := by
  induction calls generalizing d u with
  | nil => exact ⟨u, .nil, hd, hu⟩
  | cons c calls ih =>
    rw [history_cons]
    rcases perform_cases h hd hu c with ⟨reply, d₁, u₁, hrun, hc, hd₁, hu₁⟩ | ⟨e, hrun, hc⟩
    · rw [hrun]
      obtain ⟨u', hcalls, hend⟩ := ih hd₁ hu₁
      exact ⟨u', .cons hc hcalls, hend⟩
    · rw [hrun]
      obtain ⟨u', hcalls, hend⟩ := ih hd hu
      exact ⟨u', .cons hc hcalls, hend⟩

/-- A draw of a setup, whatever it has been asked to do, answers as one that computes each value
from the point of the moment alone. In particular a variable in range has a value, which is the
value at that point. A call that is refused leaves the draw as it is. -/
theorem history_is_eager {s : Setup α} (hs : Setup.Reached s) {u : List α} {d : Draw α}
    (hd : Draw.new s u = .ok d) (calls : List (Call α)) :
    let past := d.history calls
    (∀ replies u', EagerHistory s u calls replies u' ↔ replies = past.1 ∧ u' = past.2.u) ∧
    (past.2.correlated = s.correlatedU past.2.u ∧ past.2.correlated.length = s.marginals.length) ∧
    (∀ i < s.marginals.length, ∃ x, past.2.ask (value i) = .ok x ∧
      ∀ y, s.HasValue past.2.u i y ↔ y = x) ∧
    ∀ c e, (past.2.perform c).1 = .error e → (past.2.perform c).2 = past.2 := by
  intro past
  have haccepted := hs.settled.accepted
  -- A draw that was made is one at its point that knows nothing yet.
  have hnew : u.length = s.dimension ∧ start s u = d := by
    unfold Draw.new at hd
    split at hd
    · exact ⟨‹_›, Except.ok.inj hd⟩
    · cases hd
  obtain ⟨hu, rfl⟩ := hnew
  obtain ⟨u', heager, hat, hu'⟩ := history_eager haccepted (isAt_start s u) hu calls
  obtain rfl : past.2.u = u' := hat.point
  refine ⟨fun replies u'' => ⟨fun h => h.unique heager, ?_⟩, ⟨hat.correlated, ?_⟩, fun i hi => ?_,
    fun c e he => ?_⟩
  · rintro ⟨rfl, rfl⟩
    exact heager
  · rw [hat.correlated]
    exact hs.length_correlatedU _
  · obtain ⟨x, d', hrun, -, hx⟩ := answers_value haccepted hi _ hat
    refine ⟨x, congrArg Prod.fst hrun, fun y => ⟨fun hy => hy.unique hx, ?_⟩⟩
    rintro rfl
    exact hx
  · rcases perform_cases haccepted hat hu' c with ⟨reply, d', u'', hrun, -⟩ | ⟨e', hrun, -⟩
    · rw [hrun] at he
      cases he
    · rw [hrun]

/-- The first variable is an operand of the third, and both are operands of the fourth. -/
def sharedOperand : Setup Float :=
  ⟨[.normal 10 2, .deterministic 4, .combined 0 1 .product, .combined 2 0 .sum], .identity 4, [0]⟩

/-- The fourth variable is asked for at one point, and at another one after two calls that are
refused and one that finds the value of its first operand. -/
theorem history_is_eager_sharedOperand :
    Setup.Reached sharedOperand ∧ Draw.new sharedOperand [1] = .ok (start sharedOperand [1]) ∧
      let past := (start sharedOperand [1]).history
        [.value 3, .move [], .value 4, .move [2], .value 2]
      past.2.u = [2] ∧ ∃ x, past.2.ask (value 3) = .ok x ∧
        ∀ y, sharedOperand.HasValue [2] 3 y ↔ y = x := by
  have hnew : Setup.new sharedOperand.marginals (.identity 4) = .ok sharedOperand := rfl
  have hdraw : Draw.new sharedOperand [1] = .ok (start sharedOperand [1]) := rfl
  obtain ⟨-, -, hvalue, -⟩ := history_is_eager (.new hnew) hdraw
    [.value 3, .move [], .value 4, .move [2], .value 2]
  exact ⟨.new hnew, hdraw, rfl, hvalue 3 (by decide)⟩

end Draw

end FailureProbability
