import FailureProbability.Proofs.Setup.Acyclic
import FailureProbability.Scalar.Double

/-!
# Exchanging variables

A setup changes by exchanges only, and a refused one leaves it as it was. `Admissible` says of a
list of variables and a correlation, without a word about any check, that they make a setup;
`Consistent` says it of a setup, together with what its list of active variables is. Every setup is
consistent, whatever was exchanged in it and whatever was refused, and an exchange is refused only
if its outcome would not be admissible.

The invariant behind this is `Settled`: the checks have been passed and the active variables are
those that a refreshment finds. A refused exchange may have lost the active ones, but not what they
are found from; the second refreshment finds them again.

That the correlation is one of as many variables as there are is assumed of a list that is to make a
setup, since it is not a property of the variables; an exchange keeps both numbers. The correlation
itself is never exchanged. What a draw does with a setup that has changed is no question: a draw has
its own copy of the setup that it was made of.
-/

namespace FailureProbability.Setup

variable {α : Type}

/-! ## What setups are made of -/

/-- Variable `i` is stochastic, neither fixed nor combined, and copies no other one. -/
def HasCoordinate (marginals : List (Marginal α)) (correlation : Correlation α) (i : Nat) : Prop :=
  ∃ m, marginals[i]? = some m ∧ m.isDeterministic = false ∧ m.operands = none ∧
    correlation.isFullyCorrelated i = false

/-- Variables and a correlation that make a setup. -/
structure Admissible (marginals : List (Marginal α)) (correlation : Correlation α) : Prop where
  operands : OperandsExist marginals
  acyclic : Acyclic marginals
  uncorrelated : ∀ i m, marginals[i]? = some m →
    m.isDeterministic = true ∨ m.operands.isSome = true → correlation.isCorrelated i = false
  active : ∃ i, HasCoordinate marginals correlation i

/-- A setup whose variables are admissible and whose active ones are, in ascending order, all that
have a coordinate of their own. -/
structure Consistent (s : Setup α) : Prop extends Admissible s.marginals s.correlation where
  nonempty : s.active ≠ []
  ascending : s.active.Pairwise (· < ·)
  mem_active : ∀ i, i ∈ s.active ↔ HasCoordinate s.marginals s.correlation i

/-- A setup that was accepted, after any number of exchanges, each of them made or refused. -/
inductive Reached : Setup α → Prop
  | new {marginals : List (Marginal α)} {correlation : Correlation α} {s : Setup α} :
      Setup.new marginals correlation = .ok s → Reached s
  | exchange {s : Setup α} (i : Nat) (m : Marginal α) :
      Reached s → Reached ((Setup.exchange i m).run s).2

variable {marginals : List (Marginal α)} {correlation : Correlation α}

theorem isStochastic_eq_false_iff {m : Marginal α} :
    m.isStochastic = false ↔ m.isDeterministic = true ∨ m.operands.isSome = true := by
  cases m <;> simp [Marginal.isStochastic, Marginal.isDeterministic, Marginal.operands]

theorem isActive_iff {i : Nat} :
    isActive marginals correlation i = true ↔ HasCoordinate marginals correlation i := by
  unfold isActive HasCoordinate
  cases marginals[i]? with
  | none => simp
  | some m => simp [Marginal.isStochastic, and_assoc]

/-- Active are those that have a coordinate of their own. -/
theorem mem_activeOf {i : Nat} :
    i ∈ activeOf marginals correlation ↔ HasCoordinate marginals correlation i := by
  rw [activeOf, List.mem_filter, isActive_iff, List.mem_range]
  refine and_iff_right_of_imp ?_
  rintro ⟨m, hm, -⟩
  exact (List.getElem?_eq_some_iff.mp hm).1

theorem activeOf_ne_nil_iff :
    activeOf marginals correlation ≠ [] ↔ ∃ i, HasCoordinate marginals correlation i := by
  constructor
  · intro h
    obtain ⟨i, hi⟩ := List.exists_mem_of_ne_nil _ h
    exact ⟨i, mem_activeOf.mp hi⟩
  · rintro ⟨i, hi⟩
    exact List.ne_nil_of_mem (mem_activeOf.mpr hi)

/-- All checks are passed and a variable is active exactly if the variables are admissible. -/
theorem check_iff_admissible :
    check marginals correlation = .ok () ∧ activeOf marginals correlation ≠ [] ↔
      Admissible marginals correlation := by
  rw [check_eq_ok_iff, forM_checkVariable_iff, activeOf_ne_nil_iff]
  constructor
  · rintro ⟨⟨⟨hexist, hfree⟩, hacyclic⟩, hactive⟩
    refine ⟨hexist, (checkAcyclic_eq_ok_iff hexist).mp hacyclic, fun i m hm hfixed => ?_, hactive⟩
    exact hfree i m hm (isStochastic_eq_false_iff.mpr hfixed)
  · intro h
    refine ⟨⟨⟨h.operands, fun i m hm hfixed => ?_⟩, ?_⟩, h.active⟩
    · exact h.uncorrelated i m hm (isStochastic_eq_false_iff.mp hfixed)
    · exact (checkAcyclic_eq_ok_iff h.operands).mpr h.acyclic

/-! ## The invariant -/

/-- A setup as a refreshment that succeeds leaves it. -/
structure Settled (s : Setup α) : Prop where
  check : Setup.check s.marginals s.correlation = .ok ()
  nonempty : activeOf s.marginals s.correlation ≠ []
  active : s.active = activeOf s.marginals s.correlation

variable {s t : Setup α} {i : Nat} {m : Marginal α}

theorem Settled.admissible (h : Settled s) : Admissible s.marginals s.correlation :=
  check_iff_admissible.mp ⟨h.check, h.nonempty⟩

/-- A settled setup is consistent. -/
theorem Settled.consistent (h : Settled s) : Consistent s := by
  refine ⟨h.admissible, ?_, ?_, fun i => ?_⟩
  · rw [h.active]
    exact h.nonempty
  · rw [h.active]
    exact List.pairwise_lt_range.filter _
  · rw [h.active]
    exact mem_activeOf

theorem Settled.accepted (h : Settled s) : s.Accepted := accepted_of_check h.check

theorem Settled.dimension_pos (h : Settled s) : 0 < s.dimension :=
  List.length_pos_of_ne_nil h.consistent.nonempty

theorem settled_of_refresh (h : refresh.run s = (.ok (), t)) : Settled t := by
  obtain ⟨hcheck, hactive, rfl⟩ := run_refresh_eq_ok.mp h
  exact ⟨hcheck, hactive, rfl⟩

theorem settled_of_new (h : new marginals correlation = .ok s) : Settled s := by
  unfold new at h
  split at h
  · cases h
  · exact settled_of_refresh (edited_eq_ok.mp h)

/-- A refreshment that fails changes the list of the active variables at most. -/
theorem eq_of_refresh_error {e : Error α} (h : refresh.run s = (.error e, t)) :
    t.marginals = s.marginals ∧ t.correlation = s.correlation := by
  rw [run_refresh] at h
  cases hcheck : Setup.check s.marginals s.correlation with
  | error e' =>
    rw [hcheck] at h
    cases h
    exact ⟨rfl, rfl⟩
  | ok _ =>
    rw [hcheck] at h
    by_cases hempty : (activeOf s.marginals s.correlation).isEmpty = true
    · simp only [if_pos hempty] at h
      cases h
      exact ⟨rfl, rfl⟩
    · simp only [if_neg hempty] at h
      cases h

/-! ## What an exchange can do -/

theorem run_get_bind (edit : Setup α → Edit α Unit) : (get >>= edit).run s = (edit s).run s := rfl

/-- Beyond the variables there is nothing to exchange. -/
theorem exchange_outside (hi : s.marginals.length ≤ i) :
    (exchange i m).run s =
      (.error (.invalid (.variableOutside i s.marginals.length)), s) := by
  unfold exchange
  rw [run_get_bind, List.getElem?_eq_none hi]
  rfl

/-- What an edit falls back on begins with the setup that the failed edit has left. -/
theorem run_tryCatch (edit : Edit α Unit) (handle : Error α → Edit α Unit) :
    (tryCatch edit handle).run s = match edit.run s with
      | (.ok _, t) => (.ok (), t)
      | (.error e, t) => (handle e).run t := by
  show StateT.run (ExceptT.tryCatch edit handle).run s = match StateT.run edit.run s with
    | (.ok _, t) => (.ok (), t)
    | (.error e, t) => (handle e).run t
  unfold ExceptT.tryCatch
  simp only [ExceptT.run, ExceptT.mk, StateT.run_bind]
  rcases StateT.run edit s with ⟨_ | _, t⟩ <;> rfl

theorem run_refresh_throw (e : Error α) :
    (do refresh; throw e : Edit α Unit).run s = match refresh.run s with
      | (.ok _, t) => (.error e, t)
      | (.error e', t) => (.error e', t) := by
  show (ExceptT.bindCont (fun _ => (throw e : Edit α Unit)) (refresh.run s).1) (refresh.run s).2 = _
  rcases refresh.run s with ⟨_ | _, t⟩ <;> rfl

/-- Within the range an exchange refreshes the setup with the new variable. If this fails, it
refreshes the setup with the old one, and answers with the first error unless that fails as well. -/
theorem run_exchange {previous : Marginal α} (hprevious : s.marginals[i]? = some previous) :
    (exchange i m).run s = match refresh.run (s.withMarginal i m) with
      | (.ok _, t) => (.ok (), t)
      | (.error e, t) =>
        match refresh.run (t.withMarginal i previous) with
        | (.ok _, t) => (.error e, t)
        | (.error e', t) => (.error e', t) := by
  unfold exchange
  rw [run_get_bind, hprevious]
  show (tryCatch refresh fun e => do
    modify (·.withMarginal i previous)
    refresh
    throw e : Edit α Unit).run (s.withMarginal i m) = _
  rw [run_tryCatch]
  rcases refresh.run (s.withMarginal i m) with ⟨e | _, t⟩
  · exact run_refresh_throw e
  · rfl

theorem exchange_made (hi : i < s.marginals.length)
    (h : refresh.run (s.withMarginal i m) = (.ok (), t)) :
    (exchange i m).run s = (.ok (), t) := by
  rw [run_exchange (List.getElem?_eq_getElem hi), h]

/-- A refused exchange in a settled setup undoes itself: the refreshment with the old variable finds
what it found before. -/
theorem exchange_refused (hs : Settled s) (hi : i < s.marginals.length) {e : Error α}
    (h : refresh.run (s.withMarginal i m) = (.error e, t)) :
    (exchange i m).run s = (.error e, s) := by
  obtain ⟨hmarginals, hcorrelation⟩ := eq_of_refresh_error h
  have hback : t.withMarginal i s.marginals[i] = { s with active := t.active } := by
    unfold withMarginal
    rw [hmarginals, hcorrelation]
    simp [withMarginal]
  have hagain : refresh.run { s with active := t.active } =
      (.ok (), { s with active := activeOf s.marginals s.correlation }) :=
    run_refresh_of_check hs.check hs.nonempty
  rw [run_exchange (List.getElem?_eq_getElem hi), h]
  simp only [hback, hagain]
  rw [← hs.active]

/-- An exchange in a settled setup is made or refused as a whole. -/
theorem exchange_cases (hs : Settled s) (i : Nat) (m : Marginal α) :
    (∃ t, (exchange i m).run s = (.ok (), t) ∧ i < s.marginals.length ∧
      t.marginals = s.marginals.set i m ∧ t.correlation = s.correlation ∧ Settled t) ∨
    ∃ e, (exchange i m).run s = (.error e, s) ∧
      (i < s.marginals.length → ¬Admissible (s.marginals.set i m) s.correlation) := by
  by_cases hi : i < s.marginals.length
  · rcases h : refresh.run (s.withMarginal i m) with ⟨e | _, t⟩
    · refine .inr ⟨e, exchange_refused hs hi h, fun _ hadmissible => ?_⟩
      obtain ⟨hcheck, hactive⟩ := check_iff_admissible.mpr hadmissible
      have hok := @run_refresh_of_check _ (s.withMarginal i m) hcheck hactive
      rw [h] at hok
      cases hok
    · refine .inl ⟨t, exchange_made hi h, hi, ?_, ?_, settled_of_refresh h⟩
      · obtain ⟨-, -, rfl⟩ := run_refresh_eq_ok.mp h
        rfl
      · obtain ⟨-, -, rfl⟩ := run_refresh_eq_ok.mp h
        rfl
  · exact .inr ⟨_, exchange_outside (Nat.le_of_not_lt hi), fun h => absurd h hi⟩

/-- Every setup is settled, by induction on what was exchanged in it. -/
theorem Reached.settled (h : Reached s) : Settled s := by
  induction h with
  | new h => exact settled_of_new h
  | exchange i m _ ih =>
    rcases exchange_cases ih i m with ⟨t, hrun, -, -, -, ht⟩ | ⟨e, hrun, -⟩
    · rw [hrun]
      exact ht
    · rw [hrun]
      exact ih

/-! ## Consistency and atomicity -/

theorem new_eq_ok (hsize : correlation.dimension = marginals.length) :
    new marginals correlation = .ok s ↔
      Admissible marginals correlation ∧
        s = ⟨marginals, correlation, activeOf marginals correlation⟩ := by
  unfold new
  rw [if_neg (not_not.mpr hsize), edited_eq_ok, run_refresh_eq_ok, ← check_iff_admissible, and_assoc]

/-- Setups are consistent and exchanges atomic. Variables make a setup with a correlation of their
number exactly if they are admissible. After any number of exchanges a setup is consistent; the next
one within the range is made exactly if its outcome is admissible, and changes that variable only;
one that is not made leaves the setup as it was. -/
theorem exchange_is_atomic :
    (∀ (marginals : List (Marginal α)) (correlation : Correlation α),
      correlation.dimension = marginals.length →
        ((∃ s, new marginals correlation = .ok s) ↔ Admissible marginals correlation) ∧
        ∀ s, new marginals correlation = .ok s →
          s.marginals = marginals ∧ s.correlation = correlation) ∧
    ∀ s : Setup α, Reached s →
      Consistent s ∧
      ∀ (i : Nat) (m : Marginal α),
        (i < s.marginals.length →
          (((exchange i m).run s).1 = .ok () ↔
            Admissible (s.marginals.set i m) s.correlation)) ∧
        (∀ t, (exchange i m).run s = (.ok (), t) →
          t.marginals = s.marginals.set i m ∧ t.correlation = s.correlation) ∧
        ∀ e t, (exchange i m).run s = (.error e, t) → t = s := by
  refine ⟨fun marginals correlation hsize => ⟨⟨?_, fun h => ?_⟩, fun s h => ?_⟩,
    fun s hs => ⟨hs.settled.consistent, fun i m => ?_⟩⟩
  · rintro ⟨s, h⟩
    exact ((new_eq_ok hsize).mp h).1
  · exact ⟨_, (new_eq_ok hsize).mpr ⟨h, rfl⟩⟩
  · obtain ⟨-, rfl⟩ := (new_eq_ok hsize).mp h
    exact ⟨rfl, rfl⟩
  · rcases exchange_cases hs.settled i m with
      ⟨t, hrun, hi, hmarginals, hcorrelation, ht⟩ | ⟨e, hrun, hrefused⟩
    · rw [hrun]
      refine ⟨fun _ => ⟨fun _ => ?_, fun _ => rfl⟩, ?_, ?_⟩
      · rw [← hmarginals, ← hcorrelation]
        exact ht.admissible
      · rintro _ ⟨⟩
        exact ⟨hmarginals, hcorrelation⟩
      · rintro _ _ ⟨⟩
    · rw [hrun]
      refine ⟨fun hi => ⟨fun h => (by cases h), fun h => absurd h (hrefused hi)⟩, ?_, ?_⟩
      · rintro _ ⟨⟩
      · rintro _ _ ⟨⟩
        rfl

/-- A stochastic variable beside a fixed one. -/
def besideFixed : Setup Float := ⟨[.standardNormal, .deterministic 2], .identity 2, [0]⟩

/-- Of two stochastic variables the second one may not become its own operand, but may be fixed. The
first one has to stay: without it no variable would be active. -/
theorem exchange_is_atomic_lastActive :
    Reached besideFixed ∧ Consistent besideFixed ∧
      ((exchange 0 (.deterministic 1)).run besideFixed).1 = .error (.invalid .noActiveVariables) ∧
      ((exchange 0 (.deterministic 1)).run besideFixed).2 = besideFixed ∧
      ¬Admissible [.deterministic 1, .deterministic 2] besideFixed.correlation := by
  have hnew : new [Marginal.standardNormal, .standardNormal] (.identity 2) =
      .ok (⟨[.standardNormal, .standardNormal], .identity 2, [0, 1]⟩ : Setup Float) := rfl
  have hreached : Reached besideFixed :=
    .exchange 1 (.deterministic 2) (.exchange 1 (.combined 1 0 .sum) (.new hnew))
  have herror : (exchange 0 (.deterministic 1)).run besideFixed =
      (.error (.invalid .noActiveVariables), besideFixed) := rfl
  obtain ⟨hconsistent, hexchange⟩ := exchange_is_atomic.2 besideFixed hreached
  obtain ⟨hiff, -, hstays⟩ := hexchange 0 (.deterministic 1)
  refine ⟨hreached, hconsistent, ?_, hstays _ _ herror, fun hadmissible => ?_⟩
  · rw [herror]
  · have hmade := (hiff (by decide)).mpr hadmissible
    rw [herror] at hmade
    cases hmade

end FailureProbability.Setup
