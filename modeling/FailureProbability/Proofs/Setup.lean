import FailureProbability.Proofs.Execution
import FailureProbability.Setup
import Mathlib.Data.Finset.Card
import Mathlib.Data.Finset.Range
import Mathlib.Data.Nat.Find

/-!
# Operands of accepted setups

A combined variable is derived from two others, and those may be derived in turn. `Within` measures
how deep this goes without a word about the search that the construction makes. A setup that was
accepted has no variable that depends on itself, hence every variable has a depth
(`within_of_checkAcyclic`). As no depth is left out on the way down, the depth is at most the number
of variables (`Within.bounded`), and that many levels suffice for every value.

The search walks down the operands with a path of where it came from and a list of what is done, and
it has fuel. None of the three shows in what is said of it: a visit that ends well leaves a list of
variables that all have a depth, and how it came to them does not matter.

What the checks say of a setup is put in order here for all later use: a setup is accepted if and
only if its operands exist, no fixed or combined variable is correlated, none depends on itself, and
one at least is active (`new_eq_ok_iff`).
-/

namespace FailureProbability.Setup

variable {α : Type}

/-! ## Depth

Depth is a number of levels that suffices, and so it only grows: every larger number suffices as
well. Its least value is the length of the longest way down through the operands. Since each number
of levels below it belongs to another variable, it is less than the number of variables. -/

/-- Variable `i` has at most so many levels, its own included: what it is derived from has one level
less. -/
def Within (marginals : List (Marginal α)) : Nat → Nat → Prop
  | 0, _ => False
  | levels + 1, i => ∀ a b, operandsOf marginals i = some (a, b) →
      Within marginals levels a ∧ Within marginals levels b

variable {marginals : List (Marginal α)}

theorem Within.succ {levels i : Nat} (h : Within marginals levels i) :
    Within marginals (levels + 1) i := by
  induction levels generalizing i with
  | zero => exact absurd h (by simp [Within])
  | succ levels ih =>
    intro a b hab
    obtain ⟨ha, hb⟩ := h a b hab
    exact ⟨ih ha, ih hb⟩

theorem Within.mono {levels more i : Nat} (h : Within marginals levels i) (hle : levels ≤ more) :
    Within marginals more i := by
  induction hle with
  | refl => exact h
  | step _ ih => exact ih.succ

/-- A variable of exactly so many levels, its own apart. -/
def Exactly (marginals : List (Marginal α)) (levels i : Nat) : Prop :=
  Within marginals (levels + 1) i ∧ ¬Within marginals levels i

/-- A variable has one depth. -/
theorem Exactly.unique {k l i : Nat} (hk : Exactly marginals k i) (hl : Exactly marginals l i) :
    k = l := by
  by_contra hne
  rcases Nat.lt_or_gt_of_ne hne with hlt | hlt
  · exact hl.2 (hk.1.mono hlt)
  · exact hk.2 (hl.1.mono hlt)

/-- One of the operands is just one level below. -/
theorem Exactly.below {levels i : Nat} (h : Exactly marginals (levels + 1) i) :
    ∃ a b v, operandsOf marginals i = some (a, b) ∧ (v = a ∨ v = b) ∧
      Exactly marginals levels v := by
  obtain ⟨hwithin, hnot⟩ := h
  rw [Within] at hnot
  push Not at hnot
  obtain ⟨a, b, hab, hdeep⟩ := hnot
  obtain ⟨ha, hb⟩ := hwithin a b hab
  by_cases hshallow : Within marginals levels a
  · exact ⟨a, b, b, hab, .inr rfl, hb, hdeep hshallow⟩
  · exact ⟨a, b, a, hab, .inl rfl, ha, hshallow⟩

/-- All operands are variables of the list. -/
def OperandsExist (marginals : List (Marginal α)) : Prop :=
  ∀ i a b, operandsOf marginals i = some (a, b) → a < marginals.length ∧ b < marginals.length

theorem operandsExist_of_forall_none (h : ∀ m ∈ marginals, m.operands = none) :
    OperandsExist marginals := by
  intro i a b hab
  obtain ⟨m, hm, hoperands⟩ := Option.bind_eq_some_iff.mp hab
  rw [h m (List.mem_of_getElem? hm)] at hoperands
  cases hoperands

variable (hexist : OperandsExist marginals)
include hexist

/-- On the way down from a variable every smaller number of levels is met. -/
theorem Exactly.all_below {levels i : Nat} (h : Exactly marginals levels i)
    (hi : i < marginals.length) {k : Nat} (hk : k ≤ levels) :
    ∃ v, v < marginals.length ∧ Exactly marginals k v := by
  induction levels generalizing i with
  | zero =>
    have hzero : k = 0 := Nat.le_zero.mp hk
    subst hzero
    exact ⟨i, hi, h⟩
  | succ levels ih =>
    by_cases htop : k = levels + 1
    · subst htop
      exact ⟨i, hi, h⟩
    · obtain ⟨a, b, v, hab, hv, hbelow⟩ := h.below
      obtain ⟨ha, hb⟩ := hexist i a b hab
      have hrange : v < marginals.length := by
        rcases hv with rfl | rfl
        · exact ha
        · exact hb
      exact ih hbelow hrange (by omega)

/-- There are no more levels than variables: different numbers of levels belong to different
variables. -/
theorem Exactly.lt_length {levels i : Nat} (h : Exactly marginals levels i)
    (hi : i < marginals.length) : levels < marginals.length := by
  have hall : ∀ k, ∃ v, k ≤ levels → v < marginals.length ∧ Exactly marginals k v := by
    intro k
    by_cases hk : k ≤ levels
    · obtain ⟨v, hv⟩ := h.all_below hexist hi hk
      exact ⟨v, fun _ => hv⟩
    · exact ⟨0, fun hle => absurd hle hk⟩
  choose pick hpick using hall
  have hcard : (Finset.range (levels + 1)).card ≤ (Finset.range marginals.length).card := by
    refine Finset.card_le_card_of_injOn pick ?_ ?_
    · intro k hk
      have hle : k ≤ levels := by simpa [Nat.lt_succ_iff] using hk
      simpa using (hpick k hle).1
    · intro k hk l hl heq
      have hle : k ≤ levels := by simpa [Nat.lt_succ_iff] using hk
      have hle' : l ≤ levels := by simpa [Nat.lt_succ_iff] using hl
      have hl := (hpick l hle').2
      rw [← heq] at hl
      exact (hpick k hle).2.unique hl
  simpa [Nat.succ_le_iff] using hcard

/-- As many levels as there are variables are enough for all that have a depth. -/
theorem Within.bounded {levels i : Nat} (h : Within marginals levels i)
    (hi : i < marginals.length) : Within marginals marginals.length i := by
  classical
  have hdepth : ∃ k, Within marginals k i := ⟨levels, h⟩
  have hleast := Nat.find_spec hdepth
  cases hk : Nat.find hdepth with
  | zero =>
    rw [hk] at hleast
    exact absurd hleast (by simp [Within])
  | succ k =>
    rw [hk] at hleast
    have hexact : Exactly marginals k i := ⟨hleast, Nat.find_min hdepth (by omega)⟩
    exact hleast.mono (hexact.lt_length hexist hi)

omit hexist

/-! ## The search

A visit adds its variable to the list of those that are done, behind its operands. What is kept by
it is that everything on the list has a depth, and the path that it has come along plays no part:
the path is there to make the search fail, and of searches that fail nothing is said. -/

/-- How a visit comes to an end: its variable was known before, or it has no operands, or both of
its operands have been visited. -/
theorem visit_cases {path done done' : List Nat} {i fuel : Nat}
    (h : visit marginals path done i (fuel + 1) = .ok done') :
    (i ∈ done ∧ done' = done) ∨
    (operandsOf marginals i = none ∧ done' = i :: done) ∨
    ∃ a b done₁ done₂, operandsOf marginals i = some (a, b) ∧
      visit marginals (i :: path) done a fuel = .ok done₁ ∧
      visit marginals (i :: path) done₁ b fuel = .ok done₂ ∧ done' = i :: done₂ := by
  rw [visit] at h
  split at h
  · cases h
  · split at h
    case isTrue hknown =>
      cases h
      exact .inl ⟨List.contains_iff_mem.mp hknown, rfl⟩
    case isFalse =>
      cases hoperands : operandsOf marginals i with
      | none =>
        rw [hoperands] at h
        cases h
        exact .inr (.inl ⟨rfl, rfl⟩)
      | some ab =>
        rw [hoperands] at h
        obtain ⟨done₁, ha, h⟩ := bind_eq_ok.mp h
        obtain ⟨done₂, hb, h⟩ := bind_eq_ok.mp h
        cases h
        exact .inr (.inr ⟨_, _, done₁, done₂, rfl, ha, hb, rfl⟩)

theorem within_of_no_operands {i : Nat} (h : operandsOf marginals i = none) :
    Within marginals 1 i := by
  intro a b hab
  rw [h] at hab
  cases hab

/-- A variable is one level above the deeper one of its operands. -/
theorem within_of_operands {a b i k l : Nat} (hab : operandsOf marginals i = some (a, b))
    (ha : Within marginals k a) (hb : Within marginals l b) :
    Within marginals (max k l + 1) i := by
  intro a' b' hab'
  rw [hab] at hab'
  cases hab'
  exact ⟨ha.mono (Nat.le_max_left ..), hb.mono (Nat.le_max_right ..)⟩

/-- A visit that comes to an end has found a depth for its variable and for all others that it
names. -/
theorem within_of_visit {path done done' : List Nat} {i fuel : Nat}
    (h : visit marginals path done i fuel = .ok done')
    (hdone : ∀ v ∈ done, ∃ k, Within marginals k v) :
    i ∈ done' ∧ (∀ v ∈ done, v ∈ done') ∧ ∀ v ∈ done', ∃ k, Within marginals k v := by
  induction fuel generalizing path done done' i with
  | zero => cases h
  | succ fuel ih =>
    rcases visit_cases h with ⟨hknown, rfl⟩ | ⟨hplain, rfl⟩ | ⟨a, b, done₁, done₂, hab, ha, hb, rfl⟩
    · exact ⟨hknown, fun v hv => hv, hdone⟩
    · refine ⟨List.mem_cons_self, fun v hv => List.mem_cons_of_mem _ hv, ?_⟩
      exact List.forall_mem_cons.mpr ⟨⟨1, within_of_no_operands hplain⟩, hdone⟩
    · -- The second visit begins with what the first one has found.
      obtain ⟨hmem₁, hsub₁, hdone₁⟩ := ih ha hdone
      obtain ⟨hmem₂, hsub₂, hdone₂⟩ := ih hb hdone₁
      obtain ⟨k, hk⟩ := hdone₂ a (hsub₂ a hmem₁)
      obtain ⟨l, hl⟩ := hdone₂ b hmem₂
      refine ⟨List.mem_cons_self, fun v hv => List.mem_cons_of_mem _ (hsub₂ v (hsub₁ v hv)), ?_⟩
      exact List.forall_mem_cons.mpr ⟨⟨_, within_of_operands hab hk hl⟩, hdone₂⟩

/-- The search visits all variables of a list one after the other. -/
theorem within_of_foldlM_visit {vs done done' : List Nat} {fuel : Nat}
    (h : vs.foldlM (fun done i => visit marginals [] done i fuel) done = .ok done')
    (hdone : ∀ v ∈ done, ∃ k, Within marginals k v) :
    (∀ v ∈ done, v ∈ done') ∧ (∀ v ∈ vs, v ∈ done') ∧ ∀ v ∈ done', ∃ k, Within marginals k v := by
  induction vs generalizing done with
  | nil =>
    cases h
    exact ⟨fun v hv => hv, fun v hv => absurd hv (by simp), hdone⟩
  | cons v vs ih =>
    rw [List.foldlM_cons] at h
    obtain ⟨done₁, hv, h⟩ := bind_eq_ok.mp h
    obtain ⟨hmem, hsub, hdone₁⟩ := within_of_visit hv hdone
    obtain ⟨hkeep, hall, hdone'⟩ := ih h hdone₁
    refine ⟨fun w hw => hkeep w (hsub w hw), fun w hw => ?_, hdone'⟩
    rcases List.mem_cons.mp hw with rfl | hw
    · exact hkeep w hmem
    · exact hall w hw

/-- A list of variables that passes the check has a depth for each of them. -/
theorem within_of_checkAcyclic (h : checkAcyclic marginals = .ok ()) {i : Nat}
    (hi : i < marginals.length) : ∃ k, Within marginals k i := by
  unfold checkAcyclic at h
  obtain ⟨done, hdone, -⟩ := bind_eq_ok.mp h
  obtain ⟨-, hall, hdepth⟩ := within_of_foldlM_visit hdone fun v hv => absurd hv (by simp)
  exact hdepth i (hall i (by simpa using hi))

/-! ## Accepted setups

The checks are put as properties of the variables and of the correlation. Each is equivalent to its
check, so that a setup that passes all of them is accepted, and one that was accepted has them. -/

/-- A check of every member passes when each of them does. -/
theorem forM_eq_ok_iff {β ε : Type} {f : β → Except ε Unit} {l : List β} :
    l.forM f = .ok () ↔ ∀ b ∈ l, f b = .ok () := by
  induction l with
  | nil => exact ⟨fun _ => by simp, fun _ => rfl⟩
  | cons c l ih =>
    have hcons : (c :: l).forM f = f c >>= fun _ => l.forM f := rfl
    rw [hcons, bind_eq_ok, List.forall_mem_cons, ← ih]
    constructor
    · rintro ⟨_, hc, h⟩
      exact ⟨hc, h⟩
    · rintro ⟨hc, h⟩
      exact ⟨(), hc, h⟩

/-- A variable is accepted if its operands exist and it is stochastic or not correlated. -/
theorem checkVariable_eq_ok_iff {n i : Nat} {correlation : Correlation α} {m : Marginal α} :
    checkVariable n correlation i m = .ok () ↔
      (∀ a b, m.operands = some (a, b) → a < n ∧ b < n) ∧
      (m.isStochastic = false → correlation.isCorrelated i = false) := by
  have hlast : (if m.isStochastic = false ∧ correlation.isCorrelated i = true then
      throw (.invalid (.correlatedFixed i m.name)) else pure () : Except (Error α) Unit) = .ok () ↔
      (m.isStochastic = false → correlation.isCorrelated i = false) := by
    by_cases h : m.isStochastic = false ∧ correlation.isCorrelated i = true
    · rw [if_pos h]
      refine ⟨fun herror => (by cases herror), fun hfree => ?_⟩
      rw [hfree h.1] at h
      cases h.2
    · rw [if_neg h]
      refine ⟨fun _ hfixed => ?_, fun _ => rfl⟩
      exact Bool.eq_false_iff.mpr fun hcorrelated => h ⟨hfixed, hcorrelated⟩
  unfold checkVariable
  cases hoperands : m.operands with
  | none =>
    rw [← hlast]
    exact ⟨fun h => ⟨fun a b hab => (by cases hab), h⟩, fun h => h.2⟩
  | some ab =>
    obtain ⟨a, b⟩ := ab
    dsimp only
    by_cases hrange : n ≤ a ∨ n ≤ b
    · rw [if_pos hrange]
      refine ⟨fun h => (by cases h), fun h => ?_⟩
      have hlt := h.1 a b rfl
      omega
    · rw [if_neg hrange, ← hlast]
      refine ⟨fun h => ⟨?_, h⟩, fun h => h.2⟩
      rintro _ _ ⟨⟩
      omega

/-- All variables are accepted if all operands exist and no variable is correlated that is not
stochastic. -/
theorem forM_checkVariable_iff {correlation : Correlation α} :
    marginals.zipIdx.forM
        (fun (m, i) => checkVariable marginals.length correlation i m) = .ok () ↔
      OperandsExist marginals ∧
      ∀ i m, marginals[i]? = some m → m.isStochastic = false →
        correlation.isCorrelated i = false := by
  rw [forM_eq_ok_iff]
  constructor
  · intro h
    have hget : ∀ i m, marginals[i]? = some m →
        checkVariable marginals.length correlation i m = .ok () := fun i m hm =>
      h (m, i) (List.mem_zipIdx_iff_getElem?.mpr hm)
    refine ⟨fun i a b hab => ?_, fun i m hm => (checkVariable_eq_ok_iff.mp (hget i m hm)).2⟩
    unfold operandsOf at hab
    obtain ⟨m, hm, hab⟩ := Option.bind_eq_some_iff.mp hab
    exact (checkVariable_eq_ok_iff.mp (hget i m hm)).1 a b hab
  · rintro ⟨hexist, hfree⟩ ⟨m, i⟩ hmem
    have hm := List.mem_zipIdx_iff_getElem?.mp hmem
    refine checkVariable_eq_ok_iff.mpr ⟨fun a b hab => hexist i a b ?_, hfree i m hm⟩
    exact Option.bind_eq_some_iff.mpr ⟨m, hm, hab⟩

/-- What is known of a setup that was accepted: its operands are variables of its own, and as many
levels as there are variables are enough to reach all that a variable is derived from. -/
structure Accepted (s : Setup α) : Prop where
  operands : OperandsExist s.marginals
  within : ∀ i, i < s.marginals.length → Within s.marginals s.marginals.length i

/-- Variables are accepted when each of them is, and none depends on itself. -/
theorem check_eq_ok_iff {correlation : Correlation α} :
    check marginals correlation = .ok () ↔
      marginals.zipIdx.forM
        (fun (m, i) => checkVariable marginals.length correlation i m) = .ok () ∧
      checkAcyclic marginals = .ok () := by
  unfold check
  rw [bind_eq_ok]
  exact ⟨fun ⟨_, hchecks, hacyclic⟩ => ⟨hchecks, hacyclic⟩, fun h => ⟨(), h⟩⟩

/-- All that a refreshment can do. If the checks refuse the variables, nothing has changed; if none
is active, there are no active ones from then on. -/
theorem run_refresh (s : Setup α) :
    refresh.run s = match check s.marginals s.correlation with
      | .error e => (.error e, s)
      | .ok () =>
        if (activeOf s.marginals s.correlation).isEmpty = true then
          (.error (.invalid .noActiveVariables), { s with active := [] })
        else (.ok (), { s with active := activeOf s.marginals s.correlation }) := by
  show (liftExcept (check s.marginals s.correlation) >>= fun _ => do
    set { s with active := activeOf s.marginals s.correlation }
    if (activeOf s.marginals s.correlation).isEmpty = true then
      throw (.invalid .noActiveVariables) : Edit α Unit).run s = _
  cases check s.marginals s.correlation with
  | error e => rfl
  | ok _ =>
    show (if (activeOf s.marginals s.correlation).isEmpty = true then
      throw (.invalid .noActiveVariables) else pure () : Edit α Unit).run
        { s with active := activeOf s.marginals s.correlation } = _
    by_cases hempty : (activeOf s.marginals s.correlation).isEmpty = true
    · simp only [if_pos hempty]
      rw [List.isEmpty_iff.mp hempty]
      rfl
    · simp only [if_neg hempty]
      rfl

/-- A refreshment of accepted variables succeeds, whatever was taken for the active ones before. -/
theorem run_refresh_of_check {s : Setup α}
    (hcheck : check s.marginals s.correlation = .ok ())
    (hactive : activeOf s.marginals s.correlation ≠ []) :
    refresh.run s = (.ok (), { s with active := activeOf s.marginals s.correlation }) := by
  rw [run_refresh, hcheck]
  exact if_neg (by simpa using hactive)

/-- A refreshment that succeeds sets the active variables and nothing else. -/
theorem run_refresh_eq_ok {s t : Setup α} :
    refresh.run s = (.ok (), t) ↔
      check s.marginals s.correlation = .ok () ∧ activeOf s.marginals s.correlation ≠ [] ∧
      t = { s with active := activeOf s.marginals s.correlation } := by
  constructor
  · intro h
    rw [run_refresh] at h
    cases hcheck : check s.marginals s.correlation with
    | error e =>
      rw [hcheck] at h
      cases h
    | ok _ =>
      rw [hcheck] at h
      by_cases hempty : (activeOf s.marginals s.correlation).isEmpty = true
      · simp only [if_pos hempty] at h
        cases h
      · simp only [if_neg hempty] at h
        cases h
        exact ⟨rfl, by simpa using hempty, rfl⟩
  · rintro ⟨hcheck, hactive, rfl⟩
    exact run_refresh_of_check hcheck hactive

/-- An edit makes a setup of another one when it answers. -/
theorem edited_eq_ok {s t : Setup α} {edit : Edit α Unit} :
    s.edited edit = .ok t ↔ edit.run s = (.ok (), t) := by
  unfold edited
  rcases edit.run s with ⟨e | _, t'⟩
  · exact ⟨fun h => (by cases h), fun h => (by cases h)⟩
  · exact ⟨fun h => (by cases h; rfl), fun h => (by cases h; rfl)⟩

/-- A setup is accepted when all checks are passed and a variable is active. -/
theorem new_eq_ok_iff [Scalar α] {correlation : Correlation α} {s : Setup α} :
    new marginals correlation = .ok s ↔
      correlation.dimension = marginals.length ∧
      marginals.zipIdx.forM
        (fun (m, i) => checkVariable marginals.length correlation i m) = .ok () ∧
      checkAcyclic marginals = .ok () ∧
      (List.range marginals.length).filter (isActive marginals correlation) ≠ [] ∧
      s = ⟨marginals, correlation,
        (List.range marginals.length).filter (isActive marginals correlation)⟩ := by
  unfold new
  by_cases hsize : correlation.dimension = marginals.length
  · rw [if_neg (not_not.mpr hsize), edited_eq_ok, run_refresh_eq_ok, check_eq_ok_iff, and_assoc]
    exact ⟨fun h => ⟨hsize, h⟩, fun h => h.2⟩
  · rw [if_pos hsize]
    exact ⟨fun h => (by cases h), fun h => absurd h.1 hsize⟩

/-- What the checks have passed has operands, and levels enough for them. -/
theorem accepted_of_check {s : Setup α} (h : check s.marginals s.correlation = .ok ()) :
    s.Accepted := by
  obtain ⟨hchecks, hacyclic⟩ := check_eq_ok_iff.mp h
  obtain ⟨hexist, -⟩ := forM_checkVariable_iff.mp hchecks
  refine ⟨hexist, fun i hi => ?_⟩
  obtain ⟨k, hk⟩ := within_of_checkAcyclic hacyclic hi
  exact hk.bounded hexist hi

theorem accepted_of_new [Scalar α] {correlation : Correlation α} {s : Setup α}
    (h : new marginals correlation = .ok s) : s.Accepted := by
  obtain ⟨-, hchecks, hacyclic, -, rfl⟩ := new_eq_ok_iff.mp h
  exact accepted_of_check (check_eq_ok_iff.mpr ⟨hchecks, hacyclic⟩)

/-- A variable that is not stochastic has no correlation. -/
theorem isCorrelated_of_new [Scalar α] {correlation : Correlation α} {s : Setup α}
    (h : new marginals correlation = .ok s) {i : Nat} {m : Marginal α} (hm : marginals[i]? = some m)
    (hfixed : m.isStochastic = false) : correlation.isCorrelated i = false := by
  obtain ⟨-, hchecks, -⟩ := new_eq_ok_iff.mp h
  exact (forM_checkVariable_iff.mp hchecks).2 i m hm hfixed

/-- A setup exists if all checks are passed and a variable is active. -/
theorem exists_new [Scalar α] {correlation : Correlation α}
    (hsize : correlation.dimension = marginals.length) (hexist : OperandsExist marginals)
    (hfree : ∀ i m, marginals[i]? = some m → m.isStochastic = false →
      correlation.isCorrelated i = false)
    (hacyclic : checkAcyclic marginals = .ok ()) {i : Nat} (hi : i < marginals.length)
    (hactive : isActive marginals correlation i = true) :
    ∃ s, new marginals correlation = .ok s := by
  have hmem : i ∈ (List.range marginals.length).filter (isActive marginals correlation) :=
    List.mem_filter.mpr ⟨List.mem_range.mpr hi, hactive⟩
  exact ⟨_, new_eq_ok_iff.mpr ⟨hsize, forM_checkVariable_iff.mpr ⟨hexist, hfree⟩, hacyclic,
    List.ne_nil_of_mem hmem, rfl⟩⟩

end FailureProbability.Setup
