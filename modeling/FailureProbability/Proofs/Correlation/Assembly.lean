import FailureProbability.Correlation
import FailureProbability.Proofs.Correlation.Pair
import FailureProbability.Proofs.Correlation.Table

/-!
# What a map is assembled from

A map is assembled from two tables. In the reduced one an entry is one on the diagonal, the
coefficient of the pair that names both variables, and otherwise zero (`entry`); the rows of
dependent variables, which are cleared in the end, hold nothing else by then. In the copying one a
variable has its sign at the variable that it follows (`followed`).

That takes pairs and substitutions that go together (`Compatible`), as both maps have them: no two
pairs name the same two variables, so that it does not matter which one is written last, no pair
names a dependent variable, and no variable is dependent twice. Of other lists the tables tell less,
and nothing is said of them.

The coefficients may be any numbers and arithmetic is arbitrary here. What the product of the two
tables is takes exact numbers and is found in `Proofs.Correlation.Map`.
-/

namespace FailureProbability.Correlation

/-- The variable that a variable copies, and its sign; one that is no copy follows itself. -/
def followed (substitutions : List Substitution) (v : Nat) : Nat × Sign :=
  match substitutions.find? (·.dependent == v) with
  | some s => (s.source, s.sign)
  | none => (v, .plus)

namespace Gaussian

variable {α : Type} [Scalar α]

/-- The entry of the matrix of partial correlations: one on the diagonal, the coefficient of the
pair that names both variables, and otherwise zero. -/
def entry (partials : List (Pair α)) (i j : Nat) : α :=
  if i = j then 1
  else
    match partials.find? fun p => p.names i && p.names j with
    | some p => p.rho
    | none => 0

/-- Partial pairs and substitutions over `n` variables that do not get into each other's way. -/
structure Compatible (n : Nat) (partials : List (Pair α)) (substitutions : List Substitution) :
    Prop where
  valid : Pair.Valid n partials
  inside : ∀ s ∈ substitutions, s.dependent < n ∧ s.source < n
  once : (substitutions.map Substitution.dependent).Nodup
  free : ∀ p ∈ partials, ∀ s ∈ substitutions, p.names s.dependent = false

variable {n : Nat} {partials : List (Pair α)} {substitutions : List Substitution}

/-! ## The reduced table -/

/-- The pair that names two variables is the only one that writes to their entries. -/
theorem get_foldl_setBoth (hvalid : Pair.Valid n partials) (t : Table α n) {i j : Nat} (hij : i ≠ j) :
    (partials.foldl (fun t p => t.setBoth p.i p.j p.rho) t).get i j =
      match partials.find? fun p => p.names i && p.names j with
      | some p => p.rho
      | none => t.get i j := by
  induction partials generalizing t with
  | nil => rfl
  | cons p partials ih =>
    obtain ⟨hi, hj⟩ := hvalid.inside p (by simp)
    have hrest := hvalid.sublist (List.sublist_cons_self p partials)
    rw [List.foldl_cons, ih hrest, List.find?_cons, Table.get_setBoth _ hi hj]
    cases hnames : p.names i && p.names j with
    | true =>
      -- No later pair names the same two variables.
      have hnone : partials.find? (fun p => p.names i && p.names j) = none := by
        refine List.find?_eq_none.mpr fun q hq hqnames => ?_
        have hkey := ((Pair.names_both_iff_key hij).mp hqnames).trans
          ((Pair.names_both_iff_key hij).mp hnames).symm
        exact (List.nodup_cons.mp hvalid.nodup).1 (List.mem_map.mpr ⟨q, hq, hkey⟩)
      have hboth := (Pair.names_both_iff hij).mp hnames
      rw [hnone]
      exact if_pos (by omega)
    | false =>
      have hboth : ¬((p.i = i ∧ p.j = j) ∨ (p.i = j ∧ p.j = i)) := by
        rw [← Pair.names_both_iff hij, hnames]
        exact Bool.false_ne_true
      rw [if_neg (by omega)]

theorem get_foldl_setBoth_self (hvalid : Pair.Valid n partials) (t : Table α n) (i : Nat) :
    (partials.foldl (fun t p => t.setBoth p.i p.j p.rho) t).get i i = t.get i i := by
  induction partials generalizing t with
  | nil => rfl
  | cons p partials ih =>
    obtain ⟨hi, hj⟩ := hvalid.inside p (by simp)
    have hne := hvalid.distinct p (by simp)
    rw [List.foldl_cons, ih (hvalid.sublist (List.sublist_cons_self p partials)),
      Table.get_setBoth _ hi hj, if_neg (by omega)]

/-- Where dependent variables have nothing but their diagonal, to cut them off changes nothing. -/
theorem get_foldl_isolate (hinside : ∀ s ∈ substitutions, s.dependent < n) (t : Table α n)
    {i j : Nat} (hi : i < n) (hj : j < n)
    (hzero : ∀ s ∈ substitutions, i ≠ j → (i = s.dependent ∨ j = s.dependent) → t.get i j = 0) :
    (substitutions.foldl (fun t s => t.isolate s.dependent) t).get i j = t.get i j := by
  induction substitutions generalizing t with
  | nil => rfl
  | cons s substitutions ih =>
    obtain ⟨hs, hinside⟩ := List.forall_mem_cons.mp hinside
    obtain ⟨hszero, hzero⟩ := List.forall_mem_cons.mp hzero
    have hstep : (t.isolate s.dependent).get i j = t.get i j := by
      rw [Table.get_isolate t hs hi hj]
      split
      case isTrue h => exact (hszero h.1 h.2).symm
      case isFalse => rfl
    rw [List.foldl_cons, ih hinside (t.isolate s.dependent) (by rwa [hstep]), hstep]

/-- The reduced table holds the partial correlations. -/
theorem get_reduced (h : Compatible n partials substitutions) {i j : Nat} (hi : i < n) (hj : j < n) :
    (reduced n partials substitutions).get i j = entry partials i j := by
  have hgiven : (partials.foldl (fun t p => t.setBoth p.i p.j p.rho) (.identity n) :
      Table α n).get i j = entry partials i j := by
    unfold entry
    by_cases hij : i = j
    · subst hij
      rw [get_foldl_setBoth_self h.valid, Table.get_identity hi hi, if_pos rfl, if_pos rfl]
    · rw [get_foldl_setBoth h.valid _ hij, Table.get_identity hi hj, if_neg hij, if_neg hij]
  unfold reduced
  rw [get_foldl_isolate (fun s hs => (h.inside s hs).1) _ hi hj, hgiven]
  intro s hs hij hdependent
  have hnone : partials.find? (fun p => p.names i && p.names j) = none := by
    refine List.find?_eq_none.mpr fun p hp hnames => ?_
    have hfree := h.free p hp s hs
    rw [Bool.and_eq_true] at hnames
    rcases hdependent with rfl | rfl
    · rw [hfree] at hnames
      cases hnames.1
    · rw [hfree] at hnames
      cases hnames.2
  rw [hgiven, entry, if_neg hij, hnone]

/-! ## The copying table -/

/-- The row of a variable is written for the substitution that names it, and for no other. -/
theorem get_foldl_copy (hinside : ∀ s ∈ substitutions, s.dependent < n ∧ s.source < n)
    (honce : (substitutions.map Substitution.dependent).Nodup) (t : Table α n) (v k : Nat) :
    (substitutions.foldl (fun t s =>
        (t.set s.dependent s.dependent 0).set s.dependent s.source s.sign.toNumber) t).get v k =
      match substitutions.find? (·.dependent == v) with
      | some s => if k = s.source then s.sign.toNumber else if k = v then 0 else t.get v k
      | none => t.get v k := by
  induction substitutions generalizing t with
  | nil => rfl
  | cons s substitutions ih =>
    obtain ⟨⟨hdependent, hsource⟩, hinside⟩ := List.forall_mem_cons.mp hinside
    obtain ⟨hnew, honce⟩ := List.nodup_cons.mp honce
    rw [List.foldl_cons, ih hinside honce, List.find?_cons, Table.get_set _ hdependent hsource,
      Table.get_set _ hdependent hdependent]
    cases hv : s.dependent == v with
    | true =>
      obtain rfl : s.dependent = v := by simpa using hv
      have hnone : substitutions.find? (·.dependent == s.dependent) = none := by
        refine List.find?_eq_none.mpr fun q hq hqv => hnew (List.mem_map.mpr ⟨q, hq, ?_⟩)
        simpa using hqv
      rw [hnone]
      simp only [true_and]
    | false =>
      have hne : v ≠ s.dependent := fun heq => by simp [heq] at hv
      simp only [hne, false_and, if_false]

/-- A variable has its sign at the variable that it follows, and nothing elsewhere. -/
theorem get_copying (h : Compatible n partials substitutions) {v k : Nat} (hv : v < n) (hk : k < n) :
    (copying n substitutions : Table α n).get v k =
      if k = (followed substitutions v).1 then (followed substitutions v).2.toNumber else 0 := by
  unfold copying followed
  rw [get_foldl_copy h.inside h.once, Table.get_identity hv hk]
  cases substitutions.find? (·.dependent == v) with
  | none =>
    dsimp only
    simp only [eq_comm (a := v) (b := k)]
    rfl
  | some s =>
    dsimp only
    by_cases hks : k = s.source
    · rw [if_pos hks, if_pos hks]
    · rw [if_neg hks, if_neg hks]
      by_cases hkv : k = v
      · rw [if_pos hkv]
      · rw [if_neg hkv, if_neg (Ne.symm hkv)]

end Gaussian

end FailureProbability.Correlation
