import FailureProbability.Correlation
import FailureProbability.Proofs.Execution
import Mathlib.Data.List.Nodup

/-!
# Accepted lists of pairs

A list of pairs is accepted when each pair names two different variables that exist, and when no two
pairs name the same two variables. A pair is then found by the variables that it names.

The check goes through the list once and remembers the keys of the pairs before. What it leaves is
said of the list as a whole (`Valid`), so that nobody has to follow the order in which pairs were
checked, and it is inherited by every part of the list. That a coefficient has to lie between minus
one and one is checked there as well, but left out of `Valid`: no proof on groups or maps uses it,
and where the matrix is factored it is the factor that decides.
-/

namespace FailureProbability.Correlation.Pair

variable {α : Type}

/-! ## Keys -/

/-- The key of two variables tells them up to their order. -/
theorem key_eq_iff {i j k l : Nat} :
    (Nat.min i j, Nat.max i j) = (Nat.min k l, Nat.max k l) ↔
      (i = k ∧ j = l) ∨ (i = l ∧ j = k) := by
  rw [Prod.mk.injEq]
  have hmin : Nat.min i j = min i j := rfl
  have hmax : Nat.max i j = max i j := rfl
  have hmin' : Nat.min k l = min k l := rfl
  have hmax' : Nat.max k l = max k l := rfl
  omega

variable [Scalar α]

omit [Scalar α] in
theorem names_iff {p : Pair α} {v : Nat} : p.names v = true ↔ p.i = v ∨ p.j = v := by
  simp [names]

omit [Scalar α] in
/-- A pair that names two different variables names no others. -/
theorem names_both_iff {p : Pair α} {k l : Nat} (hkl : k ≠ l) :
    (p.names k && p.names l) = true ↔ (p.i = k ∧ p.j = l) ∨ (p.i = l ∧ p.j = k) := by
  rw [Bool.and_eq_true, names_iff, names_iff]
  omega

omit [Scalar α] in
theorem names_both_iff_key {p : Pair α} {k l : Nat} (hkl : k ≠ l) :
    (p.names k && p.names l) = true ↔ p.key = (Nat.min k l, Nat.max k l) := by
  rw [names_both_iff hkl, key, key_eq_iff]

/-! ## Valid lists -/

/-- The pairs name different variables that exist, and no two of them name the same two. -/
structure Valid (n : Nat) (pairs : List (Pair α)) : Prop where
  inside : ∀ p ∈ pairs, p.i < n ∧ p.j < n
  distinct : ∀ p ∈ pairs, p.i ≠ p.j
  nodup : (pairs.map key).Nodup

/-- What a single check guarantees, apart from the size of the coefficient. -/
theorem check_eq_ok {n : Nat} {earlier : List (Nat × Nat)} {p : Pair α}
    (h : p.check n earlier = .ok ()) :
    (p.i < n ∧ p.j < n) ∧ p.i ≠ p.j ∧ p.key ∉ earlier := by
  unfold check at h
  by_cases hinside : n ≤ p.i ∨ n ≤ p.j
  · rw [if_pos hinside] at h
    cases h
  rw [if_neg hinside] at h
  by_cases hself : p.i = p.j
  · rw [if_pos hself] at h
    cases h
  rw [if_neg hself] at h
  split at h
  · cases h
  by_cases hearlier : earlier.contains p.key = true
  · rw [if_pos hearlier] at h
    cases h
  exact ⟨by omega, hself, by simpa using hearlier⟩

/-- The pairs of an accepted list are valid and repeat none of the keys before. -/
theorem valid_of_checkAll_earlier {n : Nat} {earlier : List (Nat × Nat)} {pairs : List (Pair α)}
    (h : checkAll n earlier pairs = .ok ()) :
    Valid n pairs ∧ ∀ p ∈ pairs, p.key ∉ earlier := by
  -- The keys before grow along the list, and so the induction is for any of them.
  induction pairs generalizing earlier with
  | nil => exact ⟨⟨by simp, by simp, by simp⟩, by simp⟩
  | cons p pairs ih =>
    obtain ⟨⟨⟩, hp, hrest⟩ := bind_eq_ok.mp h
    obtain ⟨hinside, hself, hnew⟩ := check_eq_ok hp
    obtain ⟨hvalid, hearlier⟩ := ih hrest
    refine ⟨⟨?_, ?_, ?_⟩, ?_⟩
    · exact List.forall_mem_cons.mpr ⟨hinside, hvalid.inside⟩
    · exact List.forall_mem_cons.mpr ⟨hself, hvalid.distinct⟩
    · refine List.nodup_cons.mpr ⟨fun hmem => ?_, hvalid.nodup⟩
      obtain ⟨q, hq, hkey⟩ := List.mem_map.mp hmem
      exact hearlier q hq (by simp [hkey])
    · refine List.forall_mem_cons.mpr ⟨hnew, fun q hq hmem => ?_⟩
      exact hearlier q hq (List.mem_cons_of_mem _ hmem)

theorem valid_of_checkAll {n : Nat} {pairs : List (Pair α)} (h : checkAll n [] pairs = .ok ()) :
    Valid n pairs :=
  (valid_of_checkAll_earlier h).1

namespace Valid

variable {n : Nat} {pairs : List (Pair α)} (h : Valid n pairs)
include h

omit [Scalar α] in
/-- There is one pair for two variables at most. -/
theorem eq_of_key_eq {p q : Pair α} (hp : p ∈ pairs) (hq : q ∈ pairs) (hkey : p.key = q.key) :
    p = q :=
  List.inj_on_of_nodup_map h.nodup hp hq hkey

omit [Scalar α] in
theorem sublist {pairs' : List (Pair α)} (hsub : pairs'.Sublist pairs) : Valid n pairs' :=
  ⟨fun p hp => h.inside p (hsub.subset hp), fun p hp => h.distinct p (hsub.subset hp),
    (hsub.map key).nodup h.nodup⟩

omit [Scalar α] in
theorem notMem_before {before after : List (Pair α)} {p : Pair α}
    (hpairs : pairs = before ++ p :: after) : p ∉ before := by
  intro hp
  have hnodup : (before ++ p :: after).Nodup := hpairs ▸ h.nodup.of_map _
  exact (List.nodup_append.mp hnodup).2.2 p hp p (by simp) rfl

theorem fulls : Valid n (fulls pairs) := h.sublist List.filter_sublist

theorem partials : Valid n (partials pairs) := h.sublist List.filter_sublist

end Valid

theorem mem_fulls {pairs : List (Pair α)} {p : Pair α} :
    p ∈ fulls pairs ↔ p ∈ pairs ∧ p.isFull = true := by
  simp [fulls]

theorem mem_partials {pairs : List (Pair α)} {p : Pair α} :
    p ∈ partials pairs ↔ p ∈ pairs ∧ p.isFull = false := by
  simp [partials]

end FailureProbability.Correlation.Pair
