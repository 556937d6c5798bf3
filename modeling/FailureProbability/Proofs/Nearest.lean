import Mathlib
import FailureProbability.Nearest
import FailureProbability.Proofs.Correlation.Cholesky

/-!
# The nearest point of a list

On exact numbers the nearest point of a list does not depend on how the list is gone through: it may
be cut into parts whose nearest points are compared in their order (`merge_offer`). What is found is
the first of the points that are nearest, which in a list in lexicographic order is the
lexicographically first of them.

The list may have points of any number of coordinates and the same point several times. Only its
order matters where points are equally near; parts that are compared in another order may come to
another nearest point, but to none that is farther away. That distances can be compared at all, a
number with itself for one, is where exact numbers are used.
-/

namespace FailureProbability.Nearest

variable [SpecialFunctions]

/-- An offer after a comparison is an offer to the second of what is compared. -/
theorem merge_offer (a b : Option (Nearest ℝ)) (c : Nearest ℝ) :
    offer (merge a b) c = merge a (offer b c) := by
  cases b with
  | none => rfl
  | some y =>
    cases a with
    | none =>
      show offer (some y) c = merge none (offer (some y) c)
      rw [offer_some]
      rfl
    | some x =>
      show offer (offer (some x) y) c = merge (some x) (offer (some y) c)
      rw [offer_some, offer_some, offer_some]
      show _ = offer (some x) (if c.squared < y.squared then c else y)
      rw [offer_some]
      by_cases hcy : c.squared < y.squared
      · rw [if_pos hcy]
        by_cases hyx : y.squared < x.squared
        · rw [if_pos hyx, if_pos hcy, if_pos (hcy.trans hyx)]
        · rw [if_neg hyx]
      · rw [if_neg hcy]
        by_cases hyx : y.squared < x.squared
        · rw [if_pos hyx, if_neg hcy]
        · have hcx : ¬c.squared < x.squared :=
            not_lt.mpr ((not_lt.mp hyx).trans (not_lt.mp hcy))
          rw [if_neg hyx, if_neg hcx]

/-- The nearest of the points of a list. -/
noncomputable def among (points : List (List ℝ)) : Option (Nearest ℝ) :=
  points.foldl (fun best u => offer best (.of u)) none

theorem among_concat (points : List (List ℝ)) (u : List ℝ) :
    among (points ++ [u]) = offer (among points) (.of u) := by
  rw [among, List.foldl_append]
  rfl

/-- Points are compared by the sum of the squares of their coordinates. -/
theorem squared_of (u : List ℝ) : (Nearest.of u).squared = (u.map (· ^ 2)).sum := by
  show Coordinates.dot u u = _
  rw [Coordinates.dot, Coordinates.sum_eq, List.zipWith_self]
  simp only [pow_two]

/-- The first of those points of a list that are nearest to the origin. -/
structure IsFirst (points : List (List ℝ)) (p : Nearest ℝ) : Prop where
  measured : p = .of p.point
  cut : ∃ before after, points = before ++ p.point :: after ∧
    (∀ u ∈ before, p.squared < (Nearest.of u).squared) ∧
    ∀ u ∈ after, p.squared ≤ (Nearest.of u).squared

theorem IsFirst.mem {points : List (List ℝ)} {p : Nearest ℝ} (h : IsFirst points p) :
    p.point ∈ points := by
  obtain ⟨before, after, rfl, -, -⟩ := h.cut
  simp

theorem IsFirst.le {points : List (List ℝ)} {p : Nearest ℝ} (h : IsFirst points p) {u : List ℝ}
    (hu : u ∈ points) : p.squared ≤ (Nearest.of u).squared := by
  obtain ⟨before, after, rfl, hbefore, hafter⟩ := h.cut
  rcases List.mem_append.mp hu with hu | hu
  · exact (hbefore u hu).le
  · rcases List.mem_cons.mp hu with rfl | hu
    · exact (congrArg Nearest.squared h.measured).le
    · exact hafter u hu

/-- A point that follows a list is its first nearest one if it is nearer than all others. -/
theorem IsFirst.concat {points : List (List ℝ)} {p : Nearest ℝ} (h : IsFirst points p)
    (u : List ℝ) : ∃ q, offer (some p) (.of u) = some q ∧ IsFirst (points ++ [u]) q := by
  rw [offer_some]
  by_cases hnear : (Nearest.of u).squared < p.squared
  · refine ⟨_, rfl, ?_⟩
    rw [if_pos hnear]
    exact ⟨rfl, points, [], rfl, fun v hv => hnear.trans_le (h.le hv), by simp⟩
  · refine ⟨_, rfl, ?_⟩
    rw [if_neg hnear]
    obtain ⟨before, after, hcut, hbefore, hafter⟩ := h.cut
    refine ⟨h.measured, before, after ++ [u], by simp [hcut], hbefore, fun v hv => ?_⟩
    rcases List.mem_append.mp hv with hv | hv
    · exact hafter v hv
    · rw [List.mem_singleton.mp hv]
      exact not_lt.mp hnear

/-- A list with points has a first nearest one. -/
theorem among_cases (points : List (List ℝ)) :
    among points = none ∧ points = [] ∨ ∃ p, among points = some p ∧ IsFirst points p := by
  induction points using List.reverseRecOn with
  | nil => exact .inl ⟨rfl, rfl⟩
  | append_singleton points u ih =>
    right
    rw [among_concat]
    rcases ih with ⟨hnone, rfl⟩ | ⟨p, hsome, hp⟩
    · rw [hnone]
      exact ⟨.of u, rfl, rfl, [], [], rfl, by simp, by simp⟩
    · rw [hsome]
      exact hp.concat u

/-- Of the points with a property the one with the smallest squared distance from the origin, and of
several such points the lexicographically first one; none if no point has the property. -/
def IsNearest (P : List ℝ → Prop) : Option (Nearest ℝ) → Prop
  | none => ∀ u, ¬P u
  | some p => P p.point ∧ p.squared = (p.point.map (· ^ 2)).sum ∧
      ∀ u, P u → p.squared < (u.map (· ^ 2)).sum ∨
        p.squared = (u.map (· ^ 2)).sum ∧ (u = p.point ∨ List.Lex (· < ·) p.point u)

/-- In lexicographic order the first of the nearest points is the lexicographically first. -/
theorem isNearest_among {points : List (List ℝ)} (h : points.Pairwise (List.Lex (· < ·))) :
    IsNearest (· ∈ points) (among points) := by
  rcases among_cases points with ⟨hnone, rfl⟩ | ⟨p, hsome, hp⟩
  · rw [hnone]
    exact fun u => List.not_mem_nil
  · rw [hsome]
    refine ⟨hp.mem, ?_, fun u hu => ?_⟩
    · rw [← squared_of]
      exact congrArg Nearest.squared hp.measured
    · rw [← squared_of]
      rcases lt_or_eq_of_le (hp.le hu) with hlt | heq
      · exact .inl hlt
      · refine .inr ⟨heq, ?_⟩
        obtain ⟨before, after, rfl, hbefore, -⟩ := hp.cut
        rcases List.mem_append.mp hu with hu | hu
        · exact absurd heq (hbefore u hu).ne
        · rcases List.mem_cons.mp hu with rfl | hu
          · exact .inl rfl
          · have hrest := (List.pairwise_append.mp h).2.1
            exact .inr (List.rel_of_pairwise_cons hrest hu)

end FailureProbability.Nearest
