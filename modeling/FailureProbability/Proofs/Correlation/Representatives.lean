import FailureProbability.Proofs.Correlation.Chains
import FailureProbability.Proofs.Correlation.Direct

/-!
# Representatives of groups

The two maps of a list without chains keep one variable of each group, but not always the same: the
direct map keeps the first variable of the full pairs and the robust map the lowest one. Two ways to
choose a member of each group of one grouping (`Representatives`) are taken to each other by an
exchange of the chosen members, so that they leave equally many members that are not chosen.

The exchange is an involution on all variables, not only a bijection between those that are kept. So
it permutes the rows and the columns of a whole matrix, and a determinant or a form may be carried
along it; that is what `Proofs.Correlation.Agreement` does.

The first part is about two functions on numbers and knows nothing of maps. Groups come in only
through `Groups.Tells`, and lists only where they have no chains: on a list with chains there is no
direct map that could be compared.
-/

namespace FailureProbability.Correlation

open Finset

/-- Two ways to choose a member of each group of one grouping. -/
structure Representatives (f f' : ℕ → ℕ) : Prop where
  idem : ∀ v, f (f v) = f v
  idem' : ∀ v, f' (f' v) = f' v
  same : ∀ v w, f v = f w ↔ f' v = f' w

/-- Exchanges the two members that are chosen of each group, and keeps all others. -/
def exchange (f f' : ℕ → ℕ) (v : ℕ) : ℕ :=
  if f v = v then f' v else if f' v = v then f v else v

/-- It makes no difference which of the two is named first. -/
theorem exchange_comm (f f' : ℕ → ℕ) (v : ℕ) : exchange f f' v = exchange f' f v := by
  unfold exchange
  by_cases hv : f v = v
  · by_cases hv' : f' v = v
    · simp [hv, hv']
    · simp [hv, hv']
  · by_cases hv' : f' v = v
    · simp [hv, hv']
    · simp [hv, hv']

theorem exchange_of_chosen {f f' : ℕ → ℕ} {v : ℕ} (hv : f v = v) : exchange f f' v = f' v :=
  if_pos hv

theorem exchange_lt {f f' : ℕ → ℕ} {n v : ℕ} (hf : f v < n) (hf' : f' v < n) (hv : v < n) :
    exchange f f' v < n := by
  unfold exchange
  split
  · exact hf'
  · split
    · exact hf
    · exact hv

namespace Representatives

variable {f f' : ℕ → ℕ} (h : Representatives f f')
include h

theorem symm : Representatives f' f := ⟨h.idem', h.idem, fun v w => (h.same v w).symm⟩

/-- The member that is chosen of the group of the other one. -/
theorem choose_other (v : ℕ) : f (f' v) = f v := (h.same _ _).mpr (h.idem' v)

theorem exchange_exchange (v : ℕ) : exchange f f' (exchange f f' v) = v := by
  by_cases hv : f v = v
  · rw [exchange_of_chosen hv, exchange_comm, exchange_of_chosen (h.idem' v), h.choose_other, hv]
  by_cases hv' : f' v = v
  · rw [exchange_comm f f' v, exchange_of_chosen hv', exchange_of_chosen (h.idem v),
      h.symm.choose_other, hv']
  · have hfixed : exchange f f' v = v := by
      rw [exchange, if_neg hv, if_neg hv']
    rw [hfixed, hfixed]

/-- What one of the two chose takes the place of what the other one chose. -/
theorem chosen_exchange_iff (v : ℕ) :
    f' (exchange f f' v) = exchange f f' v ↔ f v = v := by
  constructor
  · intro hchosen
    by_contra hv
    -- Only a variable that one of the two chose is moved at all.
    by_cases hv' : f' v = v
    · rw [exchange_comm, exchange_of_chosen hv', h.symm.choose_other, hv'] at hchosen
      exact hv hchosen.symm
    · rw [exchange, if_neg hv, if_neg hv'] at hchosen
      exact hv' hchosen
  · intro hv
    rw [exchange_of_chosen hv, h.idem']

/-- Of some numbers both leave equally many that they did not choose. -/
theorem card_eq {n : ℕ} (hf : ∀ v < n, f v < n) (hf' : ∀ v < n, f' v < n) :
    #{v ∈ range n | f v ≠ v} = #{v ∈ range n | f' v ≠ v} := by
  have hmap : ∀ v ∈ range n, exchange f f' v ∈ range n := by
    intro v hv
    have hv := mem_range.mp hv
    exact mem_range.mpr (exchange_lt (hf v hv) (hf' v hv) hv)
  refine card_nbij' (exchange f f') (exchange f f') ?_ ?_ ?_ ?_
  · intro v hv
    obtain ⟨hv, hchosen⟩ := mem_filter.mp hv
    exact mem_filter.mpr ⟨hmap v hv, fun heq => hchosen ((h.chosen_exchange_iff v).mp heq)⟩
  · intro v hv
    obtain ⟨hv, hchosen⟩ := mem_filter.mp hv
    refine mem_filter.mpr ⟨hmap v hv, fun heq => hchosen ?_⟩
    rw [exchange_comm] at heq
    exact (h.symm.chosen_exchange_iff v).mp heq
  · exact fun v _ => h.exchange_exchange v
  · exact fun v _ => h.exchange_exchange v

end Representatives

/-! ## Groups without chains -/

namespace Gaussian

variable {α : Type} [Scalar α] {n : ℕ} {pairs : List (Pair α)}

/-- Whatever is followed follows itself: nothing is a copy of a copy. -/
theorem followed_followed (h : Unchained pairs) (v : ℕ) :
    followed (direct pairs) (followed (direct pairs) v).1 =
      ((followed (direct pairs) v).1, .plus) :=
  followed_direct_of_not (not_substituted_followed h v)

theorem followed_eq_self_iff (hvalid : Pair.Valid n pairs) (h : Unchained pairs) {v : ℕ} :
    (followed (direct pairs) v).1 = v ↔ ¬Substituted pairs v := by
  constructor
  · rintro hself ⟨p, hp, hfull, rfl⟩
    rw [followed_direct_of_full h hp hfull] at hself
    exact hvalid.distinct p hp hself
  · intro hv
    rw [followed_direct_of_not hv]

/-- Of a full pair the second variable follows the first, which follows itself. -/
theorem followed_of_mem_fulls (h : Unchained pairs) {p : Pair α} (hp : p ∈ Pair.fulls pairs) :
    followed (direct pairs) p.j = (p.i, p.sign) ∧ followed (direct pairs) p.i = (p.i, .plus) := by
  obtain ⟨hp, hfull⟩ := Pair.mem_fulls.mp hp
  exact ⟨followed_direct_of_full h hp hfull, followed_direct_of_not (h.source p hp hfull)⟩

/-- The signs of the substituted variables satisfy all full pairs. -/
theorem satisfies_followed (h : Unchained pairs) :
    Satisfies (fun v => (followed (direct pairs) v).2) (Pair.fulls pairs) := by
  intro p hp
  obtain ⟨hj, hi⟩ := followed_of_mem_fulls h hp
  dsimp only
  rw [hj, hi, Sign.mul_plus]

/-- Linked variables follow the same variable. -/
theorem followed_of_linked (h : Unchained pairs) {v w : ℕ} {s : Sign}
    (hlinked : Linked (Pair.fulls pairs) v w s) :
    (followed (direct pairs) v).1 = (followed (direct pairs) w).1 := by
  have hpair : ∀ p ∈ Pair.fulls pairs,
      (followed (direct pairs) p.j).1 = (followed (direct pairs) p.i).1 := by
    intro p hp
    obtain ⟨hj, hi⟩ := followed_of_mem_fulls h hp
    rw [hj, hi]
  induction hlinked with
  | refl => rfl
  | forward _ hp ih => exact ih.trans (hpair _ hp)
  | backward _ hp ih => exact ih.trans (hpair _ hp).symm

theorem linked_followed (h : Unchained pairs) (v : ℕ) :
    Linked (Pair.fulls pairs) v (followed (direct pairs) v).1 (followed (direct pairs) v).2 := by
  by_cases hv : Substituted pairs v
  · obtain ⟨p, hp, hfull, rfl⟩ := hv
    rw [followed_direct_of_full h hp hfull]
    exact .of_mem (Pair.mem_fulls.mpr ⟨hp, hfull⟩)
  · rw [followed_direct_of_not hv]
    exact .refl v

/-- The variable that a variable follows in the direct map, and that in the robust one. -/
theorem representatives (h : Unchained pairs) {groups : Groups}
    (htells : groups.Tells n (Pair.fulls pairs)) :
    Representatives (fun v => (followed (direct pairs) v).1) (fun v => (groups.find v).1) := by
  refine ⟨fun v => ?_, fun v => ?_, fun v w => ⟨fun heq => ?_, fun heq => ?_⟩⟩
  · rw [followed_followed h v]
  · rw [htells.find_root v]
  · have hv := (htells.find_of_linked (linked_followed h v)).1
    have hw := (htells.find_of_linked (linked_followed h w)).1
    exact (hv.trans (congrArg (fun x => (groups.find x).1) heq)).trans hw.symm
  · exact followed_of_linked h (htells.linked_of_root_eq heq)

/-- Exchanges the variable that the direct map keeps of each group with the root of the group. -/
def exchanged (groups : Groups) (pairs : List (Pair α)) : ℕ → ℕ :=
  exchange (fun v => (followed (direct pairs) v).1) fun v => (groups.find v).1

/-- The sign that an exchanged variable takes along. -/
def exchangedSign (groups : Groups) (pairs : List (Pair α)) (v : ℕ) : Sign :=
  if (followed (direct pairs) v).1 = v then (groups.find v).2 else .plus

/-! ## Substitutions -/

/-- As many substitutions as there are variables that follow another one. -/
theorem length_direct (hvalid : Pair.Valid n pairs) (h : Unchained pairs) :
    (direct pairs).length = #{v ∈ range n | (followed (direct pairs) v).1 ≠ v} := by
  rw [← List.length_map Substitution.dependent,
    ← List.toFinset_card_of_nodup (nodup_direct hvalid h)]
  congr 1
  ext v
  rw [List.mem_toFinset, List.mem_map, mem_filter, mem_range, Ne, followed_eq_self_iff hvalid h,
    not_not, ← substituted_iff]
  constructor
  · rintro ⟨p, hp, hfull, rfl⟩
    exact ⟨(hvalid.inside p hp).2, p, hp, hfull, rfl⟩
  · exact fun hv => hv.2

omit [Scalar α] in
/-- There are as many substitutions as variables that are no roots. -/
theorem length_grouped (groups : Groups) (n : ℕ) :
    (grouped groups n).length = #{v ∈ range n | (groups.find v).1 ≠ v} := by
  have hsome : (fun v => (if (groups.find v).1 = v then none
      else some (⟨v, (groups.find v).1, (groups.find v).2⟩ : Substitution)).isSome) =
      fun v => decide ((groups.find v).1 ≠ v) := by
    funext v
    by_cases hv : (groups.find v).1 = v
    · simp [hv]
    · simp [hv]
  rw [grouped, List.length_filterMap_eq_countP, hsome, List.countP_eq_length_filter,
    ← List.toFinset_card_of_nodup (List.nodup_range.filter _)]
  congr 1
  ext v
  simp

end Gaussian

end FailureProbability.Correlation
