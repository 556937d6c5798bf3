import FailureProbability.Proofs.Correlation.Forest
import FailureProbability.Proofs.Correlation.Map

/-!
# The robust map

The robust map lets every variable follow the root of its group, and it moves partial correlations
onto the roots. A pair whose variables are roots keeps its place; of the pairs that are moved onto
the same two roots the first one counts, and none if there is a pair on the roots themselves. A
moved pair takes the signs of its variables along, and they cancel when the correlation of the
variables is made from that of their roots.

Roots are spoken of in two ways. `IsRoot` says of a list of full pairs which variable is the lowest
that is linked to another one, without any groups; a result that is stated with it needs no
knowledge of forests. Inside proofs the root is what the groups tell, and `Groups.Tells` is the
bridge.

A pair inside a group is dropped, whatever its coefficient is: the variables are copies of each
other, and a partial correlation between them that says otherwise is lost without an error.
-/

namespace FailureProbability.Correlation

variable {α : Type} [Scalar α]

/-! ## Roots

The substitutions of the robust map list each variable that is no root with its root. Every
variable then follows its root in one step, however long the chain of full pairs between them is. -/

/-- The lowest variable that is linked to a variable, and the sign of the link. -/
structure IsRoot (full : List (Pair α)) (v r : Nat) (s : Sign) : Prop where
  linked : Linked full v r s
  least : ∀ w t, Linked full v w t → r ≤ w

/-- A variable that no full pair names is linked to itself alone. -/
theorem Linked.eq_of_unnamed {full : List (Pair α)} {v w : Nat} {s : Sign}
    (h : Linked full v w s) (hnone : ∀ p ∈ full, p.names v = false) : w = v := by
  induction h with
  | refl => rfl
  | forward _ hp ih => exact absurd (Pair.names_iff.mpr (.inr ih)) (by simp [hnone _ hp])
  | backward _ hp ih => exact absurd (Pair.names_iff.mpr (.inl ih)) (by simp [hnone _ hp])

/-- What groups look up is the lowest linked variable, and the sign of the link. -/
theorem Groups.Tells.isRoot_iff {g : Groups} {n : Nat} {full : List (Pair α)}
    (h : g.Tells n full) {v r : Nat} {s : Sign} : IsRoot full v r s ↔ g.find v = (r, s) := by
  constructor
  · intro hroot
    have hr : (g.find v).1 = r :=
      Nat.le_antisymm (h.root_le hroot.linked) (hroot.least _ _ (h.linked v))
    obtain ⟨hsame, hsign⟩ := h.find_of_linked hroot.linked
    have hself : g.find r = (r, .plus) := h.find_eq_self (hsame.symm.trans hr)
    rw [hself, Sign.mul_plus] at hsign
    exact Prod.ext hr hsign
  · intro hfind
    have hlinked := h.linked v
    rw [hfind] at hlinked
    refine ⟨hlinked, fun w t hw => ?_⟩
    have hle := h.root_le hw
    rwa [hfind] at hle

/-- The variables of a pair have the given roots, in either order. -/
def JoinsRoots (full : List (Pair α)) (p : Pair α) (r r' : Nat) : Prop :=
  ∃ s s', (IsRoot full p.i r s ∧ IsRoot full p.j r' s') ∨
    (IsRoot full p.i r' s ∧ IsRoot full p.j r s')

/-- Whether a pair joins two roots can be looked up as well. -/
theorem Groups.Tells.joinsRoots_iff {g : Groups} {n : Nat} {full : List (Pair α)}
    (h : g.Tells n full) {p : Pair α} {r r' : Nat} :
    JoinsRoots full p r r' ↔ ((g.find p.i).1 = r ∧ (g.find p.j).1 = r') ∨
      ((g.find p.i).1 = r' ∧ (g.find p.j).1 = r) := by
  unfold JoinsRoots
  simp only [h.isRoot_iff]
  constructor
  · rintro ⟨s, s', ⟨hi, hj⟩ | ⟨hi, hj⟩⟩
    · exact .inl ⟨congrArg Prod.fst hi, congrArg Prod.fst hj⟩
    · exact .inr ⟨congrArg Prod.fst hi, congrArg Prod.fst hj⟩
  · rintro (⟨hi, hj⟩ | ⟨hi, hj⟩)
    · exact ⟨_, _, .inl ⟨Prod.ext hi rfl, Prod.ext hj rfl⟩⟩
    · exact ⟨_, _, .inr ⟨Prod.ext hi rfl, Prod.ext hj rfl⟩⟩

namespace Gaussian

omit [Scalar α] in
/-- The substitutions of groups name the variables that are no roots. -/
theorem mem_grouped {groups : Groups} {n : Nat} {s : Substitution} :
    s ∈ grouped groups n ↔ ∃ v < n, (groups.find v).1 ≠ v ∧
      s = ⟨v, (groups.find v).1, (groups.find v).2⟩ := by
  unfold grouped
  rw [List.mem_filterMap]
  constructor
  · rintro ⟨v, hv, hs⟩
    by_cases hroot : (groups.find v).1 = v
    · rw [if_pos hroot] at hs
      cases hs
    · rw [if_neg hroot] at hs
      cases hs
      exact ⟨v, List.mem_range.mp hv, hroot, rfl⟩
  · rintro ⟨v, hv, hroot, rfl⟩
    exact ⟨v, List.mem_range.mpr hv, if_neg hroot⟩

omit [Scalar α] in
/-- The variables that follow others, each of them once. -/
theorem map_dependent_grouped (groups : Groups) (n : ℕ) :
    (grouped groups n).map Substitution.dependent =
      (List.range n).filter fun v => (groups.find v).1 ≠ v := by
  unfold grouped
  rw [List.map_filterMap, ← List.filterMap_eq_filter]
  congr 1
  funext v
  by_cases hv : (groups.find v).1 = v
  · simp [hv, Option.guard]
  · simp [hv, Option.guard]

/-- Every variable follows its root. -/
theorem followed_grouped {groups : Groups} {n : Nat} {full : List (Pair α)}
    (h : groups.Tells n full) {v : Nat} (hv : v < n) :
    followed (grouped groups n) v = groups.find v := by
  unfold followed
  cases hfind : (grouped groups n).find? (·.dependent == v) with
  | none =>
    have hroot : (groups.find v).1 = v := by
      by_contra hne
      have hmem := mem_grouped.mpr ⟨v, hv, hne, rfl⟩
      exact List.find?_eq_none.mp hfind _ hmem (by simp)
    exact (h.find_eq_self hroot).symm
  | some s =>
    obtain ⟨w, -, -, rfl⟩ := mem_grouped.mp (List.mem_of_find?_eq_some hfind)
    have hw : w = v := by simpa using List.find?_some hfind
    rw [hw]

/-! ## Moved pairs

A pair that has to move gives way to a pair that is on the roots already, and to a pair that was
moved there before it. The entry of two roots is therefore that of the first pair that is left
between them, and dropping the later ones changes nothing. -/

/-- A pair between the roots of its variables, with their signs in its coefficient. -/
def onRoots (groups : Groups) (p : Pair α) : Pair α :=
  ⟨(groups.find p.i).1, (groups.find p.j).1,
    ((groups.find p.i).2 * (groups.find p.j).2).apply p.rho⟩

/-- The partial pairs between roots, before all but the first of each two are dropped. -/
def moved (groups : Groups) (pairs : List (Pair α)) : List (Pair α) :=
  (Pair.partials pairs).filterMap (moved? groups.find ((Pair.partials pairs).map Pair.key))

/-- When a pair is kept, and as which. -/
theorem moved?_eq_some {groups : Groups} {given : List (Nat × Nat)} {p q : Pair α} :
    moved? groups.find given p = some q ↔
      (groups.find p.i).1 ≠ (groups.find p.j).1 ∧
      (((groups.find p.i).1 = p.i ∧ (groups.find p.j).1 = p.j) ∨
        (onRoots groups p).key ∉ given) ∧
      q = onRoots groups p := by
  have hmoved : moved? groups.find given p =
      if (groups.find p.i).1 = (groups.find p.j).1 then none
      else if ((groups.find p.i).1 ≠ p.i ∨ (groups.find p.j).1 ≠ p.j) ∧
        given.contains (onRoots groups p).key = true then none
      else some (onRoots groups p) := rfl
  rw [hmoved]
  by_cases hroots : (groups.find p.i).1 = (groups.find p.j).1
  · rw [if_pos hroots]
    exact ⟨fun h => (by cases h), fun h => absurd hroots h.1⟩
  rw [if_neg hroots]
  -- A pair has to move if one of its variables is no root, and then it gives way to a given one.
  by_cases hdropped : ((groups.find p.i).1 ≠ p.i ∨ (groups.find p.j).1 ≠ p.j) ∧
      given.contains (onRoots groups p).key = true
  · rw [if_pos hdropped]
    obtain ⟨hmoves, hgiven⟩ := hdropped
    refine ⟨fun h => (by cases h), ?_⟩
    rintro ⟨-, hstays | hnew, -⟩
    · omega
    · exact absurd (by simpa using hgiven) hnew
  · rw [if_neg hdropped]
    constructor
    · rintro ⟨⟩
      refine ⟨hroots, ?_, rfl⟩
      by_cases hgiven : (onRoots groups p).key ∈ given
      · left
        have hcontains : given.contains (onRoots groups p).key = true := by simpa using hgiven
        by_contra hmoves
        exact hdropped ⟨by omega, hcontains⟩
      · exact .inr hgiven
    · rintro ⟨-, -, rfl⟩
      rfl

/-- A pair on roots is one between two variables if it joins their groups. -/
theorem names_onRoots_iff {groups : Groups} {n : Nat} {full : List (Pair α)}
    (h : groups.Tells n full) {p : Pair α} {r r' : Nat} (hne : r ≠ r') :
    ((onRoots groups p).names r && (onRoots groups p).names r') = true ↔
      JoinsRoots full p r r' := by
  rw [h.joinsRoots_iff, Pair.names_both_iff hne]
  rfl

omit [Scalar α] in
/-- The first of each two variables is the first of them all. -/
theorem find?_firstOfEach {seen : List (Nat × Nat)} {k : Nat × Nat} (hk : k ∉ seen)
    (pairs : List (Pair α)) :
    (firstOfEach seen pairs).find? (fun p => p.key == k) = pairs.find? fun p => p.key == k := by
  induction pairs generalizing seen with
  | nil => rfl
  | cons p pairs ih =>
    unfold firstOfEach
    rw [List.find?_cons]
    by_cases hseen : seen.contains p.key = true
    · have hne : (p.key == k) = false := by
        refine beq_eq_false_iff_ne.mpr ?_
        rintro rfl
        exact hk (by simpa using hseen)
      rw [if_pos hseen, hne, ih hk]
    · rw [if_neg hseen, List.find?_cons]
      cases heq : p.key == k with
      | true => rfl
      | false =>
        have hk' : k ∉ p.key :: seen := by
          intro hmem
          rcases List.mem_cons.mp hmem with rfl | hmem
          · simp at heq
          · exact hk hmem
        exact ih hk'

omit [Scalar α] in
/-- Nothing is added to the pairs, and none of them is changed. -/
theorem mem_of_mem_firstOfEach {seen : List (Nat × Nat)} {pairs : List (Pair α)} {p : Pair α}
    (h : p ∈ firstOfEach seen pairs) : p ∈ pairs ∧ p.key ∉ seen := by
  induction pairs generalizing seen with
  | nil => cases h
  | cons q pairs ih =>
    unfold firstOfEach at h
    by_cases hseen : seen.contains q.key = true
    · rw [if_pos hseen] at h
      exact (ih h).imp_left (List.mem_cons_of_mem q)
    · rw [if_neg hseen] at h
      rcases List.mem_cons.mp h with rfl | h
      · exact ⟨List.mem_cons_self, by simpa using hseen⟩
      · obtain ⟨hmem, hnew⟩ := ih h
        exact ⟨List.mem_cons_of_mem q hmem, fun hp => hnew (List.mem_cons_of_mem _ hp)⟩

omit [Scalar α] in
/-- No two of the pairs that are left name the same two variables. -/
theorem nodup_firstOfEach (seen : List (Nat × Nat)) (pairs : List (Pair α)) :
    ((firstOfEach seen pairs).map Pair.key).Nodup := by
  induction pairs generalizing seen with
  | nil => exact List.nodup_nil
  | cons q pairs ih =>
    unfold firstOfEach
    split
    · exact ih seen
    · refine List.nodup_cons.mpr ⟨fun hmem => ?_, ih _⟩
      obtain ⟨p, hp, hkey⟩ := List.mem_map.mp hmem
      exact (mem_of_mem_firstOfEach hp).2 (by simp [hkey])

/-- Dropping all but the first of each two changes no entry. -/
theorem entry_firstOfEach (pairs : List (Pair α)) (v w : Nat) :
    entry (firstOfEach [] pairs) v w = entry pairs v w := by
  unfold entry
  by_cases hvw : v = w
  · rw [if_pos hvw, if_pos hvw]
  · have hkey : (fun p : Pair α => p.names v && p.names w) =
        fun p => p.key == (Nat.min v w, Nat.max v w) := by
      funext p
      rw [Bool.eq_iff_iff, Pair.names_both_iff_key hvw, beq_iff_eq]
    rw [if_neg hvw, if_neg hvw, hkey, find?_firstOfEach (List.not_mem_nil)]

theorem partials_append_cons {before after : List (Pair α)} {p : Pair α} (hp : p.isFull = false) :
    Pair.partials (before ++ p :: after) =
      Pair.partials before ++ p :: Pair.partials after := by
  unfold Pair.partials
  rw [List.filter_append, List.filter_cons_of_pos (by simp [hp])]

/-- The first pair that is moved onto two roots gives their entry. -/
theorem entry_moved {groups : Groups} {pairs before after : List (Pair α)} {p q : Pair α}
    {r r' : Nat} (hne : r ≠ r') (hpairs : pairs = before ++ p :: after) (hp : p.isFull = false)
    (hmoved : moved? groups.find ((Pair.partials pairs).map Pair.key) p = some q)
    (hnames : (q.names r && q.names r') = true)
    (hfirst : ∀ p' ∈ before, p'.isFull = false → ∀ q',
      moved? groups.find ((Pair.partials pairs).map Pair.key) p' = some q' →
        ¬(q'.names r && q'.names r') = true) :
    entry (moved groups pairs) r r' = q.rho := by
  unfold moved entry
  rw [if_neg hne]
  generalize (Pair.partials pairs).map Pair.key = given at *
  have hnone : ((Pair.partials before).filterMap (moved? groups.find given)).find?
      (fun q => q.names r && q.names r') = none := by
    refine List.find?_eq_none.mpr fun q' hq' => ?_
    obtain ⟨p', hp', hmoved'⟩ := List.mem_filterMap.mp hq'
    obtain ⟨hp', hpartial⟩ := Pair.mem_partials.mp hp'
    exact hfirst p' hp' hpartial q' hmoved'
  rw [hpairs, partials_append_cons hp, List.filterMap_append, List.find?_append, hnone,
    Option.none_or, List.filterMap_cons_some hmoved,
    List.find?_cons_of_pos (p := fun q => Pair.names q r && Pair.names q r') hnames]

/-- Pairs on roots name no variable that follows another one. -/
theorem compatible_moved {groups : Groups} {n : Nat} {pairs : List (Pair α)}
    (hvalid : Pair.Valid n pairs) (h : groups.Tells n (Pair.fulls pairs)) :
    Compatible n (firstOfEach [] (moved groups pairs)) (grouped groups n) := by
  have hlt : ∀ v < n, (groups.find v).1 < n := fun v hv => Nat.lt_of_le_of_lt (h.le v) hv
  -- All that is left of a partial pair is a pair of two different roots.
  have hroots : ∀ p ∈ firstOfEach [] (moved groups pairs),
      ∃ q ∈ pairs, (groups.find q.i).1 ≠ (groups.find q.j).1 ∧ p = onRoots groups q := by
    intro p hp
    obtain ⟨q, hq, hmoved⟩ := List.mem_filterMap.mp (mem_of_mem_firstOfEach hp).1
    obtain ⟨hne, -, rfl⟩ := moved?_eq_some.mp hmoved
    exact ⟨q, (Pair.mem_partials.mp hq).1, hne, rfl⟩
  refine ⟨⟨fun p hp => ?_, fun p hp => ?_, nodup_firstOfEach ..⟩, fun s hs => ?_, ?_,
    fun p hp s hs => ?_⟩
  · obtain ⟨q, hq, -, rfl⟩ := hroots p hp
    exact ⟨hlt _ (hvalid.inside q hq).1, hlt _ (hvalid.inside q hq).2⟩
  · obtain ⟨q, -, hne, rfl⟩ := hroots p hp
    exact hne
  · obtain ⟨v, hv, -, rfl⟩ := mem_grouped.mp hs
    exact ⟨hv, hlt v hv⟩
  · rw [map_dependent_grouped]
    exact List.nodup_range.filter _
  · -- A root follows itself, so that it is no dependent variable.
    obtain ⟨q, -, -, rfl⟩ := hroots p hp
    obtain ⟨v, -, hdependent, rfl⟩ := mem_grouped.mp hs
    have hroot : ∀ w, (groups.find (groups.find w).1).1 = (groups.find w).1 := fun w => by
      rw [h.find_root]
    refine Bool.eq_false_iff.mpr fun hnames => hdependent ?_
    rcases Pair.names_iff.mp hnames with rfl | rfl
    · exact hroot q.i
    · exact hroot q.j

/-! ## The robust map -/

/-- The robust map is put together from the pairs on roots, and every variable follows its root. -/
theorem ofChains_eq_ok {n : Nat} {pairs : List (Pair α)} {g : Gaussian α}
    (h : ofChains n pairs = .ok g) :
    Pair.Valid n pairs ∧ ∃ groups : Groups, groups.Tells n (Pair.fulls pairs) ∧
      assemble n pairs (firstOfEach [] (moved groups pairs)) (grouped groups n) = .ok g := by
  obtain ⟨⟨⟩, hcheck, -⟩ := bind_eq_ok.mp h
  have hvalid := Pair.valid_of_checkAll hcheck
  rw [ofChains_eq hvalid.fulls.inside] at h
  obtain ⟨⟨⟩, -, h⟩ := bind_eq_ok.mp h
  obtain ⟨groups, hgroups, h⟩ := bind_eq_ok.mp h
  exact ⟨hvalid, groups, Groups.tells_of_ofPairs hvalid.fulls.inside hgroups, h⟩

/-- A valid list without contradicting signs is not refused for its groups. -/
theorem ofChains_of_satisfies {n : Nat} {pairs : List (Pair α)}
    (h : Pair.checkAll n [] pairs = .ok ()) {σ : Nat → Sign} (hσ : Satisfies σ (Pair.fulls pairs)) :
    ∃ groups : Groups, groups.Tells n (Pair.fulls pairs) ∧ ofChains n pairs =
      assemble n pairs (firstOfEach [] (moved groups pairs)) (grouped groups n) := by
  have hvalid := Pair.valid_of_checkAll h
  obtain ⟨groups, hgroups⟩ := (Groups.exists_ofPairs_iff hvalid.fulls.inside).mpr ⟨σ, hσ⟩
  refine ⟨groups, Groups.tells_of_ofPairs hvalid.fulls.inside hgroups, ?_⟩
  rw [ofChains_eq hvalid.fulls.inside, h, hgroups]
  rfl

end Gaussian

end FailureProbability.Correlation
