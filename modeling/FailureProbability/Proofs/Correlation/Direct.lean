import FailureProbability.Proofs.Correlation.Map
import FailureProbability.Proofs.Correlation.Pair

/-!
# The direct map

The direct map refuses chains of full correlations, so that a substituted variable copies one
variable only, which is not substituted itself (`Unchained`). It keeps the partial pairs that name
no substituted variable.

The search for a chain counts how often a variable is dependent and looks whether it is copied. On a
list without repeated pairs that finds just the lists that are not `Unchained`; a pair that stood
there twice would be taken for a chain, which is why validity comes first.

A source may have several copies. It is only copies of copies, and variables with two sources, that
the direct map has no rows for.
-/

namespace FailureProbability.Correlation

variable {α : Type} [Scalar α]

/-- The second variable of a full pair is substituted. -/
def Substituted (pairs : List (Pair α)) (v : Nat) : Prop :=
  ∃ p ∈ pairs, p.isFull = true ∧ p.j = v

/-- A variable is substituted once, and by one that is not. -/
structure Unchained (pairs : List (Pair α)) : Prop where
  source : ∀ p ∈ pairs, p.isFull = true → ¬Substituted pairs p.i
  once : ∀ p ∈ pairs, p.isFull = true → ∀ q ∈ pairs, q.isFull = true → p.j = q.j → p = q

theorem unchained_of_partials {pairs : List (Pair α)} (h : ∀ p ∈ pairs, p.isFull = false) :
    Unchained pairs := by
  constructor
  · intro p hp hfull
    rw [h p hp] at hfull
    cases hfull
  · intro p hp hfull
    rw [h p hp] at hfull
    cases hfull

namespace Gaussian

/-! ## Substitutions

The list of substitutions is that of the full pairs, in their order. Without chains a variable is
found in it at most once, so that it does not matter in which order rows are copied. -/

/-- The partial pairs that the direct map keeps. -/
def kept (pairs : List (Pair α)) : List (Pair α) :=
  (Pair.partials pairs).filter fun p => !(direct pairs).any fun s => p.names s.dependent

theorem mem_direct {pairs : List (Pair α)} {s : Substitution} :
    s ∈ direct pairs ↔ ∃ p ∈ pairs, p.isFull = true ∧ s = ⟨p.j, p.i, p.sign⟩ := by
  unfold direct
  rw [List.mem_map]
  constructor
  · rintro ⟨p, hp, rfl⟩
    obtain ⟨hp, hfull⟩ := Pair.mem_fulls.mp hp
    exact ⟨p, hp, hfull, rfl⟩
  · rintro ⟨p, hp, hfull, rfl⟩
    exact ⟨p, Pair.mem_fulls.mpr ⟨hp, hfull⟩, rfl⟩

theorem substituted_iff {pairs : List (Pair α)} {v : Nat} :
    Substituted pairs v ↔ ∃ s ∈ direct pairs, s.dependent = v := by
  constructor
  · rintro ⟨p, hp, hfull, rfl⟩
    exact ⟨_, mem_direct.mpr ⟨p, hp, hfull, rfl⟩, rfl⟩
  · rintro ⟨s, hs, rfl⟩
    obtain ⟨p, hp, hfull, rfl⟩ := mem_direct.mp hs
    exact ⟨p, hp, hfull, rfl⟩

/-- A pair is kept if it is partial and names no substituted variable. -/
theorem mem_kept {pairs : List (Pair α)} {p : Pair α} :
    p ∈ kept pairs ↔ p ∈ pairs ∧ p.isFull = false ∧ ∀ v, p.names v = true →
      ¬Substituted pairs v := by
  unfold kept
  rw [List.mem_filter, Pair.mem_partials, and_assoc]
  refine and_congr_right fun _ => and_congr_right fun _ => ?_
  simp only [Bool.not_eq_true', List.any_eq_false, substituted_iff, not_exists, not_and]
  constructor
  · rintro h v hv s hs rfl
    exact h s hs hv
  · intro h s hs hname
    exact h _ hname s hs rfl

/-- All partial pairs are kept if none of them names a substituted variable. -/
theorem kept_eq_partials {pairs : List (Pair α)}
    (h : ∀ p ∈ pairs, p.isFull = false → ∀ v, p.names v = true → ¬Substituted pairs v) :
    kept pairs = Pair.partials pairs := by
  refine List.filter_eq_self.mpr fun p hp => ?_
  obtain ⟨hp, hpartial⟩ := Pair.mem_partials.mp hp
  exact (List.mem_filter.mp (mem_kept.mpr ⟨hp, hpartial, h p hp hpartial⟩)).2

theorem length_filter_direct (pairs : List (Pair α)) (v : Nat) :
    ((direct pairs).filter (·.dependent == v)).length =
      ((Pair.fulls pairs).filter (·.j == v)).length := by
  rw [direct, List.filter_map, List.length_map]
  rfl

/-- A list in which no chain is found has none. -/
theorem unchained_of_find? {pairs : List (Pair α)}
    (h : (direct pairs).find? (fun s => chained (direct pairs) s.dependent) = none) :
    Unchained pairs := by
  have hnone : ∀ p ∈ pairs, p.isFull = true →
      ¬1 < ((direct pairs).filter (·.dependent == p.j)).length ∧
        ∀ s ∈ direct pairs, s.source ≠ p.j := by
    intro p hp hfull
    have hp' := List.find?_eq_none.mp h _ (mem_direct.mpr ⟨p, hp, hfull, rfl⟩)
    simpa [chained] using hp'
  constructor
  · rintro p hp hfull ⟨q, hq, hqfull, hqp⟩
    exact (hnone q hq hqfull).2 _ (mem_direct.mpr ⟨p, hp, hfull, rfl⟩) hqp.symm
  · intro p hp hfull q hq hqfull hpq
    -- The two pairs are members of a list that has one member at most.
    have hcount := (hnone p hp hfull).1
    rw [length_filter_direct] at hcount
    have hpmem : p ∈ (Pair.fulls pairs).filter (·.j == p.j) :=
      List.mem_filter.mpr ⟨Pair.mem_fulls.mpr ⟨hp, hfull⟩, by simp⟩
    have hqmem : q ∈ (Pair.fulls pairs).filter (·.j == p.j) :=
      List.mem_filter.mpr ⟨Pair.mem_fulls.mpr ⟨hq, hqfull⟩, by simp [hpq]⟩
    have hpos := List.length_pos_of_mem hpmem
    have hone : ((Pair.fulls pairs).filter (·.j == p.j)).length = 1 := by omega
    obtain ⟨r, hr⟩ := List.length_eq_one_iff.mp hone
    rw [hr] at hpmem hqmem
    rw [List.mem_singleton.mp hpmem, List.mem_singleton.mp hqmem]

/-- On a valid list the search for a chain finds nothing where there is none. -/
theorem find?_of_unchained {n : Nat} {pairs : List (Pair α)} (hvalid : Pair.Valid n pairs)
    (h : Unchained pairs) :
    (direct pairs).find? (fun s => chained (direct pairs) s.dependent) = none := by
  refine List.find?_eq_none.mpr fun s hs => ?_
  obtain ⟨p, hp, hfull, rfl⟩ := mem_direct.mp hs
  unfold chained
  rw [Bool.or_eq_true, not_or, decide_eq_true_iff, List.any_eq_true]
  constructor
  · -- Two members of the list would be the same pair twice.
    intro hcount
    rw [length_filter_direct] at hcount
    have hnodup : ((Pair.fulls pairs).filter (·.j == p.j)).Nodup :=
      (hvalid.fulls.nodup.of_map _).filter _
    generalize hl : (Pair.fulls pairs).filter (·.j == p.j) = l at hcount hnodup
    have hmem : ∀ q ∈ l, q = p := by
      intro q hq
      rw [← hl] at hq
      obtain ⟨hq, hqp⟩ := List.mem_filter.mp hq
      obtain ⟨hq, hqfull⟩ := Pair.mem_fulls.mp hq
      exact h.once q hq hqfull p hp hfull (by simpa using hqp)
    have hsame : l[0] = l[1] :=
      (hmem _ (List.getElem_mem _)).trans (hmem _ (List.getElem_mem _)).symm
    exact absurd ((hnodup.getElem_inj_iff).mp hsame) (by decide)
  -- A variable that is copied is not substituted itself.
  · rintro ⟨t, ht, hsource⟩
    obtain ⟨q, hq, hqfull, rfl⟩ := mem_direct.mp ht
    have hqp : q.i = p.j := by simpa using hsource
    exact h.source q hq hqfull ⟨p, hp, hfull, hqp.symm⟩

/-- A valid list is refused for its first chain, and else the map is put together. -/
theorem ofPairs_eq {n : Nat} {pairs : List (Pair α)} (h : Pair.checkAll n [] pairs = .ok ()) :
    ofPairs n pairs =
      match (direct pairs).find? fun s => chained (direct pairs) s.dependent with
      | some s => .error (.invalid (.fullChain s.dependent))
      | none => assemble n pairs (kept pairs) (direct pairs) := by
  unfold ofPairs
  rw [h]
  rfl

/-- A valid list without chains is not refused for one. -/
theorem ofPairs_of_unchained {n : Nat} {pairs : List (Pair α)}
    (h : Pair.checkAll n [] pairs = .ok ()) (hunchained : Unchained pairs) :
    ofPairs n pairs = assemble n pairs (kept pairs) (direct pairs) := by
  rw [ofPairs_eq h, find?_of_unchained (Pair.valid_of_checkAll h) hunchained]

/-- The direct map of a valid list, unless the list is refused for a chain. -/
theorem ofPairs_of_checkAll {n : Nat} {pairs : List (Pair α)}
    (h : Pair.checkAll n [] pairs = .ok ())
    (hchain : ∀ d, ofPairs n pairs ≠ .error (.invalid (.fullChain d))) :
    Unchained pairs ∧ ofPairs n pairs = assemble n pairs (kept pairs) (direct pairs) := by
  have hpairs := ofPairs_eq h
  cases hfind : (direct pairs).find? fun s => chained (direct pairs) s.dependent with
  | some s =>
    rw [hfind] at hpairs
    exact absurd hpairs (hchain s.dependent)
  | none =>
    rw [hfind] at hpairs
    exact ⟨unchained_of_find? hfind, hpairs⟩

/-- A direct map that was made is that of a valid list without chains, put together from the pairs
that are kept. -/
theorem ofPairs_eq_ok {n : Nat} {pairs : List (Pair α)} {g : Gaussian α}
    (h : ofPairs n pairs = .ok g) :
    Pair.Valid n pairs ∧ Unchained pairs ∧
      assemble n pairs (kept pairs) (direct pairs) = .ok g := by
  have hcheck : Pair.checkAll n [] pairs = .ok () := by
    obtain ⟨⟨⟩, hcheck, -⟩ := bind_eq_ok.mp h
    exact hcheck
  obtain ⟨hunchained, hassemble⟩ := ofPairs_of_checkAll hcheck fun d hd => by
    rw [hd] at h
    cases h
  exact ⟨Pair.valid_of_checkAll hcheck, hunchained, hassemble ▸ h⟩

theorem ne_fullChain_of_unchained {n : Nat} {pairs : List (Pair α)}
    (h : Pair.checkAll n [] pairs = .ok ()) (hunchained : Unchained pairs) (d : Nat) :
    ofPairs n pairs ≠ .error (.invalid (.fullChain d)) := by
  rw [ofPairs_of_unchained h hunchained]
  unfold assemble
  split
  · exact nofun
  · exact nofun

/-- A substituted variable follows the first variable of its pair. -/
theorem followed_direct_of_full {pairs : List (Pair α)} (h : Unchained pairs) {p : Pair α}
    (hp : p ∈ pairs) (hfull : p.isFull = true) : followed (direct pairs) p.j = (p.i, p.sign) := by
  unfold followed
  cases hfind : (direct pairs).find? (·.dependent == p.j) with
  | none =>
    have hmem : (⟨p.j, p.i, p.sign⟩ : Substitution) ∈ direct pairs :=
      mem_direct.mpr ⟨p, hp, hfull, rfl⟩
    exact absurd (List.find?_eq_none.mp hfind _ hmem) (by simp)
  | some s =>
    obtain ⟨q, hq, hqfull, rfl⟩ := mem_direct.mp (List.mem_of_find?_eq_some hfind)
    have hqp : q.j = p.j := by simpa using List.find?_some hfind
    rw [h.once q hq hqfull p hp hfull hqp]

theorem followed_direct_of_not {pairs : List (Pair α)} {v : Nat} (h : ¬Substituted pairs v) :
    followed (direct pairs) v = (v, .plus) := by
  unfold followed
  have hnone : (direct pairs).find? (·.dependent == v) = none := by
    refine List.find?_eq_none.mpr fun s hs hv => h ?_
    exact substituted_iff.mpr ⟨s, hs, by simpa using hv⟩
  rw [hnone]

/-- No variable follows one that is substituted. -/
theorem not_substituted_followed {pairs : List (Pair α)} (h : Unchained pairs) (v : Nat) :
    ¬Substituted pairs (followed (direct pairs) v).1 := by
  by_cases hv : Substituted pairs v
  · obtain ⟨p, hp, hfull, rfl⟩ := hv
    rw [followed_direct_of_full h hp hfull]
    exact h.source p hp hfull
  · rw [followed_direct_of_not hv]
    exact hv

theorem followed_direct_lt {n : Nat} {pairs : List (Pair α)} (hvalid : Pair.Valid n pairs)
    (h : Unchained pairs) {v : Nat} (hv : v < n) : (followed (direct pairs) v).1 < n := by
  by_cases hsub : Substituted pairs v
  · obtain ⟨p, hp, hfull, rfl⟩ := hsub
    rw [followed_direct_of_full h hp hfull]
    exact (hvalid.inside p hp).1
  · rw [followed_direct_of_not hsub]
    exact hv

/-! ## Pairs and substitutions together

The pairs that are kept and the substitutions meet no variable twice. This is the only thing that
the assembly asks of them (`Compatible`), and the robust map has it for other reasons. -/

theorem valid_kept {n : Nat} {pairs : List (Pair α)} (h : Pair.Valid n pairs) :
    Pair.Valid n (kept pairs) :=
  h.partials.sublist List.filter_sublist

theorem nodup_direct {n : Nat} {pairs : List (Pair α)} (hvalid : Pair.Valid n pairs)
    (h : Unchained pairs) : ((direct pairs).map Substitution.dependent).Nodup := by
  rw [direct, List.map_map]
  refine List.Nodup.map_on ?_ (hvalid.fulls.nodup.of_map _)
  intro p hp q hq heq
  obtain ⟨hp, hpfull⟩ := Pair.mem_fulls.mp hp
  obtain ⟨hq, hqfull⟩ := Pair.mem_fulls.mp hq
  exact h.once p hp hpfull q hq hqfull heq

/-- The pairs that are kept name no substituted variable, and none is substituted twice. -/
theorem compatible_direct {n : Nat} {pairs : List (Pair α)} (hvalid : Pair.Valid n pairs)
    (h : Unchained pairs) : Compatible n (kept pairs) (direct pairs) := by
  refine ⟨valid_kept hvalid, fun s hs => ?_, nodup_direct hvalid h, fun p hp s hs => ?_⟩
  · obtain ⟨p, hp, -, rfl⟩ := mem_direct.mp hs
    exact (hvalid.inside p hp).symm
  · refine Bool.eq_false_iff.mpr fun hnames => ?_
    exact (mem_kept.mp hp).2.2 _ hnames (substituted_iff.mpr ⟨s, hs, rfl⟩)

end Gaussian

end FailureProbability.Correlation
