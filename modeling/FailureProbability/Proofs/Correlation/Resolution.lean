import FailureProbability.Proofs.Correlation.Chains
import FailureProbability.Proofs.Correlation.Realisation

/-!
# What the robust map resolves

On exact numbers the robust map makes each variable from its root (`Resolves`). The correlation of
two variables is that of their roots up to the signs, which is the coefficient of the pair that
counts between the roots. It has taken the signs along, so that the variables of that pair have the
coefficient that was asked for.

Roots are those of `IsRoot`: the lowest variable that is linked to a variable by full pairs, with
the product of the signs on the way. This is said of the list and not of a forest. The forest that
the map is built with enters through the groups that it stands for, which tell just these roots
(`Proofs.Correlation.Forest`), whatever shape its trees have.

## Which pair counts

Several partial pairs may end up on the same two roots. A pair that names the two roots themselves
goes first (`between`); where there is none, the first of the list does (`first`), and the others
are dropped without a word. Where no pair ends up there, the two roots are uncorrelated (`apart`). A
pair inside a group is dropped too: its variables are copies of one root.

What is not said is that a map exists. That is a matter of the matrix of the pairs that were moved
(`exists_ofChains_iff`), where variables without a pair count as uncorrelated. It may fail to be
positive definite although some distribution has all coefficients that were asked for.
-/

namespace FailureProbability.Correlation

open Finset

namespace Gaussian

section

variable [SpecialFunctions]

/-- What a map makes of the pairs of a list over `n` variables, where chains are resolved. -/
structure Resolves (g : Gaussian ℝ) (n : ℕ) (pairs : List (Pair ℝ)) : Prop where
  rooted : ∀ v, ∃! m : ℕ × Sign, IsRoot (Pair.fulls pairs) v m.1 m.2
  /-- A variable is its root with its sign. -/
  row : ∀ v < n, ∀ r s, IsRoot (Pair.fulls pairs) v r s →
    ∀ k, g.coefficient v k = s.apply (g.coefficient r k)
  variance : ∀ v < n, g.covariance v v = 1
  /-- A pair of two roots counts. -/
  between : ∀ p ∈ pairs, p.isFull = false → IsRoot (Pair.fulls pairs) p.i p.i .plus →
    IsRoot (Pair.fulls pairs) p.j p.j .plus → g.covariance p.i p.j = p.rho
  /-- Where there is none, the first pair of the members of two groups does. -/
  first : ∀ before p after, pairs = before ++ p :: after → p.isFull = false → ∀ r r', r ≠ r' →
    JoinsRoots (Pair.fulls pairs) p r r' →
    (∀ q ∈ pairs, q.isFull = false → ¬(q.names r && q.names r') = true) →
    (∀ q ∈ before, q.isFull = false → ¬JoinsRoots (Pair.fulls pairs) q r r') →
    g.covariance p.i p.j = p.rho
  apart : ∀ r r', r < n → r' < n → r ≠ r' → IsRoot (Pair.fulls pairs) r r .plus →
    IsRoot (Pair.fulls pairs) r' r' .plus →
    (∀ p ∈ pairs, p.isFull = false → ¬JoinsRoots (Pair.fulls pairs) p r r') →
    g.covariance r r' = 0

variable {n : ℕ} {pairs : List (Pair ℝ)} {g : Gaussian ℝ}

/-- The robust map follows a factor of the pairs that are moved onto roots. -/
theorem follows_of_ofChains (h : ofChains n pairs = .ok g) :
    Pair.Valid n pairs ∧ ∃ groups : Groups, groups.Tells n (Pair.fulls pairs) ∧
      g.substitutions = grouped groups n ∧
      ∃ rows, g.Follows n (firstOfEach [] (moved groups pairs)) rows := by
  obtain ⟨hvalid, groups, htells, hassemble⟩ := ofChains_eq_ok h
  obtain ⟨hsubstitutions, -, hrows⟩ := follows_of_assemble (compatible_moved hvalid htells) hassemble
  exact ⟨hvalid, groups, htells, hsubstitutions, hrows⟩

section

variable {groups : Groups} (htells : groups.Tells n (Pair.fulls pairs))
  (hsubstitutions : g.substitutions = grouped groups n) {rows : List (List ℝ)}
  (hfollows : g.Follows n (firstOfEach [] (moved groups pairs)) rows)
include htells hsubstitutions hfollows

/-- A variable is made like its root, up to its sign. -/
theorem coefficient_of_isRoot {v r : ℕ} {s : Sign} (hv : v < n)
    (hroot : IsRoot (Pair.fulls pairs) v r s) (k : ℕ) :
    g.coefficient v k = s.apply (g.coefficient r k) := by
  have hfind := htells.isRoot_iff.mp hroot
  have hr : r < n := by
    have hle := htells.le v
    rw [hfind] at hle
    exact hle.trans_lt hv
  have hself : groups.find r = (r, .plus) := by
    have hfindRoot := htells.find_root v
    rwa [hfind] at hfindRoot
  rw [hfollows.coefficient v hv, hfollows.coefficient r hr, hsubstitutions,
    followed_grouped htells hv, followed_grouped htells hr, hfind, hself]
  rfl

/-- The correlation of two variables is that of their roots, up to their signs. -/
theorem covariance_of_grouped {v w : ℕ} (hv : v < n) (hw : w < n) :
    g.covariance v w = ((groups.find v).2 * (groups.find w).2).apply
      (entry (moved groups pairs) (groups.find v).1 (groups.find w).1) := by
  have hfollowed : ∀ x < n, followed g.substitutions x = groups.find x := by
    rw [hsubstitutions]
    exact fun x hx => followed_grouped htells hx
  have hlt : ∀ x < n, (followed g.substitutions x).1 < n := by
    intro x hx
    rw [hfollowed x hx]
    exact (htells.le x).trans_lt hx
  rw [hfollows.covariance_eq hv hw (hlt v hv) (hlt w hw), hfollowed v hv, hfollowed w hw,
    entry_firstOfEach]

/-- The pair that counts between two roots has the coefficient that was asked for. -/
theorem covariance_of_moved {p : Pair ℝ} (hi : p.i < n) (hj : p.j < n)
    (hentry : entry (moved groups pairs) (groups.find p.i).1 (groups.find p.j).1 =
      (onRoots groups p).rho) : g.covariance p.i p.j = p.rho := by
  rw [covariance_of_grouped htells hsubstitutions hfollows hi hj, hentry, onRoots,
    Sign.apply_apply, Sign.mul_self]
  rfl

end

/-- A list without contradicting signs is accepted if and only if the matrix of the pairs that are
moved onto roots is positive definite. -/
theorem exists_ofChains_iff (hcheck : Pair.checkAll n [] pairs = .ok ()) {σ : ℕ → Sign}
    (hσ : Satisfies σ (Pair.fulls pairs)) :
    ∃ groups : Groups, groups.Tells n (Pair.fulls pairs) ∧
      ((∃ g, ofChains n pairs = .ok g) ↔
        (Cholesky.matrix (entry (moved groups pairs)) n).PosDef) := by
  have hvalid := Pair.valid_of_checkAll hcheck
  obtain ⟨groups, htells, hassemble⟩ := ofChains_of_satisfies hcheck hσ
  have hentry : entry (firstOfEach [] (moved groups pairs)) = entry (moved groups pairs) := by
    funext v w
    exact entry_firstOfEach ..
  refine ⟨groups, htells, ?_⟩
  rw [hassemble, exists_assemble_iff_posDef (compatible_moved hvalid htells), hentry]

/-- A pair of two roots is the only one that is moved there. -/
theorem entry_moved_of_roots {groups : Groups} (hvalid : Pair.Valid n pairs) {p : Pair ℝ}
    (hp : p ∈ pairs) (hpartial : p.isFull = false) (hi : (groups.find p.i).1 = p.i)
    (hj : (groups.find p.j).1 = p.j) :
    entry (moved groups pairs) p.i p.j = (onRoots groups p).rho := by
  have hne := hvalid.distinct p hp
  have hgiven : p.key ∈ (Pair.partials pairs).map Pair.key :=
    List.mem_map_of_mem (Pair.mem_partials.mpr ⟨hp, hpartial⟩)
  have hkey : (onRoots groups p).key = p.key := by
    rw [Pair.key, Pair.key, onRoots, hi, hj]
  obtain ⟨before, after, hpairs⟩ := List.append_of_mem hp
  refine entry_moved hne hpairs hpartial (moved?_eq_some.mpr ⟨?_, .inl ⟨hi, hj⟩, rfl⟩) ?_ ?_
  · rw [hi, hj]
    exact hne
  · rw [Pair.names_both_iff_key hne, hkey]
    rfl
  · intro q hq _ q' hmoved hnames
    have hkey' : q'.key = p.key := (Pair.names_both_iff_key hne).mp hnames
    obtain ⟨-, hstays | hnew, rfl⟩ := moved?_eq_some.mp hmoved
    · -- A pair that stays on these roots is the same pair, which would be twice in the list.
      have hsame : (onRoots groups q).key = q.key := by
        rw [Pair.key, Pair.key, onRoots, hstays.1, hstays.2]
      have hmem : q ∈ pairs := hpairs ▸ List.mem_append_left _ hq
      obtain rfl : q = p := hvalid.eq_of_key_eq hmem hp (hsame.symm.trans hkey')
      exact hvalid.notMem_before hpairs hq
    · exact hnew (hkey' ▸ hgiven)

/-- Where no pair is on two roots, the first that is moved there counts. -/
theorem entry_moved_of_first {groups : Groups} (htells : groups.Tells n (Pair.fulls pairs))
    {before after : List (Pair ℝ)} {p : Pair ℝ} (hpairs : pairs = before ++ p :: after)
    (hpartial : p.isFull = false) {r r' : ℕ} (hne : r ≠ r')
    (hjoins : JoinsRoots (Pair.fulls pairs) p r r')
    (hgiven : ∀ q ∈ pairs, q.isFull = false → ¬(q.names r && q.names r') = true)
    (hfirst : ∀ q ∈ before, q.isFull = false → ¬JoinsRoots (Pair.fulls pairs) q r r') :
    entry (moved groups pairs) r r' = (onRoots groups p).rho := by
  have hnames := (names_onRoots_iff htells hne).mpr hjoins
  have hkey := (Pair.names_both_iff_key hne).mp hnames
  have hroots : (groups.find p.i).1 ≠ (groups.find p.j).1 := by
    rcases htells.joinsRoots_iff.mp hjoins with ⟨hi, hj⟩ | ⟨hi, hj⟩
    · rwa [hi, hj]
    · rw [hi, hj]
      exact hne.symm
  have hnew : (onRoots groups p).key ∉ (Pair.partials pairs).map Pair.key := by
    intro hmem
    obtain ⟨q, hq, hqkey⟩ := List.mem_map.mp hmem
    obtain ⟨hq, hqpartial⟩ := Pair.mem_partials.mp hq
    exact hgiven q hq hqpartial ((Pair.names_both_iff_key hne).mpr (hqkey.trans hkey))
  refine entry_moved hne hpairs hpartial (moved?_eq_some.mpr ⟨hroots, .inr hnew, rfl⟩) hnames ?_
  intro q hq hqpartial q' hmoved hnames'
  obtain ⟨-, -, rfl⟩ := moved?_eq_some.mp hmoved
  exact hfirst q hq hqpartial ((names_onRoots_iff htells hne).mp hnames')

/-- Roots that no pair is moved onto have no correlation. -/
theorem entry_moved_eq_zero {groups : Groups} (htells : groups.Tells n (Pair.fulls pairs))
    {r r' : ℕ} (hne : r ≠ r')
    (hnone : ∀ p ∈ pairs, p.isFull = false → ¬JoinsRoots (Pair.fulls pairs) p r r') :
    entry (moved groups pairs) r r' = 0 := by
  refine entry_eq_zero hne fun q hq hnames => ?_
  obtain ⟨p, hp, hmoved⟩ := List.mem_filterMap.mp hq
  obtain ⟨hp, hpartial⟩ := Pair.mem_partials.mp hp
  obtain ⟨-, -, rfl⟩ := moved?_eq_some.mp hmoved
  exact hnone p hp hpartial ((names_onRoots_iff htells hne).mp hnames)

/-- The robust map resolves chains: every variable is its root up to the sign, and the variables of
a pair that counts between two roots have the correlation that was asked for. -/
theorem robust_map_resolves_chains (h : ofChains n pairs = .ok g) : g.Resolves n pairs := by
  obtain ⟨hvalid, groups, htells, hsubstitutions, rows, hfollows⟩ := follows_of_ofChains h
  constructor
  · intro v
    refine ⟨groups.find v, htells.isRoot_iff.mpr rfl, fun m hm => ?_⟩
    exact (htells.isRoot_iff.mp hm).symm
  · intro v hv r s hroot k
    exact coefficient_of_isRoot htells hsubstitutions hfollows hv hroot k
  · intro v hv
    rw [covariance_of_grouped htells hsubstitutions hfollows hv hv, Sign.mul_self, entry_self]
    rfl
  · intro p hp hpartial hi hj
    obtain ⟨hpi, hpj⟩ := hvalid.inside p hp
    have hi := congrArg Prod.fst (htells.isRoot_iff.mp hi)
    have hj := congrArg Prod.fst (htells.isRoot_iff.mp hj)
    refine covariance_of_moved htells hsubstitutions hfollows hpi hpj ?_
    rw [hi, hj]
    exact entry_moved_of_roots hvalid hp hpartial hi hj
  · intro before p after hpairs hpartial r r' hne hjoins hgiven hfirst
    have hp : p ∈ pairs := by simp [hpairs]
    obtain ⟨hpi, hpj⟩ := hvalid.inside p hp
    have hentry := entry_moved_of_first htells hpairs hpartial hne hjoins hgiven hfirst
    refine covariance_of_moved htells hsubstitutions hfollows hpi hpj ?_
    rcases htells.joinsRoots_iff.mp hjoins with ⟨hi, hj⟩ | ⟨hi, hj⟩
    · rw [hi, hj, hentry]
    · rw [hi, hj, entry_comm, hentry]
  · intro r r' hr hr' hne hroot hroot' hnone
    rw [covariance_of_grouped htells hsubstitutions hfollows hr hr', htells.isRoot_iff.mp hroot,
      htells.isRoot_iff.mp hroot', entry_moved_eq_zero htells hne hnone, Sign.apply_zero]

end

/-- The third variable copies the second one, which copies the first; it has a correlation with the
last one. -/
noncomputable def linkedChain (ρ : ℝ) : List (Pair ℝ) := [⟨0, 1, -1⟩, ⟨1, 2, 1⟩, ⟨2, 3, ρ⟩]

section

variable {ρ : ℝ} (hρ : |ρ| < 1 - (10 ^ 10)⁻¹)
include hρ

theorem isFull_linkedChain : (⟨2, 3, ρ⟩ : Pair ℝ).isFull = false := Pair.isFull_eq_false_iff.mpr hρ

theorem fulls_linkedChain : Pair.fulls (linkedChain ρ) = [⟨0, 1, -1⟩, ⟨1, 2, 1⟩] := by
  have hfirst : (⟨0, 1, -1⟩ : Pair ℝ).isFull = true := Pair.isFull_of_abs_eq_one (by simp)
  have hsecond : (⟨1, 2, 1⟩ : Pair ℝ).isFull = true := Pair.isFull_of_abs_eq_one (by simp)
  simp [Pair.fulls, linkedChain, hfirst, hsecond, isFull_linkedChain hρ]

theorem partials_linkedChain : Pair.partials (linkedChain ρ) = [⟨2, 3, ρ⟩] := by
  have hfirst : (⟨0, 1, -1⟩ : Pair ℝ).isFull = true := Pair.isFull_of_abs_eq_one (by simp)
  have hsecond : (⟨1, 2, 1⟩ : Pair ℝ).isFull = true := Pair.isFull_of_abs_eq_one (by simp)
  simp [Pair.partials, linkedChain, hfirst, hsecond, isFull_linkedChain hρ]

theorem checkAll_linkedChain : Pair.checkAll 4 [] (linkedChain ρ) = .ok () := by
  refine Pair.checkAll_of_valid ⟨?_, ?_, ?_⟩ ?_
  · simp [linkedChain]
  · simp [linkedChain]
  · simp [linkedChain, Pair.key]
  · simpa [linkedChain] using Pair.abs_le_one_of_partial (isFull_linkedChain hρ)

/-- The third variable has the root zero, and the last one is its own root. -/
theorem isRoot_linkedChain : (∃ s, IsRoot (Pair.fulls (linkedChain ρ)) 2 0 s) ∧
    IsRoot (Pair.fulls (linkedChain ρ)) 3 3 .plus := by
  have hfulls := fulls_linkedChain hρ
  have hsecond : Linked (Pair.fulls (linkedChain ρ)) 2 1 (Sign.of (1 : ℝ)) :=
    .of_mem (p := ⟨1, 2, 1⟩) (by simp [hfulls])
  have hfirst : Linked (Pair.fulls (linkedChain ρ)) 1 0 (Sign.of (-1 : ℝ)) :=
    .of_mem (p := ⟨0, 1, -1⟩) (by simp [hfulls])
  refine ⟨⟨_, hsecond.trans hfirst, fun w _ _ => Nat.zero_le w⟩, .refl 3, fun w t hw => ?_⟩
  exact (hw.eq_of_unnamed (by simp [hfulls, Pair.names])).ge

/-- Two full pairs in a row are resolved, and the partial pair at their end stays within bounds. -/
theorem exists_ofChains_linkedChain : ∃ g, ofChains 4 (linkedChain ρ) = .ok g := by
  let σ : ℕ → Sign := fun v =>
    if v = 1 then Sign.of (-1 : ℝ) else if v = 2 then Sign.of (1 : ℝ) * Sign.of (-1 : ℝ) else .plus
  have hσ : Satisfies σ (Pair.fulls (linkedChain ρ)) := by
    intro p hp
    rw [fulls_linkedChain hρ] at hp
    rcases List.mem_cons.mp hp with rfl | hp
    · exact (Sign.mul_plus _).symm
    · obtain rfl := List.mem_singleton.mp hp
      rfl
  obtain ⟨groups, htells, haccepted⟩ := exists_ofChains_iff (checkAll_linkedChain hρ) hσ
  obtain ⟨⟨s, hlow⟩, hlast⟩ := isRoot_linkedChain hρ
  rw [htells.isRoot_iff] at hlow hlast
  have hmoved : moved groups (linkedChain ρ) = [onRoots groups ⟨2, 3, ρ⟩] := by
    unfold moved
    rw [partials_linkedChain hρ]
    refine List.filterMap_cons_some (moved?_eq_some.mpr ⟨?_, .inr ?_, rfl⟩)
    · simp [hlow, hlast]
    · simp [onRoots, Pair.key, hlow, hlast]
  rw [haccepted, hmoved]
  refine posDef_entry_singleton ?_ ?_ ?_ ?_
  · simp [onRoots, hlow]
  · simp [onRoots, hlast]
  · simp [onRoots, hlow, hlast]
  · rw [onRoots, Sign.abs_apply]
    exact hρ.trans (by norm_num)

end

/-- The pair of the last two variables is moved onto the first one, and keeps its coefficient. -/
theorem robust_map_resolves_chains_moved : ∃ g, ofChains 4 (linkedChain 2⁻¹) = .ok g ∧
    g.Resolves 4 (linkedChain 2⁻¹) ∧ g.covariance 2 3 = 2⁻¹ := by
  have hρ : |(2⁻¹ : ℝ)| < 1 - (10 ^ 10)⁻¹ := by
    norm_num [abs_of_nonneg]
  obtain ⟨g, hg⟩ := exists_ofChains_linkedChain hρ
  have hresolves := robust_map_resolves_chains hg
  obtain ⟨⟨s, hlow⟩, hlast⟩ := isRoot_linkedChain hρ
  -- The pair is the only partial one.
  have honly : ∀ p ∈ linkedChain 2⁻¹, p.isFull = false → p = ⟨2, 3, 2⁻¹⟩ := by
    intro p hp hpartial
    have hmem := Pair.mem_partials.mpr ⟨hp, hpartial⟩
    rw [partials_linkedChain hρ] at hmem
    exact List.mem_singleton.mp hmem
  refine ⟨g, hg, hresolves, ?_⟩
  refine hresolves.first [⟨0, 1, -1⟩, ⟨1, 2, 1⟩] ⟨2, 3, 2⁻¹⟩ [] rfl (isFull_linkedChain hρ) 0 3
    (by decide) ⟨s, .plus, .inl ⟨hlow, hlast⟩⟩ ?_ ?_
  · intro q hq hqpartial
    rw [honly q hq hqpartial]
    decide
  · intro q hq hqpartial
    have hmem : q ∈ linkedChain 2⁻¹ := by
      rw [linkedChain]
      exact List.mem_append_left [⟨2, 3, 2⁻¹⟩] hq
    rw [honly q hmem hqpartial] at hq
    simp at hq

end Gaussian

end FailureProbability.Correlation
