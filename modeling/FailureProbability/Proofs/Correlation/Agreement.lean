import FailureProbability.Proofs.Correlation.Representatives
import FailureProbability.Proofs.Correlation.Resolution

/-!
# Agreement of the two maps

A list of pairs without chains, of which no partial pair names a substituted variable, makes the
same correlations in both maps. The correlation of two variables that the direct map keeps is that
of their roots, up to the signs. To exchange the two kept variables of each group takes the matrix
of one map to that of the other, so that both matrices are positive definite or none of them is.

A list without chains is not one on which the robust map has nothing to do. A variable may be copied
by several others, which the robust map brings together in a group whose lowest member need not be
the one that was copied; a partial pair then moves from one to the other, with both signs, and has
to meet no other pair there.

The rows of the two maps differ in general, as do the variables that keep a coordinate. What is
compared is what a user can see: which lists are accepted, how many coordinates there are, and the
correlations of all variables.
-/

namespace FailureProbability.Correlation

open Finset Matrix

namespace Gaussian

section

variable [SpecialFunctions] {n : ℕ} {pairs : List (Pair ℝ)}

/-! ## Matrices -/

/-- A matrix is positive definite if its entries are some of a positive definite one, up to the
signs of the indices. -/
theorem posDef_of_signs {A B : Matrix (Fin n) (Fin n) ℝ} (hB : B.PosDef) {e : Fin n → Fin n}
    (he : Function.Injective e) {σ : Fin n → Sign}
    (h : ∀ v w, A v w = (σ v * σ w).apply (B (e v) (e w))) : A.PosDef := by
  let d : Fin n → ℝ := fun v => (σ v).apply 1
  have hA : A = diagonal d * B.submatrix e e * (diagonal d)ᴴ := by
    ext v w
    have hmul : d v * B (e v) (e w) * d w = (σ v * σ w).apply (B (e v) (e w)) := by
      rw [mul_right_comm, Sign.apply_mul_apply, mul_one]
      cases σ v * σ w
      · exact one_mul _
      · exact neg_one_mul _
    rw [h, ← hmul, diagonal_conjTranspose, mul_diagonal, diagonal_mul]
    simp
  have hsquare : diagonal d * diagonal d = 1 := by
    have hone : ∀ v, d v * d v = 1 := by
      intro v
      rw [Sign.apply_mul_apply, Sign.mul_self, mul_one]
      rfl
    rw [diagonal_mul_diagonal, funext hone, diagonal_one]
  have hunit : IsUnit (diagonal d) := IsUnit.of_mul_eq_one _ hsquare
  rw [hA]
  exact (hB.submatrix he).mul_mul_conjTranspose_same (vecMul_injective_of_isUnit hunit)

/-! ## Entries

The coefficient of a pair is looked up by the variables themselves in one map and by their roots in
the other. A kept variable need not be a root, and a root need not be kept; but each group has one
of either, and the pair moves from the one to the other with its signs. -/

section

variable {groups : Groups} (hvalid : Pair.Valid n pairs) (hunchained : Unchained pairs)
  (hfree : ∀ p ∈ pairs, p.isFull = false → ∀ v, p.names v = true → ¬Substituted pairs v)
  (htells : groups.Tells n (Pair.fulls pairs))
include hunchained htells

/-- Different variables that are kept have different roots. -/
theorem eq_of_root_eq {v w : ℕ} (hv : ¬Substituted pairs v) (hw : ¬Substituted pairs w)
    (hroots : (groups.find v).1 = (groups.find w).1) : v = w := by
  have hfollowed := ((representatives hunchained htells).same v w).mpr hroots
  rwa [followed_direct_of_not hv, followed_direct_of_not hw] at hfollowed

include hfree

/-- A pair between the roots of two variables that are kept names these variables. -/
theorem names_of_joinsRoots {v w : ℕ} (hvw : v ≠ w) (hv : ¬Substituted pairs v)
    (hw : ¬Substituted pairs w) {p : Pair ℝ} (hp : p ∈ pairs) (hpartial : p.isFull = false)
    (hjoins : JoinsRoots (Pair.fulls pairs) p (groups.find v).1 (groups.find w).1) :
    (p.names v && p.names w) = true := by
  have hi := hfree p hp hpartial p.i (by simp [Pair.names])
  have hj := hfree p hp hpartial p.j (by simp [Pair.names])
  have hsame : ∀ x y, ¬Substituted pairs x → ¬Substituted pairs y →
      (groups.find x).1 = (groups.find y).1 → x = y :=
    fun x y hx hy => eq_of_root_eq hunchained htells hx hy
  rw [Pair.names_both_iff hvw]
  rcases htells.joinsRoots_iff.mp hjoins with ⟨hiv, hjw⟩ | ⟨hiw, hjv⟩
  · exact .inl ⟨hsame _ _ hi hv hiv, hsame _ _ hj hw hjw⟩
  · exact .inr ⟨hsame _ _ hi hw hiw, hsame _ _ hj hv hjv⟩

include hvalid

/-- It is the pair of these variables. -/
theorem eq_of_joinsRoots {v w : ℕ} (hvw : v ≠ w) (hv : ¬Substituted pairs v)
    (hw : ¬Substituted pairs w) {p q : Pair ℝ} (hp : p ∈ pairs)
    (hnames : (p.names v && p.names w) = true) (hq : q ∈ pairs) (hpartial : q.isFull = false)
    (hjoins : JoinsRoots (Pair.fulls pairs) q (groups.find v).1 (groups.find w).1) : q = p := by
  have hqnames := names_of_joinsRoots hunchained hfree htells hvw hv hw hq hpartial hjoins
  exact hvalid.eq_of_key_eq hq hp (((Pair.names_both_iff_key hvw).mp hqnames).trans
    ((Pair.names_both_iff_key hvw).mp hnames).symm)

/-- The pair of two variables that are kept counts between their roots. -/
theorem entry_moved_of_names {v w : ℕ} (hvw : v ≠ w) (hv : ¬Substituted pairs v)
    (hw : ¬Substituted pairs w) {p : Pair ℝ} (hp : p ∈ pairs) (hpartial : p.isFull = false)
    (hnames : (p.names v && p.names w) = true) :
    entry (moved groups pairs) (groups.find v).1 (groups.find w).1 = (onRoots groups p).rho := by
  have hne : (groups.find v).1 ≠ (groups.find w).1 :=
    fun heq => hvw (eq_of_root_eq hunchained htells hv hw heq)
  have hjoins : JoinsRoots (Pair.fulls pairs) p (groups.find v).1 (groups.find w).1 := by
    rw [htells.joinsRoots_iff]
    rcases (Pair.names_both_iff hvw).mp hnames with ⟨hi, hj⟩ | ⟨hi, hj⟩
    · exact .inl ⟨by rw [hi], by rw [hj]⟩
    · exact .inr ⟨by rw [hi], by rw [hj]⟩
  have honly : ∀ q ∈ pairs, q.isFull = false →
      JoinsRoots (Pair.fulls pairs) q (groups.find v).1 (groups.find w).1 → q = p :=
    fun q => eq_of_joinsRoots hvalid hunchained hfree htells hvw hv hw hp hnames
  -- Either the pair is on the two roots already, or it is the first one that is moved onto them.
  by_cases hroots : (groups.find p.i).1 = p.i ∧ (groups.find p.j).1 = p.j
  · have hentry := entry_moved_of_roots hvalid hp hpartial hroots.1 hroots.2
    rcases htells.joinsRoots_iff.mp hjoins with ⟨hi, hj⟩ | ⟨hi, hj⟩
    · rw [← hi, ← hj, hroots.1, hroots.2, hentry]
    · rw [← hi, ← hj, hroots.1, hroots.2, entry_comm, hentry]
  · obtain ⟨before, after, hpairs⟩ := List.append_of_mem hp
    refine entry_moved_of_first htells hpairs hpartial hne hjoins ?_ ?_
    · -- A pair that is on the two roots would be this pair, which has to move.
      intro q hq hqpartial hqnames
      have hrooted : (groups.find q.i).1 = q.i ∧ (groups.find q.j).1 = q.j := by
        rcases (Pair.names_both_iff hne).mp hqnames with ⟨hi, hj⟩ | ⟨hi, hj⟩
        · rw [hi, hj, htells.find_root, htells.find_root]
          exact ⟨rfl, rfl⟩
        · rw [hi, hj, htells.find_root, htells.find_root]
          exact ⟨rfl, rfl⟩
      have hqjoins : JoinsRoots (Pair.fulls pairs) q (groups.find v).1 (groups.find w).1 := by
        rw [htells.joinsRoots_iff, hrooted.1, hrooted.2]
        exact (Pair.names_both_iff hne).mp hqnames
      exact hroots (honly q hq hqpartial hqjoins ▸ hrooted)
    · intro q hq hqpartial hqjoins
      obtain rfl := honly q (hpairs ▸ List.mem_append_left _ hq) hqpartial hqjoins
      exact hvalid.notMem_before hpairs hq

/-- The correlation of two variables that are kept is that of their roots up to the signs. -/
theorem entry_kept_eq {v w : ℕ} (hv : ¬Substituted pairs v) (hw : ¬Substituted pairs w) :
    entry (kept pairs) v w = ((groups.find v).2 * (groups.find w).2).apply
      (entry (moved groups pairs) (groups.find v).1 (groups.find w).1) := by
  by_cases hvw : v = w
  · subst hvw
    rw [entry_self, entry_self, Sign.mul_self]
    rfl
  by_cases hpair : ∃ p ∈ pairs, p.isFull = false ∧ (p.names v && p.names w) = true
  · obtain ⟨p, hp, hpartial, hnames⟩ := hpair
    have hkept : p ∈ kept pairs := (names_kept hvw hnames).mpr ⟨hp, hpartial, hv, hw⟩
    have hsigns : (groups.find p.i).2 * (groups.find p.j).2 =
        (groups.find v).2 * (groups.find w).2 := by
      rcases (Pair.names_both_iff hvw).mp hnames with ⟨hi, hj⟩ | ⟨hi, hj⟩
      · rw [hi, hj]
      · rw [hi, hj, Sign.mul_comm]
    rw [entry_of_mem (valid_kept hvalid) hkept hvw hnames,
      entry_moved_of_names hvalid hunchained hfree htells hvw hv hw hp hpartial hnames, onRoots,
      hsigns, Sign.apply_apply, Sign.mul_self]
    rfl
  -- Without a pair in the list there is none in either matrix.
  · have hne : (groups.find v).1 ≠ (groups.find w).1 :=
      fun heq => hvw (eq_of_root_eq hunchained htells hv hw heq)
    have hmoved : entry (moved groups pairs) (groups.find v).1 (groups.find w).1 = 0 := by
      refine entry_moved_eq_zero htells hne fun p hp hpartial hjoins => hpair ⟨p, hp, hpartial, ?_⟩
      exact names_of_joinsRoots hunchained hfree htells hvw hv hw hp hpartial hjoins
    have hkept : entry (kept pairs) v w = 0 := by
      refine entry_eq_zero hvw fun p hp hnames => ?_
      obtain ⟨hp, hpartial, -⟩ := mem_kept.mp hp
      exact hpair ⟨p, hp, hpartial, hnames⟩
    rw [hkept, hmoved, Sign.apply_zero]

end

/-- Nothing is moved onto a variable that is no root. -/
theorem entry_moved_of_not_root {groups : Groups} (htells : groups.Tells n (Pair.fulls pairs))
    {v w : ℕ} (hvw : v ≠ w) (hroots : ¬((groups.find v).1 = v ∧ (groups.find w).1 = w)) :
    entry (moved groups pairs) v w = 0 := by
  refine entry_moved_eq_zero htells hvw fun p _ _ hjoins => hroots ?_
  have hroot : ∀ x, (groups.find (groups.find x).1).1 = (groups.find x).1 := fun x => by
    rw [htells.find_root]
  rcases htells.joinsRoots_iff.mp hjoins with ⟨rfl, rfl⟩ | ⟨rfl, rfl⟩
  · exact ⟨hroot _, hroot _⟩
  · exact ⟨hroot _, hroot _⟩

/-! ## Exchanged variables

In each group the kept variable and the root change places. That is an exchange of indices with a
sign for each, which takes one matrix to the other; all variables that are neither have a one on
the diagonal of both, and nothing beside it. -/

section

variable {groups : Groups} (hvalid : Pair.Valid n pairs) (hunchained : Unchained pairs)
  (hfree : ∀ p ∈ pairs, p.isFull = false → ∀ v, p.names v = true → ¬Substituted pairs v)
  (htells : groups.Tells n (Pair.fulls pairs))
include hvalid hunchained hfree htells

/-- The matrices of the two maps are the same up to an exchange of variables and their signs. -/
theorem entry_exchanged (v w : ℕ) :
    entry (kept pairs) v w = (exchangedSign groups pairs v * exchangedSign groups pairs w).apply
      (entry (moved groups pairs) (exchanged groups pairs v) (exchanged groups pairs w)) := by
  have hrep := representatives hunchained htells
  by_cases hvw : v = w
  · subst hvw
    rw [entry_self, entry_self, Sign.mul_self]
    rfl
  by_cases hkept : (followed (direct pairs) v).1 = v ∧ (followed (direct pairs) w).1 = w
  · obtain ⟨hv, hw⟩ := hkept
    have hvsub := (followed_eq_self_iff hvalid hunchained).mp hv
    have hwsub := (followed_eq_self_iff hvalid hunchained).mp hw
    rw [entry_kept_eq hvalid hunchained hfree htells hvsub hwsub, exchangedSign, exchangedSign,
      if_pos hv, if_pos hw, exchanged, exchange_of_chosen hv, exchange_of_chosen hw]
  · -- One of the two variables is substituted, and no root takes its place.
    have hne : exchanged groups pairs v ≠ exchanged groups pairs w := by
      intro heq
      have hback := congrArg (exchanged groups pairs) heq
      rw [exchanged, hrep.exchange_exchange, hrep.exchange_exchange] at hback
      exact hvw hback
    have hmoved : entry (moved groups pairs) (exchanged groups pairs v)
        (exchanged groups pairs w) = 0 := by
      refine entry_moved_of_not_root htells hne ?_
      rintro ⟨hv, hw⟩
      exact hkept ⟨(hrep.chosen_exchange_iff v).mp hv, (hrep.chosen_exchange_iff w).mp hw⟩
    have hzero : entry (kept pairs) v w = 0 := by
      refine entry_eq_zero hvw fun p hp hnames => hkept ?_
      obtain ⟨-, -, hv, hw⟩ := (names_kept hvw hnames).mp hp
      rw [followed_direct_of_not hv, followed_direct_of_not hw]
      exact ⟨rfl, rfl⟩
    rw [hzero, hmoved, Sign.apply_zero]

/-- The matrix of the one map is positive definite just when that of the other is. -/
theorem posDef_kept_iff :
    (Cholesky.matrix (entry (kept pairs)) n).PosDef ↔
      (Cholesky.matrix (entry (moved groups pairs)) n).PosDef := by
  have hrep := representatives hunchained htells
  have hlt : ∀ v < n, exchanged groups pairs v < n := by
    intro v hv
    exact exchange_lt (followed_direct_lt hvalid hunchained hv) ((htells.le v).trans_lt hv) hv
  have htwice : ∀ v, exchanged groups pairs (exchanged groups pairs v) = v :=
    hrep.exchange_exchange
  -- The exchange is its own inverse, hence a permutation of the variables.
  let e : Fin n → Fin n := fun v => ⟨exchanged groups pairs v, hlt v v.isLt⟩
  have he : Function.Injective e := by
    intro v w heq
    have hback := congrArg (exchanged groups pairs) (congrArg Fin.val heq)
    exact Fin.ext (by rwa [htwice, htwice] at hback)
  have hentry := entry_exchanged hvalid hunchained hfree htells
  constructor
  · intro hpos
    have hback : ∀ v w : Fin n, entry (moved groups pairs) v w =
        (exchangedSign groups pairs (e v) * exchangedSign groups pairs (e w)).apply
          (entry (kept pairs) (e v) (e w)) := by
      intro v w
      rw [hentry (e v) (e w), htwice, htwice, Sign.apply_apply, Sign.mul_self]
      rfl
    exact posDef_of_signs hpos he hback
  · intro hpos
    exact posDef_of_signs hpos he fun v w => hentry v w

end

/-! ## Agreement -/

/-- The two maps of a list of pairs over `n` variables: both or none of them are made, with equally
many independent variables and the same correlations. -/
structure Agree (n : ℕ) (pairs : List (Pair ℝ)) : Prop where
  accepted : (∃ g, ofPairs n pairs = .ok g) ↔ ∃ g', ofChains n pairs = .ok g'
  dimension : ∀ g g', ofPairs n pairs = .ok g → ofChains n pairs = .ok g' →
    g.dimension = n ∧ g'.dimension = n
  independentCount : ∀ g g', ofPairs n pairs = .ok g → ofChains n pairs = .ok g' →
    g.independentCount = g'.independentCount
  covariance : ∀ g g', ofPairs n pairs = .ok g → ofChains n pairs = .ok g' →
    ∀ v w, v < n → w < n → g.covariance v w = g'.covariance v w

/-- The maps agree on a list without chains of which no partial pair names a substituted
variable. -/
theorem agree_of_unchained (hcheck : Pair.checkAll n [] pairs = .ok ())
    (hunchained : Unchained pairs)
    (hfree : ∀ p ∈ pairs, p.isFull = false → ∀ v, p.names v = true → ¬Substituted pairs v) :
    Agree n pairs := by
  have hvalid := Pair.valid_of_checkAll hcheck
  constructor
  · obtain ⟨groups, htells, hchains⟩ := exists_ofChains_iff hcheck (satisfies_followed hunchained)
    rw [ofPairs_of_unchained hcheck hunchained,
      exists_assemble_iff_posDef (compatible_direct hvalid hunchained), hchains,
      posDef_kept_iff hvalid hunchained hfree htells]
  · intro g g' hg hg'
    obtain ⟨-, -, -, -, rows, hfollows⟩ := follows_of_ofPairs hg
    obtain ⟨-, groups, -, -, rows', hfollows'⟩ := follows_of_ofChains hg'
    exact ⟨hfollows.dimension, hfollows'.dimension⟩
  · intro g g' hg hg'
    obtain ⟨-, -, hsubstitutions, -, rows, hfollows⟩ := follows_of_ofPairs hg
    obtain ⟨-, groups, htells, hsubstitutions', rows', hfollows'⟩ := follows_of_ofChains hg'
    have hcard := (representatives hunchained htells).card_eq
      (fun v hv => followed_direct_lt hvalid hunchained hv) (fun v hv => (htells.le v).trans_lt hv)
    rw [independentCount, independentCount, hfollows.dimension, hfollows'.dimension,
      hsubstitutions, hsubstitutions', length_direct hvalid hunchained, length_grouped, hcard]
  · intro g g' hg hg' v w hv hw
    obtain ⟨-, -, hsubstitutions, -, rows, hfollows⟩ := follows_of_ofPairs hg
    obtain ⟨-, groups, htells, hsubstitutions', rows', hfollows'⟩ := follows_of_ofChains hg'
    have hlt : ∀ x < n, (followed g.substitutions x).1 < n := by
      rw [hsubstitutions]
      exact fun x hx => followed_direct_lt hvalid hunchained hx
    -- The root of a variable is that of the variable that it follows in the direct map.
    have hfind : ∀ x, (groups.find x).1 = (groups.find (followed (direct pairs) x).1).1 ∧
        (groups.find x).2 = (followed (direct pairs) x).2 *
          (groups.find (followed (direct pairs) x).1).2 :=
      fun x => htells.find_of_linked (linked_followed hunchained x)
    rw [hfollows.covariance_eq hv hw (hlt v hv) (hlt w hw), hsubstitutions,
      covariance_of_grouped htells hsubstitutions' hfollows' hv hw, (hfind v).1, (hfind v).2,
      (hfind w).1, (hfind w).2, entry_kept_eq hvalid hunchained hfree htells
        (not_substituted_followed hunchained v) (not_substituted_followed hunchained w),
      Sign.apply_apply, Sign.mul_mul_mul_comm]

/-- Where no partial pair names a substituted variable the two maps agree, in particular where there
are no full pairs. -/
theorem maps_agree_without_chains (hcheck : Pair.checkAll n [] pairs = .ok ()) :
    ((∀ d, ofPairs n pairs ≠ .error (.invalid (.fullChain d))) →
      (∀ p ∈ pairs, p.isFull = false → ∀ v, p.names v = true → ¬Substituted pairs v) →
      Agree n pairs) ∧
    ((∀ p ∈ pairs, p.isFull = false) → Agree n pairs) := by
  constructor
  · intro hchain hfree
    exact agree_of_unchained hcheck (ofPairs_of_checkAll hcheck hchain).1 hfree
  · intro hpartial
    refine agree_of_unchained hcheck (unchained_of_partials hpartial) ?_
    rintro p hp - v - ⟨q, hq, hfull, -⟩
    rw [hpartial q hq] at hfull
    cases hfull

end

/-- The first variable copies the last one, which has a correlation with the second. -/
noncomputable def mirrored (ρ : ℝ) : List (Pair ℝ) := [⟨2, 0, -1⟩, ⟨2, 1, ρ⟩]

section

variable {ρ : ℝ} (hρ : |ρ| < 1 - (10 ^ 10)⁻¹)
include hρ

theorem isFull_mirrored : (⟨2, 1, ρ⟩ : Pair ℝ).isFull = false := Pair.isFull_eq_false_iff.mpr hρ

theorem fulls_mirrored : Pair.fulls (mirrored ρ) = [⟨2, 0, -1⟩] := by
  have hfirst : (⟨2, 0, -1⟩ : Pair ℝ).isFull = true := Pair.isFull_of_abs_eq_one (by simp)
  simp [Pair.fulls, mirrored, hfirst, isFull_mirrored hρ]

theorem partials_mirrored : Pair.partials (mirrored ρ) = [⟨2, 1, ρ⟩] := by
  have hfirst : (⟨2, 0, -1⟩ : Pair ℝ).isFull = true := Pair.isFull_of_abs_eq_one (by simp)
  simp [Pair.partials, mirrored, hfirst, isFull_mirrored hρ]

theorem checkAll_mirrored : Pair.checkAll 3 [] (mirrored ρ) = .ok () := by
  refine Pair.checkAll_of_valid ⟨?_, ?_, ?_⟩ ?_
  · simp [mirrored]
  · simp [mirrored]
  · simp [mirrored, Pair.key]
  · simpa [mirrored] using Pair.abs_le_one_of_partial (isFull_mirrored hρ)

theorem eq_of_full_mirrored : ∀ p ∈ mirrored ρ, p.isFull = true → p = ⟨2, 0, -1⟩ := by
  intro p hp hfull
  have hmem := Pair.mem_fulls.mpr ⟨hp, hfull⟩
  rw [fulls_mirrored hρ] at hmem
  exact List.mem_singleton.mp hmem

theorem substituted_mirrored {v : ℕ} (h : Substituted (mirrored ρ) v) : v = 0 := by
  obtain ⟨p, hp, hfull, rfl⟩ := h
  rw [eq_of_full_mirrored hρ p hp hfull]

theorem unchained_mirrored : Unchained (mirrored ρ) := by
  constructor
  · intro p hp hfull hsub
    rw [eq_of_full_mirrored hρ p hp hfull] at hsub
    exact absurd (substituted_mirrored hρ hsub) (by decide)
  · intro p hp hfull q hq hqfull _
    rw [eq_of_full_mirrored hρ p hp hfull, eq_of_full_mirrored hρ q hq hqfull]

theorem free_mirrored : ∀ p ∈ mirrored ρ, p.isFull = false → ∀ v, p.names v = true →
    ¬Substituted (mirrored ρ) v := by
  intro p hp hpartial v hname hsub
  have hmem := Pair.mem_partials.mpr ⟨hp, hpartial⟩
  rw [partials_mirrored hρ] at hmem
  rw [List.mem_singleton.mp hmem, substituted_mirrored hρ hsub] at hname
  simp [Pair.names] at hname

theorem exists_ofPairs_mirrored : ∃ g, ofPairs 3 (mirrored ρ) = .ok g := by
  have hunchained := unchained_mirrored hρ
  have hcompatible :=
    compatible_direct (Pair.valid_of_checkAll (checkAll_mirrored hρ)) hunchained
  rw [ofPairs_of_unchained (checkAll_mirrored hρ) hunchained,
    exists_assemble_iff_posDef hcompatible, kept_eq_partials (free_mirrored hρ),
    partials_mirrored hρ]
  exact posDef_entry_singleton (by simp) (by simp) (by simp) (hρ.trans (by norm_num))

end

/-- The direct map keeps the last variable of the group and the robust one the first. -/
theorem maps_agree_without_chains_mirrored : ∃ g g', ofPairs 3 (mirrored 2⁻¹) = .ok g ∧
    ofChains 3 (mirrored 2⁻¹) = .ok g' ∧ g.independentCount = g'.independentCount ∧
    g.covariance 0 1 = g'.covariance 0 1 ∧ Agree 2 [⟨0, 1, 2⁻¹⟩] := by
  have hρ : |(2⁻¹ : ℝ)| < 1 - (10 ^ 10)⁻¹ := by
    norm_num [abs_of_nonneg]
  have hcheck := checkAll_mirrored hρ
  have hchain := ne_fullChain_of_unchained hcheck (unchained_mirrored hρ)
  have hagree := (maps_agree_without_chains hcheck).1 hchain (free_mirrored hρ)
  have hpartial : ∀ p ∈ ([⟨0, 1, 2⁻¹⟩] : List (Pair ℝ)), p.isFull = false := by
    intro p hp
    rw [List.mem_singleton.mp hp]
    exact Pair.isFull_eq_false_iff.mpr hρ
  have hcheck' : Pair.checkAll 2 [] ([⟨0, 1, 2⁻¹⟩] : List (Pair ℝ)) = .ok () := by
    refine Pair.checkAll_of_valid ⟨?_, ?_, ?_⟩ fun p hp => ?_
    · simp
    · simp
    · simp
    · exact Pair.abs_le_one_of_partial (hpartial p hp)
  obtain ⟨g, hg⟩ := exists_ofPairs_mirrored hρ
  obtain ⟨g', hg'⟩ := hagree.accepted.mp ⟨g, hg⟩
  exact ⟨g, g', hg, hg', hagree.independentCount g g' hg hg',
    hagree.covariance g g' hg hg' 0 1 (by decide) (by decide),
    (maps_agree_without_chains hcheck').2 hpartial⟩

end Gaussian

end FailureProbability.Correlation
