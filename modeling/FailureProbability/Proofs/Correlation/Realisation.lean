import FailureProbability.Proofs.Correlation.Direct

/-!
# What the direct map realises

On exact numbers the direct map makes variables with the correlations that were asked for
(`Realises`). A list of pairs that is in order otherwise is refused if and only if the matrix of its
partial correlations is not positive definite (`IsReduced`).

`Realises` speaks of the rows of a map and of their inner products, which are the covariances of the
variables that the map makes of independent ones of unit variance; nothing of probability is needed
for it, and none is assumed. The matrix of `IsReduced` is described by its entries and not by the
code that fills it in. There is one such matrix (`IsReduced.eq`), so that the theorem on refused
lists is about the list alone.

A partial correlation with a substituted variable is dropped, and `Realises` promises nothing of it:
what the two variables have in the end is what their sources have. The tolerance within which a
coefficient counts as full shows only in which pairs are partial. A full pair makes an exact copy,
also where its coefficient is not quite one.
-/

namespace FailureProbability.Correlation

open Finset Matrix

variable [SpecialFunctions]

/-! ## Exact coefficients

The tolerance is written as a decimal and used as a number. On exact numbers a pair is full when
its coefficient is within ten to the power of minus ten of one in size. -/

namespace Pair

/-- The literal is a power of ten, exactly so on exact numbers. -/
theorem tolerance_eq : (tolerance : ℝ) = (10 ^ 10)⁻¹ := by
  have hscientific : (tolerance : ℝ) = OfScientific.ofScientific 1 true 10 := rfl
  rw [hscientific]
  norm_num

theorem isFull_iff {p : Pair ℝ} : p.isFull = true ↔ 1 - (10 ^ 10)⁻¹ ≤ |p.rho| := by
  unfold isFull
  rw [decide_eq_true_iff, Scalar.one_eq, tolerance_eq]
  rfl

theorem isFull_eq_false_iff {p : Pair ℝ} : p.isFull = false ↔ |p.rho| < 1 - (10 ^ 10)⁻¹ := by
  rw [← Bool.not_eq_true, isFull_iff, not_le]

theorem isFull_of_abs_eq_one {p : Pair ℝ} (h : |p.rho| = 1) : p.isFull = true := by
  rw [isFull_iff, h]
  norm_num

theorem abs_le_one_of_partial {p : Pair ℝ} (h : p.isFull = false) : |p.rho| ≤ 1 := by
  have htolerance : (0 : ℝ) ≤ (10 ^ 10)⁻¹ := by norm_num
  have hlt := isFull_eq_false_iff.mp h
  linarith

theorem check_of_abs_le_one {n : ℕ} {earlier : List (ℕ × ℕ)} {p : Pair ℝ}
    (hinside : p.i < n ∧ p.j < n) (hdistinct : p.i ≠ p.j) (hrho : |p.rho| ≤ 1)
    (hnew : p.key ∉ earlier) : p.check n earlier = .ok () := by
  unfold check
  rw [if_neg (by omega), if_neg hdistinct, if_neg, if_neg (by simpa using hnew)]
  rintro (hfinite | hlarge)
  · cases hfinite
  · rw [Scalar.one_eq, tolerance_eq] at hlarge
    have hlarge : 1 + (10 ^ 10)⁻¹ < |p.rho| := hlarge
    norm_num at hlarge
    linarith

/-- A valid list of coefficients that are at most one in size is accepted. -/
theorem checkAll_of_valid {n : ℕ} {pairs : List (Pair ℝ)} (h : Valid n pairs)
    (hrho : ∀ p ∈ pairs, |p.rho| ≤ 1) : checkAll n [] pairs = .ok () := by
  suffices hall : ∀ earlier : List (ℕ × ℕ), (∀ p ∈ pairs, p.key ∉ earlier) →
      checkAll n earlier pairs = .ok () from hall [] (by simp)
  induction pairs with
  | nil => exact fun _ _ => rfl
  | cons p pairs ih =>
    intro earlier hearlier
    have hkeys := List.nodup_cons.mp h.nodup
    have hcheck := check_of_abs_le_one (h.inside p (by simp)) (h.distinct p (by simp))
      (hrho p (by simp)) (hearlier p (by simp))
    rw [checkAll, hcheck]
    refine ih (h.sublist (List.sublist_cons_self ..)) (fun q hq => hrho q (by simp [hq])) _ ?_
    intro q hq hmem
    rcases List.mem_cons.mp hmem with hkey | hmem
    · exact hkeys.1 (List.mem_map.mpr ⟨q, hq, hkey⟩)
    · exact hearlier q (by simp [hq]) hmem

end Pair

/-- The correlation of a pair is the entry that names both of its variables. -/
theorem Gaussian.entry_of_mem {n : ℕ} {partials : List (Pair ℝ)}
    (h : Pair.Valid n partials) {p : Pair ℝ} (hp : p ∈ partials) {v w : ℕ} (hvw : v ≠ w)
    (hnames : (p.names v && p.names w) = true) : entry partials v w = p.rho := by
  cases hfind : partials.find? fun q => q.names v && q.names w with
  | none => exact absurd hnames (List.find?_eq_none.mp hfind p hp)
  | some q =>
    have hkey := (Pair.names_both_iff_key hvw).mp hnames
    have hnames' : (q.names v && q.names w) = true := by
      exact List.find?_some (p := fun q => Pair.names q v && Pair.names q w) hfind
    have hkey' := (Pair.names_both_iff_key hvw).mp hnames'
    rw [h.eq_of_key_eq hp (List.mem_of_find?_eq_some hfind) (hkey.trans hkey'.symm)]
    exact entry_of_find? hvw hfind

/-! ## One correlation -/

omit [SpecialFunctions] in
/-- The form of one correlation lies between those of a full one and of its negative. -/
theorem posDef_one_add_single {n : ℕ} {a b : Fin n} (hab : a ≠ b) {ρ : ℝ} (hρ : |ρ| < 1) :
    (1 + single a b ρ + single b a ρ).PosDef := by
  have hform : ∀ x : Fin n → ℝ,
      x ⬝ᵥ ((1 + single a b ρ + single b a ρ) *ᵥ x) =
        x ⬝ᵥ x + 2 * ρ * (x a * x b) := by
    intro x
    have hupdate : ∀ (c : Fin n) (y : ℝ), x ⬝ᵥ Function.update 0 c y = x c * y :=
      fun c y => dotProduct_single x y c
    rw [add_mulVec, add_mulVec, one_mulVec, dotProduct_add, dotProduct_add,
      single_mulVec, single_mulVec, hupdate, hupdate]
    ring
  refine .of_dotProduct_mulVec_pos ?_ fun x hx => ?_
  · rw [IsHermitian, conjTranspose_add, conjTranspose_add,
      conjTranspose_one, conjTranspose_single, conjTranspose_single,
      star_trivial, add_right_comm]
  · have hpos : 0 < x ⬝ᵥ x := by
      have hstar := dotProduct_star_self_pos_iff.mpr hx
      rwa [star_trivial] at hstar
    have hpair : x a * x a + x b * x b ≤ x ⬝ᵥ x :=
      add_le_sum (f := fun v => x v * x v) (fun v _ => mul_self_nonneg (x v)) (mem_univ a)
        (mem_univ b) hab
    have hplus : 0 ≤ x ⬝ᵥ x + 2 * (x a * x b) := by
      nlinarith [mul_self_nonneg (x a + x b)]
    have hminus : 0 ≤ x ⬝ᵥ x - 2 * (x a * x b) := by
      nlinarith [mul_self_nonneg (x a - x b)]
    rw [star_trivial, hform]
    -- The form is linear in `ρ`, and not negative at one and at minus one.
    rcases abs_cases ρ with ⟨habs, hsign⟩ | ⟨habs, hsign⟩
    · have hrest : 0 < (1 - ρ) * (x ⬝ᵥ x) := mul_pos (by linarith) hpos
      have hwhole := mul_nonneg hsign hplus
      linarith
    · have hrest : 0 < (1 + ρ) * (x ⬝ᵥ x) := mul_pos (by linarith) hpos
      have hwhole := mul_nonneg (neg_pos.mpr hsign).le hminus
      linarith

namespace Gaussian

theorem entry_singleton {p : Pair ℝ} {v w : ℕ} (hvw : v ≠ w) :
    entry [p] v w = if (p.names v && p.names w) = true then p.rho else 0 := by
  by_cases hnames : (p.names v && p.names w) = true
  · rw [if_pos hnames]
    refine entry_of_find? hvw ?_
    exact List.find?_cons_of_pos (p := fun q => Pair.names q v && Pair.names q w) hnames
  · rw [if_neg hnames]
    refine entry_eq_zero hvw fun q hq => ?_
    rwa [List.mem_singleton.mp hq]

/-- The matrix of a single pair is the unit matrix with one coefficient on both sides. -/
theorem matrix_entry_singleton {n : ℕ} {p : Pair ℝ} (hi : p.i < n) (hj : p.j < n)
    (hdistinct : p.i ≠ p.j) : Cholesky.matrix (entry [p]) n =
      1 + single ⟨p.i, hi⟩ ⟨p.j, hj⟩ p.rho + single ⟨p.j, hj⟩ ⟨p.i, hi⟩ p.rho := by
  ext v w
  have hmatrix : Cholesky.matrix (entry [p]) n v w = entry [p] v w := rfl
  rw [hmatrix, Matrix.add_apply, Matrix.add_apply, single_apply, single_apply]
  simp only [Fin.ext_iff]
  by_cases hvw : v = w
  · subst hvw
    rw [if_neg (by omega), if_neg (by omega), one_apply_eq, add_zero, add_zero]
    exact entry_self ..
  · have hne : (v : ℕ) ≠ w := fun heq => hvw (Fin.ext heq)
    have hnames := Pair.names_both_iff (p := p) hne
    rw [entry_singleton hne, one_apply_ne hvw, zero_add]
    by_cases hforward : p.i = v ∧ p.j = w
    · rw [if_pos (hnames.mpr (.inl hforward)), if_pos hforward, if_neg (by omega), add_zero]
    · rw [if_neg hforward, zero_add]
      by_cases hbackward : p.j = v ∧ p.i = w
      · rw [if_pos (hnames.mpr (.inr hbackward.symm)), if_pos hbackward]
      · rw [if_neg (fun h => (hnames.mp h).elim hforward fun h => hbackward h.symm),
          if_neg hbackward]

/-- A single partial correlation of size below one is accepted. -/
theorem posDef_entry_singleton {n : ℕ} {p : Pair ℝ} (hi : p.i < n) (hj : p.j < n)
    (hdistinct : p.i ≠ p.j) (hrho : |p.rho| < 1) :
    (Cholesky.matrix (entry [p]) n).PosDef := by
  rw [matrix_entry_singleton hi hj hdistinct]
  exact posDef_one_add_single (fun heq => hdistinct (congrArg Fin.val heq)) hrho

end Gaussian

/-! ## The reduced matrix

The matrix is described by what it says of two variables, and not by how it is filled in. There is
only one such matrix for a list of pairs, so that a statement on it is one on the list. -/

/-- The matrix of the partial correlations of a list, where a variable that is substituted has none:
the coefficients of the pairs off a diagonal of ones. -/
structure IsReduced {n : ℕ} (pairs : List (Pair ℝ)) (R : Matrix (Fin n) (Fin n) ℝ) : Prop where
  diagonal : ∀ v, R v v = 1
  correlated : ∀ v w : Fin n, v ≠ w → ¬Substituted pairs v → ¬Substituted pairs w →
    ∀ p ∈ pairs, p.isFull = false → (p.names v && p.names w) = true → R v w = p.rho
  uncorrelated : ∀ v w : Fin n, v ≠ w →
    (∀ p ∈ pairs, p.isFull = false → (p.names v && p.names w) = true →
      Substituted pairs v ∨ Substituted pairs w) → R v w = 0

namespace Gaussian

/-- Of two variables that differ, a pair is kept if it is partial and none of the two is
substituted. -/
theorem names_kept {pairs : List (Pair ℝ)} {p : Pair ℝ} {v w : ℕ} (hvw : v ≠ w)
    (hnames : (p.names v && p.names w) = true) :
    p ∈ kept pairs ↔
      p ∈ pairs ∧ p.isFull = false ∧ ¬Substituted pairs v ∧ ¬Substituted pairs w := by
  rw [mem_kept]
  refine and_congr_right fun _ => and_congr_right fun _ => ?_
  have hboth := (Pair.names_both_iff hvw).mp hnames
  have hnames' := Bool.and_eq_true_iff.mp hnames
  constructor
  · exact fun h => ⟨h v hnames'.1, h w hnames'.2⟩
  · rintro ⟨hv, hw⟩ x hx
    have hx' := Pair.names_iff.mp hx
    have hcases : x = v ∨ x = w := by omega
    rcases hcases with rfl | rfl
    · exact hv
    · exact hw

/-- The pairs that are kept fill in the reduced matrix. -/
theorem isReduced_kept {n : ℕ} {pairs : List (Pair ℝ)} (h : Pair.Valid n pairs) :
    IsReduced pairs (Cholesky.matrix (entry (kept pairs)) n) := by
  constructor
  · intro v
    exact entry_self ..
  · intro v w hvw hv hw p hp hpartial hnames
    have hne : (v : ℕ) ≠ w := fun heq => hvw (Fin.ext heq)
    have hkept : p ∈ kept pairs := (names_kept hne hnames).mpr ⟨hp, hpartial, hv, hw⟩
    exact entry_of_mem (valid_kept h) hkept hne hnames
  · intro v w hvw hnone
    have hne : (v : ℕ) ≠ w := fun heq => hvw (Fin.ext heq)
    refine entry_eq_zero hne fun p hp hnames => ?_
    obtain ⟨hp, hpartial, hv, hw⟩ := (names_kept hne hnames).mp hp
    rcases hnone p hp hpartial hnames with hsub | hsub
    · exact hv hsub
    · exact hw hsub

end Gaussian

/-- There is one such matrix. -/
theorem IsReduced.eq {n : ℕ} {pairs : List (Pair ℝ)} {R R' : Matrix (Fin n) (Fin n) ℝ}
    (h : IsReduced pairs R) (h' : IsReduced pairs R') : R = R' := by
  ext v w
  by_cases hvw : v = w
  · subst hvw
    rw [h.diagonal, h'.diagonal]
  by_cases hpair : ∃ p ∈ pairs, p.isFull = false ∧ (p.names v && p.names w) = true ∧
      ¬Substituted pairs v ∧ ¬Substituted pairs w
  · obtain ⟨p, hp, hpartial, hnames, hv, hw⟩ := hpair
    rw [h.correlated v w hvw hv hw p hp hpartial hnames,
      h'.correlated v w hvw hv hw p hp hpartial hnames]
  · have hnone : ∀ p ∈ pairs, p.isFull = false → (p.names v && p.names w) = true →
        Substituted pairs v ∨ Substituted pairs w := by
      intro p hp hpartial hnames
      by_contra hneither
      exact hpair ⟨p, hp, hpartial, hnames, not_or.mp hneither⟩
    rw [h.uncorrelated v w hvw hnone, h'.uncorrelated v w hvw hnone]

/-! ## Correlations

The rows of the map are those of the factor, and a dependent variable has that of its source with a
sign. Their inner products are the entries of the matrix that was factored, up to the signs. -/

namespace Gaussian

/-- What a map makes of the pairs of a list over `n` variables. -/
structure Realises (g : Gaussian ℝ) (n : ℕ) (pairs : List (Pair ℝ)) : Prop where
  substituted : ∀ v, g.isFullyCorrelated v = true ↔ Substituted pairs v
  variance : ∀ v < n, g.covariance v v = 1
  /-- The second variable of a full pair is the first one with the sign of the coefficient. -/
  copy : ∀ p ∈ pairs, p.isFull = true → ∀ k,
    g.coefficient p.j k = p.sign.apply (g.coefficient p.i k)
  correlation : ∀ p ∈ pairs, p.isFull = false → ¬Substituted pairs p.i → ¬Substituted pairs p.j →
    g.covariance p.i p.j = p.rho
  uncorrelated : ∀ v w, v < n → w < n → v ≠ w → ¬Substituted pairs v → ¬Substituted pairs w →
    (∀ p ∈ pairs, ¬(p.names v && p.names w) = true) → g.covariance v w = 0
  /-- No variable depends on the coordinate of a substituted one. -/
  column : ∀ d, Substituted pairs d → ∀ v, g.coefficient v d = 0

theorem coefficient_of_le {g : Gaussian ℝ} {v : ℕ} (h : g.dimension ≤ v) (k : ℕ) :
    g.coefficient v k = 0 := by
  have hnone : g.rows.getD v [] = [] := List.getD_eq_default _ _ h
  rw [coefficient, hnone]
  exact Scalar.zero_eq

variable {n : ℕ} {pairs : List (Pair ℝ)} {g : Gaussian ℝ}

/-- The direct map follows a factor of the partial pairs that it keeps. -/
theorem follows_of_ofPairs (h : ofPairs n pairs = .ok g) :
    Pair.Valid n pairs ∧ Unchained pairs ∧ g.substitutions = direct pairs ∧ g.pairs = pairs ∧
      ∃ rows, g.Follows n (kept pairs) rows := by
  obtain ⟨hvalid, hunchained, hassemble⟩ := ofPairs_eq_ok h
  have hcompatible := compatible_direct hvalid hunchained
  obtain ⟨hsubstitutions, hpairs, hrows⟩ := follows_of_assemble hcompatible hassemble
  exact ⟨hvalid, hunchained, hsubstitutions, hpairs, hrows⟩

/-- The correlation of two variables that are kept is the entry of their pair. -/
theorem covariance_of_not_substituted (h : ofPairs n pairs = .ok g) {v w : ℕ} (hv : v < n)
    (hw : w < n) (hvsub : ¬Substituted pairs v) (hwsub : ¬Substituted pairs w) :
    g.covariance v w = entry (kept pairs) v w := by
  obtain ⟨-, -, hsubstitutions, -, rows, hfollows⟩ := follows_of_ofPairs h
  have hself : ∀ x, ¬Substituted pairs x → followed g.substitutions x = (x, .plus) := by
    rw [hsubstitutions]
    exact fun x hx => followed_direct_of_not hx
  rw [hfollows.covariance_eq hv hw (by rwa [hself v hvsub]) (by rwa [hself w hwsub]),
    hself v hvsub, hself w hwsub]
  rfl

/-- The second variable of a full pair is made like the first one, up to the sign. -/
theorem coefficient_of_full (h : ofPairs n pairs = .ok g) {p : Pair ℝ} (hp : p ∈ pairs)
    (hfull : p.isFull = true) (k : ℕ) :
    g.coefficient p.j k = p.sign.apply (g.coefficient p.i k) := by
  obtain ⟨hvalid, hunchained, hsubstitutions, -, rows, hfollows⟩ := follows_of_ofPairs h
  obtain ⟨hi, hj⟩ := hvalid.inside p hp
  rw [hfollows.coefficient p.j hj, hfollows.coefficient p.i hi, hsubstitutions,
    followed_direct_of_full hunchained hp hfull,
    followed_direct_of_not (hunchained.source p hp hfull)]
  rfl

/-- A substituted variable has a coordinate of its own, on which nothing depends. -/
theorem coefficient_of_substituted (h : ofPairs n pairs = .ok g) {d : ℕ} (hd : Substituted pairs d)
    (v : ℕ) : g.coefficient v d = 0 := by
  obtain ⟨hvalid, hunchained, hsubstitutions, -, rows, hfollows⟩ := follows_of_ofPairs h
  by_cases hv : v < n
  · have hdn : d < n := by
      obtain ⟨p, hp, -, rfl⟩ := hd
      exact (hvalid.inside p hp).2
    refine hfollows.coefficient_eq_zero hv hdn (fun p hp => ?_) fun heq => ?_
    · cases hname : p.names d with
      | false => rfl
      | true => exact absurd hd ((mem_kept.mp hp).2.2 d hname)
    · rw [hsubstitutions] at heq
      exact not_substituted_followed hunchained v (heq ▸ hd)
  · exact coefficient_of_le (by rw [hfollows.dimension]; omega) d

/-- A map that was made of a list realises the correlations of the list. -/
theorem realises_of_ofPairs (h : ofPairs n pairs = .ok g) : g.Realises n pairs := by
  obtain ⟨hvalid, hunchained, hsubstitutions, hpairs, rows, hfollows⟩ := follows_of_ofPairs h
  constructor
  · intro v
    rw [isFullyCorrelated, hsubstitutions, List.any_eq_true, substituted_iff]
    simp
  · intro v hv
    have hlt : (followed g.substitutions v).1 < n := by
      rw [hsubstitutions]
      exact followed_direct_lt hvalid hunchained hv
    rw [hfollows.covariance_eq hv hv hlt hlt, Sign.mul_self, entry_self]
    rfl
  · exact fun p hp hfull k => coefficient_of_full h hp hfull k
  · intro p hp hpartial hi hj
    have hnames : (p.names p.i && p.names p.j) = true := by simp [Pair.names]
    have hne := hvalid.distinct p hp
    rw [covariance_of_not_substituted h (hvalid.inside p hp).1 (hvalid.inside p hp).2 hi hj]
    exact entry_of_mem (valid_kept hvalid) ((names_kept hne hnames).mpr ⟨hp, hpartial, hi, hj⟩) hne
      hnames
  · intro v w hv hw hvw hvsub hwsub hnone
    rw [covariance_of_not_substituted h hv hw hvsub hwsub]
    exact entry_eq_zero hvw fun p hp => hnone p (mem_kept.mp hp).1
  · exact fun d hd v => coefficient_of_substituted h hd v

/-- A list that is refused for no other reason is refused if and only if its reduced matrix is not
positive definite. -/
theorem ofPairs_eq_breakdown_iff (hcheck : Pair.checkAll n [] pairs = .ok ())
    (hchain : ∀ d, ofPairs n pairs ≠ .error (.invalid (.fullChain d)))
    {R : Matrix (Fin n) (Fin n) ℝ} (hR : IsReduced pairs R) :
    ofPairs n pairs = .error (.breakdown .indefiniteCorrelation) ↔ ¬R.PosDef := by
  obtain ⟨hunchained, hassemble⟩ := ofPairs_of_checkAll hcheck hchain
  have hvalid := Pair.valid_of_checkAll hcheck
  rw [hassemble, assemble_eq_breakdown_iff (compatible_direct hvalid hunchained),
    hR.eq (isReduced_kept hvalid)]

theorem exists_ofPairs_iff (hcheck : Pair.checkAll n [] pairs = .ok ())
    (hchain : ∀ d, ofPairs n pairs ≠ .error (.invalid (.fullChain d)))
    {R : Matrix (Fin n) (Fin n) ℝ} (hR : IsReduced pairs R) :
    (∃ g, ofPairs n pairs = .ok g) ↔ R.PosDef := by
  obtain ⟨hunchained, hassemble⟩ := ofPairs_of_checkAll hcheck hchain
  have hvalid := Pair.valid_of_checkAll hcheck
  rw [hassemble, exists_assemble_iff_posDef (compatible_direct hvalid hunchained),
    hR.eq (isReduced_kept hvalid)]

end Gaussian

end FailureProbability.Correlation
