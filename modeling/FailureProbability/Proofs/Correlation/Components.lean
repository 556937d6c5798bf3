import Mathlib
import FailureProbability.Proofs.Correlation.Representatives
import FailureProbability.Scalar.Double

/-!
# Components of the full pairs

The full pairs of a list are the edges of a graph over the variables, and the groups of copies are
its connected components. Chains of full pairs are refused only where no signs satisfy them, and
then the first pair is named with which they contradict each other. Otherwise every variable that is
not the lowest of its component follows that one, with the sign that all satisfying signs agree on,
so that as many variables keep a coordinate of their own as there are components.

Whether signs satisfy some pairs is a question about the pairs alone (`Satisfies`): nothing in it
speaks of roots, or of the order in which the pairs were recorded. The lowest variable of a
component is one of a graph of Mathlib, and it is found by the same roots in the end.

Arithmetic is arbitrary, as only the signs of coefficients are looked at and whether they are full.
Whether the matrix of the moved partial pairs is positive definite is left out; it is the one other
reason for which a valid list can be refused.
-/

namespace FailureProbability.Correlation

variable {α : Type} [Scalar α]

/-! ## Contradictions -/

/-- The first pair of a list that cannot be satisfied together with those before it. -/
def FirstContradiction (full : List (Pair α)) (p : Pair α) : Prop :=
  ∃ before after, full = before ++ p :: after ∧ (∃ σ, Satisfies σ before) ∧
    ¬∃ σ, Satisfies σ (before ++ [p])

theorem FirstContradiction.not_satisfies {full : List (Pair α)} {p : Pair α}
    (h : FirstContradiction full p) : ¬∃ σ, Satisfies σ full := by
  obtain ⟨before, after, rfl, -, hnone⟩ := h
  rintro ⟨σ, hσ⟩
  refine hnone ⟨σ, fun q hq => hσ q ?_⟩
  rw [← List.singleton_append, ← List.append_assoc]
  exact List.mem_append_left _ hq

namespace Groups

omit [Scalar α] in
theorem eq_of_union_eq_error {g : Groups} {x y : Nat} {s : Sign} {e : Error α}
    (h : g.union x y s = .error e) : e = .invalid (.contradictingSigns x y) := by
  unfold union at h
  dsimp only at h
  split at h
  · split at h
    · cases h
    · cases h
      rfl
  · cases h

theorem Tells.satisfies {g : Groups} {n : Nat} {full : List (Pair α)} (h : g.Tells n full) :
    Satisfies (fun v => (g.find v).2) full :=
  fun p hp => (h.joined p hp).2

/-- Groups that tell the links of some pairs refuse the first of the others that contradicts
them. -/
theorem contradiction_of_foldlM {n : Nat} {full rest : List (Pair α)} {g : Groups} {e : Error α}
    (hg : g.Tells n full) (hinside : ∀ p ∈ rest, p.i < n ∧ p.j < n)
    (h : rest.foldlM (fun g p => g.union p.j p.i p.sign) g = .error e) :
    ∃ before p after, rest = before ++ p :: after ∧
      e = .invalid (.contradictingSigns p.j p.i) ∧ (∃ σ, Satisfies σ (full ++ before)) ∧
      ¬∃ σ, Satisfies σ (full ++ before ++ [p]) := by
  induction rest generalizing full g with
  | nil => cases h
  | cons p rest ih =>
    obtain ⟨⟨hi, hj⟩, hinside⟩ := List.forall_mem_cons.mp hinside
    rw [List.foldlM_cons] at h
    cases hunion : (g.union p.j p.i p.sign : Except (Error α) Groups) with
    -- The first pair is the contradiction, or it joins those that tell before it.
    | error e' =>
      rw [hunion] at h
      cases h
      refine ⟨[], p, rest, rfl, eq_of_union_eq_error hunion, ?_, ?_⟩
      · rw [List.append_nil]
        exact ⟨_, hg.satisfies⟩
      · rintro ⟨σ, hσ⟩
        rw [List.append_nil] at hσ
        obtain ⟨g', hok⟩ := hg.exists_union hσ
        rw [hunion] at hok
        cases hok
    | ok g₁ =>
      rw [hunion] at h
      obtain ⟨before, q, after, rfl, rfl, hsome, hnone⟩ := ih (hg.union hi hj hunion) hinside h
      rw [List.append_assoc, List.singleton_append] at hsome
      rw [List.append_assoc full [p] before, List.singleton_append] at hnone
      exact ⟨p :: before, q, after, rfl, rfl, hsome, hnone⟩

/-- Groups are refused for a contradiction and for nothing else. -/
theorem contradiction_of_ofPairs {n : Nat} {full : List (Pair α)} {e : Error α}
    (hinside : ∀ p ∈ full, p.i < n ∧ p.j < n) (h : ofPairs n full = .error e) :
    ∃ p, FirstContradiction full p ∧ e = .invalid (.contradictingSigns p.j p.i) := by
  obtain ⟨before, p, after, hfull, he, hsome, hnone⟩ :=
    contradiction_of_foldlM (tells_singletons n) hinside h
  exact ⟨p, ⟨before, after, hfull, hsome, hnone⟩, he⟩

end Groups

/-! ## Components -/

/-- The graph whose edges are the pairs of a list. -/
def pairGraph (n : ℕ) (full : List (Pair α)) : SimpleGraph (Fin n) :=
  SimpleGraph.fromRel fun v w => ∃ p ∈ full, p.i = v ∧ p.j = w

section

variable {n : ℕ} {full : List (Pair α)}

omit [Scalar α] in
theorem reachable_of_mem {p : Pair α} (hp : p ∈ full) (hi : p.i < n) (hj : p.j < n) :
    (pairGraph n full).Reachable ⟨p.i, hi⟩ ⟨p.j, hj⟩ := by
  by_cases heq : p.i = p.j
  · rw [show (⟨p.i, hi⟩ : Fin n) = ⟨p.j, hj⟩ from Fin.ext heq]
  · refine SimpleGraph.Adj.reachable ((SimpleGraph.fromRel_adj _ _ _).mpr ⟨?_, .inl ⟨p, hp, rfl, rfl⟩⟩)
    exact fun hfin => heq (congrArg Fin.val hfin)

/-- A link is a path in the graph. -/
theorem reachable_of_linked (hinside : ∀ p ∈ full, p.i < n ∧ p.j < n) {v w : ℕ} {s : Sign}
    (h : Linked full v w s) (hv : v < n) :
    ∃ hw : w < n, (pairGraph n full).Reachable ⟨v, hv⟩ ⟨w, hw⟩ := by
  induction h with
  | refl => exact ⟨hv, .rfl⟩
  | @forward s p _ hp ih =>
    obtain ⟨hj, hreach⟩ := ih
    have hi := (hinside p hp).1
    exact ⟨hi, hreach.trans (reachable_of_mem hp hi hj).symm⟩
  | @backward s p _ hp ih =>
    obtain ⟨hi, hreach⟩ := ih
    have hj := (hinside p hp).2
    exact ⟨hj, hreach.trans (reachable_of_mem hp hi hj)⟩

/-- A path is a link, whose sign is the product of those on its way. -/
theorem linked_of_reachable {v w : Fin n} (h : (pairGraph n full).Reachable v w) :
    ∃ s, Linked full v w s := by
  rw [SimpleGraph.reachable_iff_reflTransGen] at h
  induction h with
  | refl => exact ⟨.plus, .refl _⟩
  | tail _ hadj ih =>
    obtain ⟨s, hs⟩ := ih
    obtain ⟨-, ⟨p, hp, hi, hj⟩ | ⟨p, hp, hi, hj⟩⟩ := (SimpleGraph.fromRel_adj _ _ _).mp hadj
    · rw [← hi] at hs
      rw [← hj]
      exact ⟨_, hs.backward hp⟩
    · rw [← hj] at hs
      rw [← hi]
      exact ⟨_, hs.forward hp⟩

namespace Groups.Tells

variable {g : Groups} (h : g.Tells n full)
include h

theorem root_lt (v : Fin n) : (g.find v).1 < n := (h.le v).trans_lt v.isLt

variable (hinside : ∀ p ∈ full, p.i < n ∧ p.j < n)
include hinside

/-- The root of a variable is the lowest of its component. -/
theorem isLeast_root (v : Fin n) :
    IsLeast {w | (pairGraph n full).Reachable v w} ⟨(g.find v).1, h.root_lt v⟩ := by
  constructor
  · obtain ⟨_, hreach⟩ := reachable_of_linked hinside (h.linked v) v.isLt
    exact hreach
  · intro w hw
    obtain ⟨s, hs⟩ := linked_of_reachable hw
    exact h.root_le hs

theorem reachable_iff (v w : Fin n) :
    (pairGraph n full).Reachable v w ↔ (g.find v).1 = (g.find w).1 := by
  constructor
  · intro hreach
    obtain ⟨s, hs⟩ := linked_of_reachable hreach
    exact (h.find_of_linked hs).1
  · intro hroot
    obtain ⟨_, hreach⟩ := reachable_of_linked hinside (h.linked_of_root_eq hroot) v.isLt
    exact hreach

/-- There is one root for every component. -/
theorem card_roots :
    (Finset.univ.filter fun v : Fin n => (g.find v).1 = v).card =
      Nat.card (pairGraph n full).ConnectedComponent := by
  rw [← Fintype.card_subtype, ← Nat.card_eq_fintype_card]
  refine Nat.card_eq_of_bijective
    (fun v : {v : Fin n // (g.find v).1 = v} => (pairGraph n full).connectedComponentMk v.1)
    ⟨fun v w hvw => ?_, fun c => ?_⟩
  · have hreach := (h.reachable_iff hinside _ _).mp (SimpleGraph.ConnectedComponent.exact hvw)
    rw [v.2, w.2] at hreach
    exact Subtype.ext (Fin.ext hreach)
  · induction c using SimpleGraph.ConnectedComponent.ind with
    | _ v =>
      refine ⟨⟨⟨(g.find v).1, h.root_lt v⟩, by rw [h.find_root]⟩, ?_⟩
      exact SimpleGraph.ConnectedComponent.sound (h.isLeast_root hinside v).1.symm

end Groups.Tells

end

namespace Gaussian

/-! ## Substitutions -/

/-- The sign of a variable is the one that all satisfying signs give it relative to its root. -/
theorem sign_eq_iff {g : Groups} {n : ℕ} {full : List (Pair α)} (h : g.Tells n full) (v : ℕ)
    (s : Sign) : (∀ σ, Satisfies σ full → s * σ (g.find v).1 = σ v) ↔ s = (g.find v).2 := by
  constructor
  · intro hall
    have hself : s * (g.find (g.find v).1).2 = (g.find v).2 := hall _ h.satisfies
    rw [h.find_root, Sign.mul_plus] at hself
    exact hself
  · rintro rfl σ hσ
    exact (hσ.eq_mul (h.linked v)).symm

/-- The members that follow their roots and the roots are all variables. -/
theorem length_grouped_add_card (groups : Groups) (n : ℕ) :
    (grouped groups n).length +
      (Finset.univ.filter fun v : Fin n => (groups.find v).1 = v).card = n := by
  have hroots : (Finset.univ.filter fun v : Fin n => (groups.find v).1 = v).card =
      ((Finset.range n).filter fun v => (groups.find v).1 = v).card := by
    rw [Finset.card_filter, Finset.card_filter, Finset.sum_range]
  rw [length_grouped, hroots, Nat.add_comm, Finset.card_filter_add_card_filter_not,
    Finset.card_range]

/-- A variable that follows the lowest one of its component, with the sign that it has under all
signs which satisfy the full pairs. -/
def FollowsLowest (n : ℕ) (full : List (Pair α)) (t : Substitution) : Prop :=
  ∃ v r : Fin n, t.dependent = v ∧ t.source = r ∧ r ≠ v ∧
    IsLeast {w | (pairGraph n full).Reachable v w} r ∧
    ∀ σ, Satisfies σ full → t.sign * σ r = σ v

/-- The substitutions are the triples of a variable, the lowest of its component and the sign
between them, for all variables that are not the lowest. -/
theorem mem_grouped_iff {groups : Groups} {n : ℕ} {full : List (Pair α)} (h : groups.Tells n full)
    (hinside : ∀ p ∈ full, p.i < n ∧ p.j < n) (t : Substitution) :
    t ∈ grouped groups n ↔ FollowsLowest n full t := by
  rw [mem_grouped]
  constructor
  · rintro ⟨v, hv, hroot, rfl⟩
    refine ⟨⟨v, hv⟩, ⟨(groups.find v).1, h.root_lt ⟨v, hv⟩⟩, rfl, rfl, ?_,
      h.isLeast_root hinside ⟨v, hv⟩, (sign_eq_iff h v _).mpr rfl⟩
    exact fun heq => hroot (congrArg Fin.val heq)
  · obtain ⟨dependent, source, sign⟩ := t
    rintro ⟨v, r, rfl, rfl, hne, hleast, hsign⟩
    obtain rfl := hleast.unique (h.isLeast_root hinside v)
    refine ⟨v, v.isLt, fun heq => hne (Fin.ext heq), ?_⟩
    rw [(sign_eq_iff h v sign).mp hsign]

/-! ## Acceptance -/

theorem assemble_eq_ok {n : ℕ} {pairs partials : List (Pair α)} {substitutions : List Substitution}
    {g : Gaussian α} (h : assemble n pairs partials substitutions = .ok g) :
    g.substitutions = substitutions ∧ g.dimension = n := by
  unfold assemble at h
  split at h
  · cases h
  · cases h
    exact ⟨rfl, by simp [dimension]⟩

/-- All that can be wrong with groups and pairs that go together is the matrix. -/
theorem eq_of_assemble_eq_error {n : ℕ} {pairs partials : List (Pair α)}
    {substitutions : List Substitution} {e : Error α}
    (h : assemble n pairs partials substitutions = .error e) :
    e = .breakdown .indefiniteCorrelation := by
  unfold assemble at h
  split at h
  · cases h
    rfl
  · cases h

section

variable {n : ℕ} {pairs : List (Pair α)} (hpairs : Pair.checkAll n [] pairs = .ok ())
include hpairs

/-- Valid pairs are refused for their first contradiction, or else for their matrix. -/
theorem ofChains_eq_error {e : Error α} (h : ofChains n pairs = .error e) :
    (e = .breakdown .indefiniteCorrelation ∧ ∃ σ, Satisfies σ (Pair.fulls pairs)) ∨
      ∃ p, FirstContradiction (Pair.fulls pairs) p ∧
        e = .invalid (.contradictingSigns p.j p.i) := by
  have hinside := (Pair.valid_of_checkAll hpairs).fulls.inside
  rw [ofChains_eq hinside, hpairs] at h
  cases hgroups : (Groups.ofPairs n (Pair.fulls pairs) : Except (Error α) Groups) with
  | error e' =>
    rw [hgroups] at h
    cases h
    exact .inr (Groups.contradiction_of_ofPairs hinside hgroups)
  | ok groups =>
    rw [hgroups] at h
    exact .inl ⟨eq_of_assemble_eq_error h, (Groups.exists_ofPairs_iff hinside).mp ⟨groups, hgroups⟩⟩

/-- Chains of full pairs are accepted exactly if they can be satisfied. Valid pairs are refused for
contradicting signs if and only if no signs satisfy the full ones, and the pair that is named is the
first that contradicts those before it; the only other reason is a matrix that is not positive
definite. Of those that are accepted, the substitutions are all members of components but the
lowest, each of them once and with its sign relative to the lowest, and a coordinate is left for
every component. -/
theorem chains_accepted_iff_satisfiable :
    ((∃ x y, ofChains n pairs = .error (.invalid (.contradictingSigns x y))) ↔
      ¬∃ σ, Satisfies σ (Pair.fulls pairs)) ∧
    (∀ e, ofChains n pairs = .error e → e = .breakdown .indefiniteCorrelation ∨
      ∃ p, FirstContradiction (Pair.fulls pairs) p ∧
        e = .invalid (.contradictingSigns p.j p.i)) ∧
    ∀ g, ofChains n pairs = .ok g →
      (∀ t, t ∈ g.substitutions ↔ FollowsLowest n (Pair.fulls pairs) t) ∧
      (g.substitutions.map Substitution.dependent).Nodup ∧
      g.independentCount = Nat.card (pairGraph n (Pair.fulls pairs)).ConnectedComponent := by
  have hinside := (Pair.valid_of_checkAll hpairs).fulls.inside
  refine ⟨⟨?_, fun hnone => ?_⟩, fun e he => ?_, fun g hg => ?_⟩
  · rintro ⟨x, y, h⟩
    rcases ofChains_eq_error hpairs h with ⟨he, -⟩ | ⟨p, hp, -⟩
    · cases he
    · exact hp.not_satisfies
  -- A list that is accepted has groups, and their signs satisfy the pairs.
  · rcases h : ofChains n pairs with e | g
    · rcases ofChains_eq_error hpairs h with ⟨-, hsome⟩ | ⟨p, -, rfl⟩
      · exact absurd hsome hnone
      · exact ⟨_, _, rfl⟩
    · obtain ⟨-, groups, htells, -⟩ := ofChains_eq_ok h
      exact absurd ⟨_, htells.satisfies⟩ hnone
  · exact (ofChains_eq_error hpairs he).imp_left And.left
  · obtain ⟨-, groups, htells, hassemble⟩ := ofChains_eq_ok hg
    obtain ⟨hsubstitutions, hdimension⟩ := assemble_eq_ok hassemble
    rw [hsubstitutions]
    refine ⟨mem_grouped_iff htells hinside, ?_, ?_⟩
    · rw [map_dependent_grouped]
      exact List.nodup_range.filter _
    -- Members that follow are counted off, and one root is left for each component.
    · have hsum := length_grouped_add_card groups n
      rw [htells.card_roots hinside] at hsum
      rw [independentCount, hdimension, hsubstitutions]
      omega

end

/-- Three copies around a circle, of which the last pair has a coefficient to be given, and two
others. -/
def circle (last : Float) : List (Pair Float) := [⟨3, 1, -1⟩, ⟨1, 4, 1⟩, ⟨2, 0, 1⟩, ⟨4, 3, last⟩]

/-- A circle is accepted if the product of its signs is positive; otherwise the pair that closes it
is named. -/
theorem chains_accepted_iff_satisfiable_circle :
    (Pair.checkAll 5 [] (circle (-1)) = .ok () ∧ ∃ g, ofChains 5 (circle (-1)) = .ok g ∧
      g.substitutions = [⟨2, 0, .plus⟩, ⟨3, 1, .minus⟩, ⟨4, 1, .plus⟩] ∧
      FollowsLowest 5 (Pair.fulls (circle (-1))) ⟨3, 1, .minus⟩ ∧
      Nat.card (pairGraph 5 (Pair.fulls (circle (-1)))).ConnectedComponent = 2) ∧
    Pair.checkAll 5 [] (circle 1) = .ok () ∧
      ofChains 5 (circle 1) = .error (.invalid (.contradictingSigns 3 4)) ∧
      ¬∃ σ, Satisfies σ (Pair.fulls (circle 1)) := by
  have hvalid : Pair.checkAll 5 [] (circle (-1)) = .ok () := rfl
  have hvalid' : Pair.checkAll 5 [] (circle 1) = .ok () := rfl
  have hrefused : ofChains 5 (circle 1) = .error (.invalid (.contradictingSigns 3 4)) := by
    with_unfolding_all rfl
  have hfollowing : (ofChains 5 (circle (-1))).toOption.map
      (fun g => (g.substitutions, g.independentCount)) =
        some ([⟨2, 0, .plus⟩, ⟨3, 1, .minus⟩, ⟨4, 1, .plus⟩], 2) := by decide +kernel
  refine ⟨⟨hvalid, ?_⟩, hvalid', hrefused,
    (chains_accepted_iff_satisfiable hvalid').1.mp ⟨3, 4, hrefused⟩⟩
  rcases hg : ofChains 5 (circle (-1)) with e | g
  · rw [hg] at hfollowing
    cases hfollowing
  · rw [hg] at hfollowing
    obtain ⟨hsubstitutions, hcount⟩ := Prod.mk.inj (Option.some.inj hfollowing)
    obtain ⟨hmem, -, hcomponents⟩ := (chains_accepted_iff_satisfiable hvalid).2.2 g hg
    refine ⟨g, rfl, hsubstitutions, (hmem _).mp ?_, hcomponents.symm.trans hcount⟩
    rw [hsubstitutions]
    exact .tail _ (.head _)

end Gaussian

end FailureProbability.Correlation
