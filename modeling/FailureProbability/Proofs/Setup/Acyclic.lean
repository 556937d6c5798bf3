import FailureProbability.Proofs.Setup
import Mathlib.Data.List.Nodup
import Mathlib.Logic.Relation

/-!
# Operands without cycles

A combined variable depends on its operands, and these may be combined in turn. `Acyclic` says that
no variable depends on itself, without a word about the search that looks for one. The search finds
a cycle exactly when there is one (`checkAcyclic_eq_ok_iff`), be it a variable that is its own
operand or a long way round; operands that are shared are none.

One direction goes by the depth of a variable, which every dependence lowers. The other goes by the
path of the search: its variables all lead to the one that is visited, so that one of them met again
would be a cycle, and as they are different the fuel is never used up.

That all operands are variables of the list is assumed for the second direction. The checks see to
it first, and a search among operands that do not exist would come to an end for another reason.
-/

namespace FailureProbability.Setup

open Relation

variable {α : Type} {marginals : List (Marginal α)}

/-- Variable `j` is an operand of variable `i`. -/
def DependsOn (marginals : List (Marginal α)) (i j : Nat) : Prop :=
  ∃ a b, operandsOf marginals i = some (a, b) ∧ (j = a ∨ j = b)

/-- No variable depends on itself, however many others lie between. -/
def Acyclic (marginals : List (Marginal α)) : Prop :=
  ∀ i, ¬TransGen (DependsOn marginals) i i

/-! ## A depth rules cycles out -/

theorem Within.of_dependsOn {levels i j : Nat} (h : Within marginals levels i)
    (hij : DependsOn marginals i j) : ∃ k, k < levels ∧ Within marginals k j := by
  cases levels with
  | zero => exact absurd h (by simp [Within])
  | succ levels =>
    obtain ⟨a, b, hab, hj⟩ := hij
    obtain ⟨ha, hb⟩ := h a b hab
    refine ⟨levels, Nat.lt_succ_self levels, ?_⟩
    rcases hj with rfl | rfl
    · exact ha
    · exact hb

theorem Within.of_transGen {levels i j : Nat} (h : Within marginals levels i)
    (hij : TransGen (DependsOn marginals) i j) : ∃ k, k < levels ∧ Within marginals k j := by
  induction hij with
  | single hdep => exact h.of_dependsOn hdep
  | tail _ hdep ih =>
    obtain ⟨k, hk, hwithin⟩ := ih
    obtain ⟨l, hl, hwithin⟩ := hwithin.of_dependsOn hdep
    exact ⟨l, Nat.lt_trans hl hk, hwithin⟩

/-- A variable with a depth does not lie below itself. -/
theorem Within.not_transGen_self {levels i : Nat} (h : Within marginals levels i) :
    ¬TransGen (DependsOn marginals) i i := by
  induction levels using Nat.strong_induction_on with
  | _ levels ih =>
    intro hcycle
    obtain ⟨k, hk, hwithin⟩ := h.of_transGen hcycle
    exact ih k hk hwithin hcycle

/-- What depends on anything is a variable of the list. -/
theorem lt_length_of_transGen {i j : Nat} (h : TransGen (DependsOn marginals) i j) :
    i < marginals.length := by
  obtain ⟨k, ⟨a, b, hab, -⟩, -⟩ := TransGen.head'_iff.mp h
  obtain ⟨m, hm, -⟩ := Option.bind_eq_some_iff.mp hab
  exact (List.getElem?_eq_some_iff.mp hm).1

theorem acyclic_of_checkAcyclic (h : checkAcyclic marginals = .ok ()) : Acyclic marginals := by
  intro i hcycle
  obtain ⟨k, hk⟩ := within_of_checkAcyclic h (lt_length_of_transGen hcycle)
  exact hk.not_transGen_self hcycle

/-! ## Without a cycle the search comes to an end -/

/-- A visit ends well if there is no cycle: the variables of the path are different, so that the
path is never longer than the list, and each of them depends on the one that is visited. -/
theorem exists_visit (hexist : OperandsExist marginals) (hacyclic : Acyclic marginals)
    {path : List Nat} {i fuel : Nat} (done : List Nat) (hi : i < marginals.length)
    (hnodup : path.Nodup) (hrange : ∀ v ∈ path, v < marginals.length)
    (hpath : ∀ v ∈ path, TransGen (DependsOn marginals) v i)
    (hfuel : marginals.length < fuel + path.length) :
    ∃ done', visit marginals path done i fuel = .ok done' := by
  induction fuel generalizing path done i with
  | zero =>
    have hsub : path ⊆ List.range marginals.length := fun v hv => by simpa using hrange v hv
    have hle : path.length ≤ marginals.length := by simpa using (hnodup.subperm hsub).length_le
    omega
  | succ fuel ih =>
    have hfresh : i ∉ path := fun hmem => hacyclic i (hpath i hmem)
    rw [visit, if_neg (by simpa using hfresh)]
    by_cases hdone : done.contains i = true
    · exact ⟨done, if_pos hdone⟩
    · rw [if_neg hdone]
      cases hab : operandsOf marginals i with
      | none => exact ⟨_, rfl⟩
      | some ab =>
        obtain ⟨a, b⟩ := ab
        obtain ⟨ha, hb⟩ := hexist i a b hab
        -- The path of both operands is one variable longer.
        have hbelow : ∀ j, DependsOn marginals i j → ∀ v ∈ i :: path,
            TransGen (DependsOn marginals) v j := by
          intro j hij v hv
          rcases List.mem_cons.mp hv with rfl | hv
          · exact .single hij
          · exact (hpath v hv).tail hij
        have hrange' : ∀ v ∈ i :: path, v < marginals.length :=
          List.forall_mem_cons.mpr ⟨hi, hrange⟩
        have hnodup' : (i :: path).Nodup := List.nodup_cons.mpr ⟨hfresh, hnodup⟩
        have hfuel' : marginals.length < fuel + (i :: path).length := by
          rw [List.length_cons]
          omega
        obtain ⟨done₁, h₁⟩ := ih done ha hnodup' hrange' (hbelow a ⟨a, b, hab, .inl rfl⟩) hfuel'
        obtain ⟨done₂, h₂⟩ := ih done₁ hb hnodup' hrange' (hbelow b ⟨a, b, hab, .inr rfl⟩) hfuel'
        exact ⟨i :: done₂, bind_eq_ok.mpr ⟨done₁, h₁, bind_eq_ok.mpr ⟨done₂, h₂, rfl⟩⟩⟩

/-- A search from several variables, one after the other, ends well, too. -/
theorem exists_foldlM_visit (hexist : OperandsExist marginals) (hacyclic : Acyclic marginals)
    {vs : List Nat} (done : List Nat) (hvs : ∀ v ∈ vs, v < marginals.length) :
    ∃ done', vs.foldlM (fun done i => visit marginals [] done i (marginals.length + 1)) done =
      .ok done' := by
  induction vs generalizing done with
  | nil => exact ⟨done, rfl⟩
  | cons v vs ih =>
    obtain ⟨hv, hvs⟩ := List.forall_mem_cons.mp hvs
    obtain ⟨done₁, h₁⟩ : ∃ done₁, visit marginals [] done v (marginals.length + 1) = .ok done₁ :=
      exists_visit hexist hacyclic done hv List.nodup_nil (by simp) (by simp) (by simp)
    obtain ⟨done₂, h₂⟩ := ih done₁ hvs
    exact ⟨done₂, by rw [List.foldlM_cons]; exact bind_eq_ok.mpr ⟨done₁, h₁, h₂⟩⟩

/-- The search accepts exactly the lists without a cycle. -/
theorem checkAcyclic_eq_ok_iff (hexist : OperandsExist marginals) :
    checkAcyclic marginals = .ok () ↔ Acyclic marginals := by
  refine ⟨acyclic_of_checkAcyclic, fun hacyclic => ?_⟩
  obtain ⟨done, hdone⟩ := exists_foldlM_visit hexist hacyclic []
    (fun v (hv : v ∈ List.range marginals.length) => List.mem_range.mp hv)
  exact bind_eq_ok.mpr ⟨done, hdone, rfl⟩

end FailureProbability.Setup
