import FailureProbability.Proofs.Correlation.Pair
import Mathlib.Data.List.GetD

/-!
# Groups of copies

Full correlations say of some variables that they are copies of each other. `Linked` is what follows
from them: that one variable is another one with a sign. `Groups` tell for every variable the root
of its group and the sign relative to it, and two groups are joined by relabelling all members of
one of them, so that a look-up never follows a chain. Groups that are built from a list of full
correlations tell just what is linked: two variables have the same root if and only if they are
linked, by the product of their signs, and the root is the lowest variable that is linked to them.
Building them fails only where the signs contradict each other.

Nothing runs on groups; they are what a forest is held against, whose trees may be of any height.
Relabelling makes each of them as easy to follow as a table, and the invariant of a union
(`Groups.Tells`) is a statement about this table. That a forest does the same is proved apart from
it (`Proofs.Correlation.Forest`).

Pairs are supposed to name variables that exist. Outside its table a group tells of every variable
that it is on its own, so that nothing can be joined there.
-/

namespace FailureProbability.Correlation

/-! ## Groups and how they are joined -/

/-- The root of each variable and the sign of the variable relative to it. -/
structure Groups where
  roots : List (Nat × Sign)
  deriving Repr, BEq

namespace Groups

variable {α : Type}

def singletons (n : Nat) : Groups := ⟨(List.range n).map fun v => (v, .plus)⟩

/-- The root of a variable, and its sign relative to the root. -/
def find (g : Groups) (v : Nat) : Nat × Sign := g.roots.getD v (v, .plus)

/-- The group of the root `child` becomes part of the group of `root`, where `sign` relates the
two roots. -/
def relabel (g : Groups) (child root : Nat) (sign : Sign) : Groups :=
  ⟨g.roots.map fun m => if m.1 = child then (root, m.2 * sign) else m⟩

/-- Records that variable `x` is variable `y` with the given sign. -/
def union (g : Groups) (x y : Nat) (sign : Sign) : Except (Error α) Groups :=
  let (rx, sx) := g.find x
  let (ry, sy) := g.find y
  let relative := sx * sign * sy
  if rx = ry then
    if relative = .plus then .ok g else .error (.invalid (.contradictingSigns x y))
  else .ok (g.relabel (Nat.max rx ry) (Nat.min rx ry) relative)

@[simp] theorem find_singletons (n v : Nat) : (singletons n).find v = (v, .plus) := by
  by_cases h : v < n <;> simp [find, singletons, h]

@[simp] theorem length_relabel (g : Groups) (child root : Nat) (sign : Sign) :
    (g.relabel child root sign).roots.length = g.roots.length := by
  simp [relabel]

/-- Relabelling moves the members of one group and no other variable. -/
theorem find_relabel (g : Groups) (child root : Nat) (sign : Sign) {v : Nat}
    (h : v < g.roots.length) :
    (g.relabel child root sign).find v =
      if (g.find v).1 = child then (root, (g.find v).2 * sign) else g.find v := by
  simp [find, relabel, h]

def ofPairs [Scalar α] (n : Nat) (full : List (Pair α)) : Except (Error α) Groups :=
  full.foldlM (fun g p => g.union p.j p.i p.sign) (singletons n)

end Groups

variable {α : Type} [Scalar α]

/-! ## Links -/

/-- The first variable is the second one with the sign, by the full pairs of a list. -/
inductive Linked (full : List (Pair α)) : Nat → Nat → Sign → Prop
  | refl (v : Nat) : Linked full v v .plus
  | forward {v : Nat} {s : Sign} {p : Pair α} (h : Linked full v p.j s) (hp : p ∈ full) :
      Linked full v p.i (s * p.sign)
  | backward {v : Nat} {s : Sign} {p : Pair α} (h : Linked full v p.i s) (hp : p ∈ full) :
      Linked full v p.j (s * p.sign)

namespace Linked

variable {full : List (Pair α)} {u v w : Nat} {s t : Sign}

/-- Links follow one another, and their signs are multiplied. -/
theorem trans (h : Linked full u v s) (h' : Linked full v w t) : Linked full u w (s * t) := by
  induction h' with
  | refl =>
    rw [Sign.mul_plus]
    exact h
  | forward _ hp ih =>
    rw [← Sign.mul_assoc]
    exact ih.forward hp
  | backward _ hp ih =>
    rw [← Sign.mul_assoc]
    exact ih.backward hp

/-- A link holds in both directions, with the same sign. -/
theorem symm (h : Linked full v w s) : Linked full w v s := by
  induction h with
  | refl => exact .refl _
  | @forward s p _ hp ih =>
    have hpair : Linked full p.i p.j p.sign := (refl p.i).backward hp
    rw [Sign.mul_comm]
    exact hpair.trans ih
  | @backward s p _ hp ih =>
    have hpair : Linked full p.j p.i p.sign := (refl p.j).forward hp
    rw [Sign.mul_comm]
    exact hpair.trans ih

theorem of_mem {p : Pair α} (hp : p ∈ full) : Linked full p.j p.i p.sign := (refl p.j).forward hp

theorem mono {full' : List (Pair α)} (hsub : ∀ p ∈ full, p ∈ full') (h : Linked full v w s) :
    Linked full' v w s := by
  induction h with
  | refl => exact .refl _
  | forward _ hp ih => exact ih.forward (hsub _ hp)
  | backward _ hp ih => exact ih.backward (hsub _ hp)

end Linked

/-- Signs for all variables under which every full pair of a list holds. -/
def Satisfies (σ : Nat → Sign) (full : List (Pair α)) : Prop := ∀ p ∈ full, σ p.j = p.sign * σ p.i

theorem Satisfies.eq_mul {σ : Nat → Sign} {full : List (Pair α)} (h : Satisfies σ full)
    {v w : Nat} {s : Sign} (hlinked : Linked full v w s) : σ v = s * σ w := by
  induction hlinked with
  | refl => rfl
  | forward _ hp ih => rw [ih, h _ hp, Sign.mul_assoc]
  | @backward s p _ hp ih =>
    have hback : σ p.i = p.sign * σ p.j := by
      rw [h p hp, ← Sign.mul_assoc, Sign.mul_self, Sign.plus_mul]
    rw [ih, hback, Sign.mul_assoc]

namespace Groups

/-! ## Groups that tell the links

The invariant of a union says three things: a look-up gives a variable that is linked, by the sign
that it gives; the variables of a pair are in one group; and no root is above its members. They
make up a look-up that knows the links in full, without a count of how often groups were joined. -/

/-- The groups tell the links of a list of full pairs: every variable is linked to its root by its
sign, the two variables of a pair are in one group, and no root is above its members. -/
structure Tells (g : Groups) (n : Nat) (full : List (Pair α)) : Prop where
  length : g.roots.length = n
  linked : ∀ v, Linked full v (g.find v).1 (g.find v).2
  joined : ∀ p ∈ full, (g.find p.j).1 = (g.find p.i).1 ∧ (g.find p.j).2 = p.sign * (g.find p.i).2
  le : ∀ v, (g.find v).1 ≤ v

namespace Tells

variable {g : Groups} {n : Nat} {full : List (Pair α)} (h : g.Tells n full)
include h

/-- Linked variables have the same root, and signs that differ by the sign of the link. -/
theorem find_of_linked {v w : Nat} {s : Sign} (hlinked : Linked full v w s) :
    (g.find v).1 = (g.find w).1 ∧ (g.find v).2 = s * (g.find w).2 := by
  induction hlinked with
  | refl => exact ⟨rfl, rfl⟩
  | forward _ hp ih =>
    obtain ⟨hroot, hsign⟩ := h.joined _ hp
    exact ⟨ih.1.trans hroot, by rw [ih.2, hsign, Sign.mul_assoc]⟩
  | @backward s p _ hp ih =>
    obtain ⟨hroot, hsign⟩ := h.joined p hp
    have hback : (g.find p.i).2 = p.sign * (g.find p.j).2 := by
      rw [hsign, ← Sign.mul_assoc, Sign.mul_self, Sign.plus_mul]
    exact ⟨ih.1.trans hroot.symm, by rw [ih.2, hback, Sign.mul_assoc]⟩

theorem linked_of_root_eq {v w : Nat} (hroot : (g.find v).1 = (g.find w).1) :
    Linked full v w ((g.find v).2 * (g.find w).2) := by
  have hw := (h.linked w).symm
  rw [← hroot] at hw
  exact (h.linked v).trans hw

/-- The root is the lowest of the linked variables. -/
theorem root_le {v w : Nat} {s : Sign} (hlinked : Linked full v w s) : (g.find v).1 ≤ w := by
  rw [(h.find_of_linked hlinked).1]
  exact h.le w

/-- A root is its own root. -/
theorem find_root (v : Nat) : g.find (g.find v).1 = ((g.find v).1, .plus) := by
  obtain ⟨hroot, hsign⟩ := h.find_of_linked (h.linked v)
  refine Prod.ext hroot.symm ?_
  generalize (g.find (g.find v).1).2 = s at hsign ⊢
  generalize (g.find v).2 = t at hsign
  cases s <;> cases t <;> first | rfl | cases hsign

theorem find_eq_self {v : Nat} (hroot : (g.find v).1 = v) : g.find v = (v, .plus) := by
  have hself := h.find_root v
  rwa [hroot] at hself

end Tells

theorem tells_singletons (n : Nat) : (singletons n).Tells n ([] : List (Pair α)) :=
  ⟨by simp [singletons], fun v => by rw [find_singletons]; exact .refl v, by simp,
    fun v => Nat.le_of_eq (congrArg Prod.fst (find_singletons n v))⟩

/-! ## Joining groups

A further pair puts a sign between the roots of its variables. If there is one root only, the sign
has to be that of no change; else the group of the larger root moves over as a whole, each member
with its old sign times the one between the roots. -/

omit [Scalar α] in
theorem find_of_length_le {g : Groups} {v : Nat} (hv : g.roots.length ≤ v) :
    g.find v = (v, .plus) :=
  List.getD_eq_default _ _ hv

/-- Who was in the group of the child is in that of the root, with both signs. -/
theorem find_relabel_of_tells {g : Groups} {n : Nat} {full : List (Pair α)} (h : g.Tells n full)
    {child : Nat} (hchild : child < n) (root : Nat) (sign : Sign) (v : Nat) :
    (g.relabel child root sign).find v =
      if (g.find v).1 = child then (root, (g.find v).2 * sign) else g.find v := by
  by_cases hv : v < g.roots.length
  · exact find_relabel g child root sign hv
  · have hself := find_of_length_le (Nat.le_of_not_lt hv)
    have hself' := find_of_length_le (g := g.relabel child root sign) (v := v) (by simpa using hv)
    have hne : v ≠ child := by
      have := h.length
      omega
    rw [hself', hself, if_neg hne]

/-- The sign that a pair puts between the roots of its variables. -/
def relative (g : Groups) (p : Pair α) : Sign := (g.find p.j).2 * p.sign * (g.find p.i).2

/-- A further pair links the roots of its two variables. -/
theorem Tells.linked_roots {g : Groups} {n : Nat} {full : List (Pair α)} (h : g.Tells n full)
    (p : Pair α) : Linked (full ++ [p]) (g.find p.j).1 (g.find p.i).1 (g.relative p) := by
  have hlinked : ∀ v, Linked (full ++ [p]) v (g.find v).1 (g.find v).2 := fun v =>
    (h.linked v).mono fun q hq => List.mem_append_left _ hq
  have hpair : Linked (full ++ [p]) p.j p.i p.sign := .of_mem (by simp)
  exact ((hlinked p.j).symm.trans hpair).trans (hlinked p.i)

section

variable {g : Groups} {n : Nat} {full : List (Pair α)} (h : g.Tells n full) {p : Pair α}
  (hi : p.i < n) (hj : p.j < n) {child root : Nat}
  (hroots : (child = (g.find p.j).1 ∧ root = (g.find p.i).1) ∨
    (child = (g.find p.i).1 ∧ root = (g.find p.j).1))
include h hi hj hroots

/-- The members of one of the two groups move to the other root. -/
theorem Tells.find_relabel_roots (v : Nat) :
    (g.relabel child root (g.relative p)).find v =
      if (g.find v).1 = child then (root, (g.find v).2 * g.relative p) else g.find v := by
  refine find_relabel_of_tells h ?_ root _ v
  have hlej := h.le p.j
  have hlei := h.le p.i
  omega

/-- Every variable is still linked to its root, through the further pair where it has moved. -/
theorem Tells.linked_relabel (v : Nat) :
    Linked (full ++ [p]) v ((g.relabel child root (g.relative p)).find v).1
      ((g.relabel child root (g.relative p)).find v).2 := by
  have hold : Linked (full ++ [p]) v (g.find v).1 (g.find v).2 :=
    (h.linked v).mono fun q hq => List.mem_append_left _ hq
  rw [h.find_relabel_roots hi hj hroots]
  by_cases hv : (g.find v).1 = child
  · rw [if_pos hv]
    rw [hv] at hold
    refine hold.trans ?_
    rcases hroots with ⟨rfl, rfl⟩ | ⟨rfl, rfl⟩
    · exact h.linked_roots p
    · exact (h.linked_roots p).symm
  · rw [if_neg hv]
    exact hold

/-- The pair that joins the two groups holds after it. -/
theorem Tells.joined_relabel (hne : root ≠ child) :
    ((g.relabel child root (g.relative p)).find p.j).1 =
        ((g.relabel child root (g.relative p)).find p.i).1 ∧
      ((g.relabel child root (g.relative p)).find p.j).2 =
        p.sign * ((g.relabel child root (g.relative p)).find p.i).2 := by
  rw [h.find_relabel_roots hi hj hroots, h.find_relabel_roots hi hj hroots]
  unfold relative
  -- One of the two roots is the child and the other one stays.
  rcases hroots with ⟨rfl, rfl⟩ | ⟨rfl, rfl⟩
  · rw [if_pos rfl, if_neg hne]
    refine ⟨rfl, ?_⟩
    generalize (g.find p.j).2 = s
    generalize (g.find p.i).2 = t
    cases s <;> cases t <;> cases p.sign <;> rfl
  · rw [if_pos rfl, if_neg hne]
    refine ⟨rfl, ?_⟩
    generalize (g.find p.j).2 = s
    generalize (g.find p.i).2 = t
    cases s <;> cases t <;> cases p.sign <;> rfl

/-- Two groups that are joined tell one more link. -/
theorem Tells.relabel (hlt : root < child) :
    (g.relabel child root (g.relative p)).Tells n (full ++ [p]) := by
  refine ⟨by simp [h.length], h.linked_relabel hi hj hroots, ?_, ?_⟩
  · intro q hq
    rcases List.mem_append.mp hq with hq | hq
    · obtain ⟨hroot, hsign⟩ := h.joined q hq
      rw [h.find_relabel_roots hi hj hroots, h.find_relabel_roots hi hj hroots, hroot]
      by_cases hv : (g.find q.i).1 = child
      · rw [if_pos hv, if_pos hv, hsign, Sign.mul_assoc]
        exact ⟨rfl, rfl⟩
      · rw [if_neg hv, if_neg hv]
        exact ⟨hroot, hsign⟩
    · obtain rfl : q = p := by simpa using hq
      exact h.joined_relabel hi hj hroots (Nat.ne_of_lt hlt)
  · intro v
    have hle := h.le v
    rw [h.find_relabel_roots hi hj hroots]
    by_cases hv : (g.find v).1 = child
    · rw [if_pos hv]
      dsimp only
      omega
    · rw [if_neg hv]
      exact hle

end

/-- A pair inside a group tells nothing new. -/
theorem Tells.of_same_root {g : Groups} {n : Nat} {full : List (Pair α)} (h : g.Tells n full)
    {p : Pair α} (hroot : (g.find p.j).1 = (g.find p.i).1)
    (hsign : (g.find p.j).2 * p.sign * (g.find p.i).2 = .plus) : g.Tells n (full ++ [p]) := by
  refine ⟨h.length, fun v => (h.linked v).mono fun q hq => List.mem_append_left _ hq, ?_, h.le⟩
  intro q hq
  rcases List.mem_append.mp hq with hq | hq
  · exact h.joined q hq
  · obtain rfl : q = p := by simpa using hq
    refine ⟨hroot, ?_⟩
    generalize (g.find q.j).2 = s at hsign ⊢
    generalize (g.find q.i).2 = t at hsign ⊢
    generalize q.sign = r at hsign ⊢
    cases s <;> cases t <;> cases r <;> first | rfl | cases hsign

/-- A union that succeeds tells one more link. -/
theorem Tells.union {g g' : Groups} {n : Nat} {full : List (Pair α)} (h : g.Tells n full)
    {p : Pair α} (hi : p.i < n) (hj : p.j < n)
    (hunion : (g.union p.j p.i p.sign : Except (Error α) Groups) = .ok g') :
    g'.Tells n (full ++ [p]) := by
  unfold Groups.union at hunion
  dsimp only at hunion
  by_cases hroot : (g.find p.j).1 = (g.find p.i).1
  · rw [if_pos hroot] at hunion
    by_cases hsign : (g.find p.j).2 * p.sign * (g.find p.i).2 = .plus
    · rw [if_pos hsign] at hunion
      cases hunion
      exact h.of_same_root hroot hsign
    · rw [if_neg hsign] at hunion
      cases hunion
  · rw [if_neg hroot] at hunion
    cases hunion
    have hmin : Nat.min (g.find p.j).1 (g.find p.i).1 = min (g.find p.j).1 (g.find p.i).1 := rfl
    have hmax : Nat.max (g.find p.j).1 (g.find p.i).1 = max (g.find p.j).1 (g.find p.i).1 := rfl
    exact h.relabel hi hj (by omega) (by omega)

/-- Signs that satisfy all full pairs leave no contradiction. -/
theorem Tells.exists_union {g : Groups} {n : Nat} {full : List (Pair α)} (h : g.Tells n full)
    {σ : Nat → Sign} {p : Pair α} (hσ : Satisfies σ (full ++ [p])) :
    ∃ g', (g.union p.j p.i p.sign : Except (Error α) Groups) = .ok g' := by
  unfold Groups.union
  dsimp only
  by_cases hroot : (g.find p.j).1 = (g.find p.i).1
  · have hold : Satisfies σ full := fun q hq => hσ q (List.mem_append_left _ hq)
    have hsj := hold.eq_mul (h.linked p.j)
    have hsi := hold.eq_mul (h.linked p.i)
    have hsign : (g.find p.j).2 * p.sign * (g.find p.i).2 = .plus := by
      have hp := hσ p (by simp)
      rw [hsj, hsi, hroot] at hp
      generalize (g.find p.j).2 = s at hp ⊢
      generalize (g.find p.i).2 = t at hp ⊢
      generalize p.sign = r at hp ⊢
      generalize σ (g.find p.i).1 = q at hp
      cases s <;> cases t <;> cases r <;> cases q <;> first | rfl | cases hp
    rw [if_pos hroot, if_pos hsign]
    exact ⟨g, rfl⟩
  · rw [if_neg hroot]
    exact ⟨_, rfl⟩

/-! ## All full pairs -/

/-- Groups that tell the links of some full pairs tell those of more, when these were joined as
well. -/
theorem tells_foldlM {n : Nat} {full rest : List (Pair α)} {g g' : Groups} (hg : g.Tells n full)
    (hinside : ∀ p ∈ rest, p.i < n ∧ p.j < n)
    (h : rest.foldlM (fun g p => (g.union p.j p.i p.sign : Except (Error α) Groups)) g = .ok g') :
    g'.Tells n (full ++ rest) := by
  induction rest generalizing full g with
  | nil =>
    cases h
    rwa [List.append_nil]
  | cons p rest ih =>
    rw [List.foldlM_cons] at h
    obtain ⟨g₁, hunion, hrest⟩ := bind_eq_ok.mp h
    obtain ⟨hi, hj⟩ := hinside p (by simp)
    have htells := ih (hg.union hi hj hunion) (fun q hq => hinside q (by simp [hq])) hrest
    rwa [List.append_assoc] at htells

/-- Pairs that some signs satisfy can all be joined. -/
theorem exists_foldlM {n : Nat} {σ : Nat → Sign} {full rest : List (Pair α)} {g : Groups}
    (hg : g.Tells n full) (hinside : ∀ p ∈ rest, p.i < n ∧ p.j < n)
    (hσ : Satisfies σ (full ++ rest)) :
    ∃ g', rest.foldlM (fun g p => (g.union p.j p.i p.sign : Except (Error α) Groups)) g =
      .ok g' := by
  induction rest generalizing full g with
  | nil => exact ⟨g, rfl⟩
  | cons p rest ih =>
    have hσ' : Satisfies σ ((full ++ [p]) ++ rest) := by
      rwa [List.append_assoc]
    obtain ⟨g₁, hunion⟩ := hg.exists_union (p := p) fun q hq =>
      hσ' q (List.mem_append_left _ hq)
    obtain ⟨hi, hj⟩ := hinside p (by simp)
    obtain ⟨g', hg'⟩ := ih (hg.union hi hj hunion) (fun q hq => hinside q (by simp [hq])) hσ'
    refine ⟨g', ?_⟩
    rw [List.foldlM_cons, hunion]
    exact hg'

/-- The groups that were built tell the links of the full pairs. -/
theorem tells_of_ofPairs {n : Nat} {full : List (Pair α)} {g : Groups}
    (hinside : ∀ p ∈ full, p.i < n ∧ p.j < n)
    (h : (ofPairs n full : Except (Error α) Groups) = .ok g) : g.Tells n full :=
  tells_foldlM (tells_singletons n) hinside h

/-- Groups are built if and only if there are signs that satisfy all full pairs. -/
theorem exists_ofPairs_iff {n : Nat} {full : List (Pair α)}
    (hinside : ∀ p ∈ full, p.i < n ∧ p.j < n) :
    (∃ g, (ofPairs n full : Except (Error α) Groups) = .ok g) ↔ ∃ σ, Satisfies σ full := by
  constructor
  · rintro ⟨g, hg⟩
    exact ⟨fun v => (g.find v).2, fun p hp => ((tells_of_ofPairs hinside hg).joined p hp).2⟩
  · rintro ⟨σ, hσ⟩
    exact exists_foldlM (tells_singletons n) hinside hσ

end Groups

end FailureProbability.Correlation
