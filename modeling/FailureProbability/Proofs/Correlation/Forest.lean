import FailureProbability.Correlation
import FailureProbability.Proofs.Correlation.Groups

/-!
# What a forest tells

A walk to the root tells of every variable which root it has and with which sign (`Forest.look`),
and this is all that a forest is asked for. A search returns what the walk tells, and it changes
parents on its way but no walk: the variables that it passes become children of their root with the
signs that they have relative to it. Joining two trees at their roots moves all members of one of
them, however far they are from their root.

So a forest does what the groups do that it stands for (`Forest.groups`): it gives the same groups
after each pair and refuses the same pairs (`groups_union`). The order of the searches and the
height of the trees show nowhere. How many steps a search takes is left out.

## Two changes of a parent

There are two occasions on which a variable gets another parent, and one lemma for each. A search
shortens the way of a variable: its new parent is the root that it has already, and no walk changes
(`look_shorten`). A union lets one root follow another: the walks of all members of its tree change
in the same way, and no other walk does (`look_join`). Whatever else is said of forests follows from
these two, by induction on the distance from the root and without another look at the list of
parents.
-/

namespace FailureProbability.Correlation

namespace Forest

variable {α : Type} {f : Forest} {v w : Nat}

/-! ## Walks -/

/-- What holds of roots, and of a variable when it holds of its parent, holds of all variables. -/
@[elab_as_elim]
theorem induction (f : Forest) {P : Nat → Prop} (root : ∀ v, f.parent v = v → P v)
    (child : ∀ v, f.parent v ≠ v → P (f.parent v) → P v) (v : Nat) : P v := by
  induction v using Nat.strongRecOn with
  | _ v ih =>
    by_cases h : f.parent v = v
    · exact root v h
    · exact child v h (ih _ (f.parent_lt h))

theorem parent_of_size_le (h : f.size ≤ v) : f.parent v = v := List.getD_eq_default _ _ h

theorem lt_size_of_parent_ne (h : f.parent v ≠ v) : v < f.size :=
  Nat.lt_of_not_le fun hle => h (parent_of_size_le hle)

theorem walk_of_root (h : f.parent v = v) (s : Sign) : f.walk v s = (v, s) := by
  rw [walk, dif_pos h]

theorem walk_of_child (h : f.parent v ≠ v) (s : Sign) :
    f.walk v s = f.walk (f.parent v) (s * f.sign v) := by
  rw [walk, dif_neg h]

/-- The signs that were collected before stand in front of those on the way. -/
theorem walk_eq (f : Forest) (v : Nat) (s : Sign) :
    f.walk v s = ((f.look v).1, s * (f.look v).2) := by
  unfold look
  induction v using f.induction generalizing s with
  | root v h => rw [walk_of_root h, walk_of_root h, Sign.mul_plus]
  | child v h ih =>
    rw [walk_of_child h, walk_of_child h, ih, ih (.plus * f.sign v), Sign.plus_mul, Sign.mul_assoc]

theorem look_of_root (h : f.parent v = v) : f.look v = (v, .plus) := walk_of_root h .plus

theorem look_of_child (h : f.parent v ≠ v) :
    f.look v = ((f.look (f.parent v)).1, f.sign v * (f.look (f.parent v)).2) := by
  rw [look, walk_of_child h, walk_eq, Sign.plus_mul]

/-- A walk ends at a root. -/
theorem parent_look (f : Forest) (v : Nat) : f.parent (f.look v).1 = (f.look v).1 := by
  induction v using f.induction with
  | root v h =>
    rw [look_of_root h]
    exact h
  | child v h ih =>
    rw [look_of_child h]
    exact ih

theorem look_le (f : Forest) (v : Nat) : (f.look v).1 ≤ v := by
  induction v using f.induction with
  | root v h => exact Nat.le_of_eq (congrArg Prod.fst (look_of_root h))
  | child v h ih =>
    rw [look_of_child h]
    exact Nat.le_trans ih (f.parent_le v)

theorem look_ne (h : f.parent v ≠ v) : (f.look v).1 ≠ v := by
  intro heq
  have hroot := f.parent_look v
  rw [heq] at hroot
  exact h hroot

/-! ## Other parents -/

section

variable {child parent : Nat} (s : Sign) (hle : parent ≤ child)

theorem parent_attach_self (h : child < f.size) :
    (f.attach child parent s hle).parent child = parent := by
  rw [size] at h
  simp [attach, Forest.parent, h]

theorem sign_attach_self (h : child < f.size) : (f.attach child parent s hle).sign child = s := by
  rw [size, ← f.length_signs] at h
  simp [attach, Forest.sign, h]

theorem parent_attach_of_ne (h : v ≠ child) :
    (f.attach child parent s hle).parent v = f.parent v := by
  simp [attach, Forest.parent, List.getElem?_set_ne h.symm]

theorem sign_attach_of_ne (h : v ≠ child) : (f.attach child parent s hle).sign v = f.sign v := by
  simp [attach, Forest.sign, List.getElem?_set_ne h.symm]

@[simp] theorem size_attach : (f.attach child parent s hle).size = f.size := by
  simp [attach, size]

/-- A root that is not moved is still one. -/
theorem look_attach_of_root (h : f.parent v = v) (hne : v ≠ child) :
    (f.attach child parent s hle).look v = (v, .plus) :=
  look_of_root ((parent_attach_of_ne s hle hne).trans h)

/-- A variable that is not moved walks as before from its parent on. -/
theorem look_attach_of_child (h : f.parent v ≠ v) (hne : v ≠ child) :
    (f.attach child parent s hle).look v =
      (((f.attach child parent s hle).look (f.parent v)).1,
        f.sign v * ((f.attach child parent s hle).look (f.parent v)).2) := by
  have hparent := parent_attach_of_ne (f := f) s hle hne
  rw [look_of_child (by rwa [hparent]), hparent, sign_attach_of_ne s hle hne]

/-- A variable that is moved to a root has this root, and the sign that it was given. -/
theorem look_attach_self (hchild : child < f.size) (hroot : f.parent parent = parent)
    (hne : parent ≠ child) : (f.attach child parent s hle).look child = (parent, s) := by
  have hparent := parent_attach_self (f := f) s hle hchild
  rw [look_of_child (by rwa [hparent]), hparent, sign_attach_self s hle hchild,
    look_attach_of_root s hle hroot hne, Sign.mul_plus]

end

/-- To make a variable a child of its own root, with the sign that it has relative to the root,
changes no walk. -/
theorem look_shorten (h : f.parent v ≠ v) (hle : (f.look v).1 ≤ v) (w : Nat) :
    (f.attach v (f.look v).1 (f.look v).2 hle).look w = f.look w := by
  induction w using f.induction with
  | root w hw =>
    have hne : w ≠ v := by
      rintro rfl
      exact h hw
    rw [look_attach_of_root _ hle hw hne, look_of_root hw]
  | child w hw ih =>
    by_cases hwv : w = v
    · subst hwv
      exact look_attach_self _ hle (lt_size_of_parent_ne h) (f.parent_look w) (look_ne h)
    · rw [look_attach_of_child _ hle hw hwv, ih, look_of_child hw]

/-- A root that becomes the child of another one takes all members of its tree along. -/
theorem look_join {child root : Nat} (s : Sign) (hle : root ≤ child) (hchild : f.parent child = child)
    (hroot : f.parent root = root) (hne : root ≠ child) (hsize : child < f.size) (v : Nat) :
    (f.attach child root s hle).look v =
      if (f.look v).1 = child then (root, (f.look v).2 * s) else f.look v := by
  induction v using f.induction with
  | root v h =>
    rw [look_of_root h]
    by_cases hv : v = child
    · subst hv
      rw [if_pos rfl, look_attach_self s hle hsize hroot hne, Sign.plus_mul]
    · rw [if_neg hv, look_attach_of_root s hle h hv]
  | child v h ih =>
    have hv : v ≠ child := by
      rintro rfl
      exact h hchild
    rw [look_attach_of_child s hle h hv, ih, look_of_child h]
    by_cases hmoved : (f.look (f.parent v)).1 = child
    · rw [if_pos hmoved, if_pos hmoved, Sign.mul_assoc]
    · rw [if_neg hmoved, if_neg hmoved]

/-! ## Searches -/

/-- What a search for the root of `v` leaves of a forest: every walk, and all above `v`. -/
structure Keeps (f f' : Forest) (v : Nat) : Prop where
  size : f'.size = f.size
  look : ∀ w, f'.look w = f.look w
  parent : ∀ w, v < w → f'.parent w = f.parent w
  sign : ∀ w, v < w → f'.sign w = f.sign w

/-- A search finds the root and the sign that a walk tells, and it keeps all walks. -/
theorem find_correct (f : Forest) (v : Nat) :
    ((f.find v).root, (f.find v).sign) = f.look v ∧ f.Keeps (f.find v).forest v := by
  induction v using f.induction with
  | root v h =>
    rw [find, dif_pos h]
    exact ⟨(look_of_root h).symm, rfl, fun _ => rfl, fun _ _ => rfl, fun _ _ => rfl⟩
  | child v h ih =>
    obtain ⟨hfound, hkeeps⟩ := ih
    have hlt := f.parent_lt h
    -- The parent and the sign of `v` are as they were while its parent was searched.
    have hparent := hkeeps.parent v hlt
    have hchild : (f.find (f.parent v)).forest.parent v ≠ v := by rwa [hparent]
    have hlook : (f.find (f.parent v)).forest.look v =
        ((f.find (f.parent v)).root,
          (f.find (f.parent v)).forest.sign v * (f.find (f.parent v)).sign) := by
      rw [look_of_child hchild, hparent, hkeeps.look, ← hfound]
    have hold : f.look v = _ := (hkeeps.look v).symm.trans hlook
    have hshorten := look_shorten hchild (look_le _ v)
    simp only [hlook] at hshorten
    rw [find, dif_neg h]
    refine ⟨hold.symm, ?_, fun w => ?_, fun w hw => ?_, fun w hw => ?_⟩
    · rw [size_attach, hkeeps.size]
    · rw [hshorten, hkeeps.look]
    · rw [parent_attach_of_ne _ _ (Nat.ne_of_gt hw), hkeeps.parent w (Nat.lt_trans hlt hw)]
    · rw [sign_attach_of_ne _ _ (Nat.ne_of_gt hw), hkeeps.sign w (Nat.lt_trans hlt hw)]

theorem root_find (f : Forest) (v : Nat) : (f.find v).root = (f.look v).1 :=
  congrArg Prod.fst (f.find_correct v).1

theorem sign_find (f : Forest) (v : Nat) : (f.find v).sign = (f.look v).2 :=
  congrArg Prod.snd (f.find_correct v).1

theorem look_find (f : Forest) (v w : Nat) : (f.find v).forest.look w = f.look w :=
  (f.find_correct v).2.look w

theorem size_find (f : Forest) (v : Nat) : (f.find v).forest.size = f.size :=
  (f.find_correct v).2.size

/-! ## Groups -/

/-- The groups that a forest stands for. -/
def groups (f : Forest) : Groups := ⟨(List.range f.size).map f.look⟩

/-- A walk tells what the groups tell. -/
theorem find_groups (f : Forest) (v : Nat) : f.groups.find v = f.look v := by
  by_cases h : v < f.size
  · simp [groups, Groups.find, h]
  · have hself := look_of_root (parent_of_size_le (Nat.le_of_not_lt h))
    simp [groups, Groups.find, h, hself]

theorem groups_eq {f f' : Forest} (hsize : f'.size = f.size) (hlook : ∀ v, f'.look v = f.look v) :
    f'.groups = f.groups := by
  rw [groups, groups, hsize, funext hlook]

theorem groups_find (f : Forest) (v : Nat) : (f.find v).forest.groups = f.groups :=
  groups_eq (f.size_find v) (f.look_find v)

theorem groups_singletons (n : Nat) : (singletons n).groups = Groups.singletons n := by
  have hlook : ∀ v, (singletons n).look v = (v, .plus) := fun v =>
    look_of_root (getD_range_self n v)
  rw [groups, Groups.singletons, funext hlook]
  simp [singletons, size]

/-- To join two trees is to relabel the members of one of them. -/
theorem groups_join {child root : Nat} (s : Sign) (hle : root ≤ child)
    (hchild : f.parent child = child) (hroot : f.parent root = root) (hne : root ≠ child)
    (hsize : child < f.size) :
    (f.attach child root s hle).groups = f.groups.relabel child root s := by
  have hlook := funext (look_join s hle hchild hroot hne hsize)
  rw [groups, groups, Groups.relabel, size_attach, hlook, List.map_map]
  rfl

/-- A forest joins two trees where the groups are joined, and refuses a pair where they do. -/
theorem groups_union {x y : Nat} (s : Sign) (hx : x < f.size) (hy : y < f.size) :
    (f.union x y s : Except (Error α) Forest).map groups = f.groups.union x y s := by
  -- The two searches have changed the forest by now, but no root, no sign and no group.
  have hparent : ∀ v, ((f.find x).forest.find y).forest.parent (f.look v).1 = (f.look v).1 := by
    intro v
    have h := parent_look ((f.find x).forest.find y).forest v
    rwa [look_find, look_find] at h
  have hsize : ((f.find x).forest.find y).forest.size = f.size := by rw [size_find, size_find]
  have hgroups : ((f.find x).forest.find y).forest.groups = f.groups := by
    rw [groups_find, groups_find]
  have hxle := f.look_le x
  have hyle := f.look_le y
  unfold union Groups.union
  simp only [root_find, sign_find, look_find, find_groups]
  by_cases hroots : (f.look x).1 = (f.look y).1
  · rw [if_pos hroots, if_pos hroots]
    by_cases hsign : (f.look x).2 * s * (f.look y).2 = .plus
    · rw [if_pos hsign, if_pos hsign]
      exact congrArg Except.ok hgroups
    · rw [if_neg hsign, if_neg hsign]
      rfl
  -- The larger root follows the smaller one, as in the groups.
  · rw [if_neg hroots, if_neg hroots]
    by_cases hlt : (f.look y).1 < (f.look x).1
    · have hmax : Nat.max (f.look x).1 (f.look y).1 = (f.look x).1 :=
        Nat.max_eq_left (Nat.le_of_lt hlt)
      have hmin : Nat.min (f.look x).1 (f.look y).1 = (f.look y).1 :=
        Nat.min_eq_right (Nat.le_of_lt hlt)
      rw [dif_pos hlt, hmax, hmin]
      refine congrArg Except.ok ?_
      rw [groups_join _ _ (hparent x) (hparent y) (Ne.symm hroots) (by omega), hgroups]
    · have hge := Nat.le_of_not_lt hlt
      have hmax : Nat.max (f.look x).1 (f.look y).1 = (f.look y).1 := Nat.max_eq_right hge
      have hmin : Nat.min (f.look x).1 (f.look y).1 = (f.look x).1 := Nat.min_eq_left hge
      rw [dif_neg hlt, hmax, hmin]
      refine congrArg Except.ok ?_
      rw [groups_join _ _ (hparent y) (hparent x) hroots (by omega), hgroups]

theorem size_union {x y : Nat} {s : Sign} {f' : Forest}
    (h : (f.union x y s : Except (Error α) Forest) = .ok f') : f'.size = f.size := by
  unfold union at h
  dsimp only at h
  split at h
  · split at h
    · cases h
      rw [size_find, size_find]
    · cases h
  · split at h <;> cases h <;> rw [size_attach, size_find, size_find]

/-- Pair after pair the forest does what the groups do. -/
theorem groups_foldlM [Scalar α] {full : List (Pair α)}
    (hinside : ∀ p ∈ full, p.i < f.size ∧ p.j < f.size) :
    (full.foldlM (fun f p => (f.union p.j p.i p.sign : Except (Error α) Forest)) f).map groups =
      full.foldlM (fun g p => g.union p.j p.i p.sign) f.groups := by
  induction full generalizing f with
  | nil => rfl
  | cons p full ih =>
    obtain ⟨⟨hi, hj⟩, hinside⟩ := List.forall_mem_cons.mp hinside
    have hone := groups_union (α := α) p.sign hj hi
    rw [List.foldlM_cons, List.foldlM_cons, ← hone]
    cases hunion : (f.union p.j p.i p.sign : Except (Error α) Forest) with
    | error e => rfl
    | ok f' =>
      rw [← size_union hunion] at hinside
      exact ih hinside

/-- The forest of a list of full pairs stands for the groups of the list, and there is one where
there are the others. -/
theorem groups_ofPairs [Scalar α] {n : Nat} {full : List (Pair α)}
    (hinside : ∀ p ∈ full, p.i < n ∧ p.j < n) :
    (ofPairs n full : Except (Error α) Forest).map groups = Groups.ofPairs n full := by
  have hsize : (singletons n).size = n := List.length_range
  rw [← hsize] at hinside
  have hall := groups_foldlM hinside
  rwa [groups_singletons] at hall

end Forest

namespace Gaussian

variable {α : Type}

/-- The members of the groups, each with the root that it follows. -/
def grouped (groups : Groups) (n : Nat) : List Substitution :=
  (List.range n).filterMap fun v =>
    if (groups.find v).1 = v then none else some ⟨v, (groups.find v).1, (groups.find v).2⟩

/-- The searches for all roots find what the groups tell, whatever the searches before have
changed. -/
theorem followers_eq (f : Forest) (vs : List Nat) :
    (followers vs f).1 = (vs.filterMap fun v =>
        if (f.groups.find v).1 = v then none
        else some ⟨v, (f.groups.find v).1, (f.groups.find v).2⟩) ∧
      (followers vs f).2.groups = f.groups := by
  induction vs generalizing f with
  | nil => exact ⟨rfl, rfl⟩
  | cons v vs ih =>
    obtain ⟨hothers, hgroups⟩ := ih (f.find v).forest
    rw [Forest.groups_find] at hothers hgroups
    refine ⟨?_, hgroups⟩
    rw [followers, List.filterMap_cons]
    dsimp only
    rw [hothers, Forest.find_groups, Forest.root_find, Forest.sign_find]
    split <;> rfl

/-- The robust map asks its forest for nothing but the groups that it stands for. -/
theorem ofChains_eq [Scalar α] {n : Nat} {pairs : List (Pair α)}
    (hinside : ∀ p ∈ Pair.fulls pairs, p.i < n ∧ p.j < n) :
    ofChains n pairs = (do
      Pair.checkAll n [] pairs
      let groups ← Groups.ofPairs n (Pair.fulls pairs)
      let given := Pair.partials pairs
      assemble n pairs (firstOfEach [] (given.filterMap (moved? groups.find (given.map Pair.key))))
        (grouped groups n)) := by
  unfold ofChains
  rw [← Forest.groups_ofPairs hinside]
  refine bind_congr fun _ => ?_
  cases (Forest.ofPairs n (Pair.fulls pairs) : Except (Error α) Forest) with
  | error e => rfl
  | ok f =>
    obtain ⟨hsubstitutions, hgroups⟩ := followers_eq f (List.range n)
    have hlook : (followers (List.range n) f).2.look = f.groups.find := by
      funext v
      rw [← Forest.find_groups, hgroups]
    show assemble n pairs (firstOfEach [] ((Pair.partials pairs).filterMap (moved?
        (followers (List.range n) f).2.look ((Pair.partials pairs).map Pair.key))))
      (followers (List.range n) f).1 = _
    rw [hlook, hsubstitutions]
    rfl

end Gaussian

end FailureProbability.Correlation
