import FailureProbability.Estimate.Text
import FailureProbability.Proofs.Decimal.Text
import FailureProbability.Proofs.Estimator.Tree
import FailureProbability.Proofs.Text

/-!
# Estimates read back

Writing and reading an estimate are one after the other the identity, but for what is not written.
Each item is on a line of its own (`isLine_of_mem_toLines`), so that the reader finds the lines of
the writer. It takes them in their order: an item leaves the cursor one line further
(`run_readItem`), and a section as many lines further as it was announced to have (`run_readItems`).

Two things are assumed of an estimate. The name of its method has to be a line, that is, without a
line break in it and without blanks at its ends, or it would be read as something else; those of all
estimators are, and they stay lines when they are joined. And its counts have to fit into 64 binary
digits, which is what they are kept in.

Nothing is assumed of its numbers, which may be infinite or not be numbers at all. Nor do the
numbers have to agree with each other: the reader does not compare them.
-/

namespace FailureProbability

open Decimal Text

/-! ## Items as lines -/

namespace Decimal

theorem isBlank_of_isDigit {c : Char} (hc : isDigit c = true) : isBlank c = false := by
  have hdigit := isDigit_iff.mp hc
  rw [Char.isDigit, Bool.and_eq_true, decide_eq_true_iff, decide_eq_true_iff] at hdigit
  have hlow : 48 ≤ c.toNat := hdigit.1
  have hhigh : c.toNat ≤ 57 := hdigit.2
  exact isBlank_of_printable (by omega)

/-- A number has no blank in it, in whatever layout. -/
theorem isBlank_of_mem_withExponent {ds : List Char} (hds : ∀ c ∈ ds, isDigit c = true) {power : ℤ}
    {signed : Bool} : ∀ c ∈ withExponent ds power signed, isBlank c = false := by
  have hpower : ∀ c ∈ digits power.natAbs, isBlank c = false := fun c hc =>
    isBlank_of_isDigit (isDigit_of_mem_digits hc)
  have hfigures : ∀ c ∈ ds, isBlank c = false := fun c hc => isBlank_of_isDigit (hds c hc)
  unfold withExponent
  simp only [List.forall_mem_append]
  refine ⟨⟨?_, ?_⟩, hpower⟩
  · match ds with
    | [] => simp
    | [d] => exact hfigures
    | d :: d' :: rest =>
      simp only [List.forall_mem_cons] at hfigures ⊢
      exact ⟨hfigures.1, by decide, hfigures.2⟩
  · refine fun c hc => isBlank_of_printable ?_
    revert c
    split
    · simp
    · split <;> simp

theorem isLine_signed (negative : Bool) {text : List Char} (htext : ∀ c ∈ text, isBlank c = false) :
    IsLine (signed negative text).toList := by
  unfold signed
  rw [String.toList_ofList]
  cases negative with
  | true => exact isLine_of_forall (List.forall_mem_cons.mpr ⟨by decide, htext⟩)
  | false => exact isLine_of_forall htext

/-- No number has a blank in it. -/
theorem isLine_scientific (places : ℕ) (x : Float) : IsLine (scientific places x).toList := by
  unfold scientific
  split
  · have hwords : ∀ w ∈ ["NaN", "-inf", "inf"], IsLine w.toList := by
      simp only [List.forall_mem_cons]
      refine ⟨isLine_of_printable ?_, isLine_of_printable ?_, isLine_of_printable ?_, nofun⟩ <;> simp
    unfold nonFinite
    split
    · exact hwords _ (by simp)
    · split <;> exact hwords _ (by simp)
  · refine isLine_signed _ (isBlank_of_mem_withExponent ?_)
    split
    · simp [isDigit, digit?]
    · exact fun _ => isDigit_of_mem_digits

theorem isLine_digits (n : ℕ) : IsLine (digits n) :=
  isLine_of_forall fun _ hc => isBlank_of_isDigit (isDigit_of_mem_digits hc)

end Decimal

namespace Estimate

/-! ## The text of an estimate -/

variable {e : Estimate Float}

theorem isLine_of_mem_toLines (hmethod : IsLine e.method.toList) :
    ∀ l ∈ e.toLines.map String.toList, IsLine l := by
  have hnumbers (xs : List Float) : ∀ l ∈ xs.map fun x => (numberText x).toList, IsLine l := by
    intro l hl
    obtain ⟨x, -, rfl⟩ := List.mem_map.mp hl
    exact isLine_scientific 16 x
  have hcount (n : ℕ) : IsLine (toString n).toList := by
    rw [Nat.toString_eq_repr, Nat.toList_repr]
    exact isLine_digits n
  simp only [toLines, List.map_append, List.map_map, List.map_cons, List.map_nil,
    List.forall_mem_append, List.forall_mem_cons]
  exact ⟨⟨⟨⟨⟨isLine_scientific 16 _, hcount _, nofun⟩, hnumbers _⟩, hcount _, nofun⟩, hnumbers _⟩,
    hmethod, hcount _, hcount _, nofun⟩

theorem toList_toText : e.toText.toList = (e.toLines.map String.toList).flatMap (· ++ ['\n']) := by
  unfold toText
  simp [String.toList_join, List.flatMap_map]

/-- The reader goes through the items of the writer. -/
theorem ofText_toText_eq (hmethod : IsLine e.method.toList) :
    ofText e.toText = (read.run ⟨e.toLines.map String.toList, 0⟩).map (·.1) := by
  unfold ofText
  rw [toList_toText, map_trim_lines (isLine_of_mem_toLines hmethod)]

/-! ## Reading items -/

namespace Reader

variable {β γ : Type} {r : Reader β} {f : β → Reader γ} {b : β} {c c' : Cursor}

theorem run_bind (h : r.run c = .ok (b, c')) : (r >>= f).run c = (f b).run c' := by
  rw [StateT.run_bind, h]
  rfl

end Reader

theorem run_nextLine (item : String) (l : List Char) (rest : List (List Char)) (n : ℕ) :
    (nextLine item).run ⟨l :: rest, n⟩ = .ok (l, ⟨rest, n + 1⟩) := rfl

/-- An item that fits is read from its line, and the cursor goes to the next one. -/
theorem run_readItem {β : Type} (item : String) {value : List Char → Option β} {l : List Char} {v : β}
    (hv : value l = some v) (rest : List (List Char)) (n : ℕ) :
    (readItem item value).run ⟨l :: rest, n⟩ = .ok (v, ⟨rest, n + 1⟩) := by
  unfold readItem
  rw [Reader.run_bind (run_nextLine item l rest n), hv]
  rfl

/-- A section is read to its end and no further. -/
theorem run_readItems {β : Type} (item : String) {value : List Char → Option β}
    {text : β → List Char} (hv : ∀ v, value (text v) = some v) (vs : List β)
    (rest : List (List Char)) (n : ℕ) :
    (readItems item value vs.length).run ⟨vs.map text ++ rest, n⟩ =
      .ok (vs, ⟨rest, n + vs.length⟩) := by
  induction vs generalizing n with
  | nil => rfl
  | cons v vs ih =>
    rw [List.length_cons, List.map_cons, List.cons_append]
    unfold readItems
    rw [Reader.run_bind (run_readItem item (hv v) _ n), Reader.run_bind (ih (n + 1)), Nat.add_right_comm]
    rfl

/-- The code of a status is read as the status. -/
theorem run_readStatus (s : Status) (rest : List (List Char)) (n : ℕ) :
    readStatus.run ⟨digits s.code :: rest, n⟩ = .ok (s, ⟨rest, n + 1⟩) := by
  have hcode : readWhole (digits s.code) = some (s.code : ℤ) := readWhole_digits (by cases s <;> decide)
  unfold readStatus
  rw [Reader.run_bind (run_readItem _ hcode rest n), Status.ofCode?_code]
  rfl

/-- The reader takes the lines of the writer to their end. -/
theorem run_read (halpha : e.direction.alpha.length < 2 ^ 64) (hx : e.x.length < 2 ^ 64)
    (hsteps : e.steps < 2 ^ 64) : ∃ c, read.run ⟨e.toLines.map String.toList, 0⟩ =
      .ok ({ e with u := e.direction.designPoint, evaluations := 0 }, c) := by
  have hnumber (x : Float) : readFloat ((numberText x).toList) = some x :=
    readFloat_scientific le_rfl x
  have hlines : e.toLines.map String.toList = (numberText e.direction.beta).toList ::
      digits e.direction.alpha.length :: ((e.direction.alpha.map fun x => (numberText x).toList) ++
        digits e.x.length :: ((e.x.map fun x => (numberText x).toList) ++
          [e.method.toList, digits e.status.code, digits e.steps])) := by
    have hcount (n : ℕ) : (toString n).toList = digits n := Nat.toList_repr
    simp [toLines, Function.comp_def, ← hcount]
  rw [hlines]
  unfold read
  rw [Reader.run_bind (run_readItem _ (hnumber _) _ _),
    Reader.run_bind (run_readItem _ (readCount_digits halpha) _ _),
    Reader.run_bind (run_readItems _ hnumber _ _ _),
    Reader.run_bind (run_readItem _ (readCount_digits hx) _ _),
    Reader.run_bind (run_readItems _ hnumber _ _ _),
    Reader.run_bind (run_nextLine _ _ _ _), Reader.run_bind (run_readStatus _ _ _),
    Reader.run_bind (run_readItem _ (readCount_digits hsteps) _ _), String.ofList_toList]
  exact ⟨_, rfl⟩

/-! ## Names of estimators -/

/-- The name of a single method has no line break and no blank at its ends. -/
theorem isLine_name {e : Estimator Float} (h : e.IsSingle) : IsLine e.name.toList := by
  cases h with
  | form h =>
    rw [Estimator.eq_of_checked h]
    exact isLine_of_printable (by simp [Form.name])
  | directional h =>
    rw [Estimator.eq_of_checked h]
    exact isLine_of_printable (by simp [Estimator.unseeded, Directional.name])
  | crude h =>
    rw [Estimator.eq_of_checked h]
    exact isLine_of_printable (by simp [Estimator.unseeded, Sampling.Crude.name])
  | importance h =>
    rw [Estimator.eq_of_checked h]
    exact isLine_of_printable (by simp [Sampling.Importance.name])
  | adaptive h =>
    rw [Estimator.eq_of_checked h]
    exact isLine_of_printable (by simp [Estimator.unseeded, Sampling.Adaptive.name])
  | grid h =>
    rw [Estimator.eq_of_checked h]
    exact isLine_of_printable (by simp [Estimator.unseeded, Grid.name])

theorem isLine_intercalate {names : List String} (h : ∀ name ∈ names, IsLine name.toList) :
    IsLine ("+".intercalate names).toList := by
  induction names with
  | nil => exact isLine_of_forall nofun
  | cons name names ih =>
    obtain ⟨hname, hnames⟩ := List.forall_mem_cons.mp h
    cases names with
    | nil => rwa [String.intercalate_singleton]
    | cons next names =>
      rw [String.intercalate_cons_cons, String.toList_append, String.toList_append, List.append_assoc]
      exact hname.join (ih hnames) (by decide)

/-! ## Reading back -/

/-- What is written of an estimate is read back as it was: every number, be it infinite, undefined
or a signed zero, and as many of them as there are; the design point is that of the direction, and
no evaluations are counted. The names of the estimators have to be a line, which they are however
many are joined. -/
theorem text_round_trip :
    (∀ e : Estimate Float, IsLine e.method.toList → e.direction.alpha.length < 2 ^ 64 →
      e.x.length < 2 ^ 64 → e.steps < 2 ^ 64 →
      ofText e.toText = .ok { e with u := e.direction.designPoint, evaluations := 0 }) ∧
    ∀ es : List (Estimator Float), (∀ e ∈ es, e.IsSingle) →
      IsLine ("+".intercalate (es.map (·.name))).toList := by
  refine ⟨fun e hmethod halpha hx hsteps => ?_, fun es hes => isLine_intercalate fun name hname => ?_⟩
  · obtain ⟨c, hread⟩ := run_read halpha hx hsteps
    rw [ofText_toText_eq hmethod, hread]
    rfl
  · obtain ⟨e, he, rfl⟩ := List.mem_map.mp hname
    exact isLine_name (hes e he)

/-- An estimate in which hardly anything is a finite number. -/
def notFinite : Estimate Float :=
  ⟨.noConvergence, ⟨0 / 0, [-0, 1 / 0]⟩, [-1 / 0, 1e-310], [0, 0], "FORM+FORM", 7, 35⟩

theorem text_round_trip_notFinite :
    IsLine notFinite.method.toList ∧ ofText notFinite.toText =
      .ok ⟨.noConvergence, ⟨0 / 0, [-0, 1 / 0]⟩, [-1 / 0, 1e-310], notFinite.direction.designPoint,
        "FORM+FORM", 7, 0⟩ := by
  have hmethod : IsLine notFinite.method.toList :=
    text_round_trip.2 [_, _] (List.forall_mem_cons.mpr ⟨Estimator.Tree.isSingle_fullSteps,
      List.forall_mem_cons.mpr ⟨Estimator.Tree.isSingle_fullSteps, nofun⟩⟩)
  exact ⟨hmethod, text_round_trip.1 notFinite hmethod (by decide) (by decide) (by decide)⟩

end Estimate

end FailureProbability
