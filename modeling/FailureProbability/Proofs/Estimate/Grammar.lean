import FailureProbability.Proofs.Estimate.Text

/-!
# The grammar of estimates

What the lines of an estimate have to tell is settled by two of them, which count the numbers that
follow (`scheduled`). A text is read if and only if every line is there and fits, and what is read
is what the lines tell (`Tells`). Otherwise the reader blames the first line that is missing or does
not fit.

It goes through the lines one by one, and all of them before the cursor fit (`Outcome`). Whatever
number of lines a count announces, the reader never looks further than one line beyond the text.

## What a line is

The text may be any text. It is cut at line breaks, and blanks at both ends of a line are taken off
before anything else; so `ls` in the statements are lines without them, some of which may be empty.
An empty line is a line: it fits as the name of a method and as nothing else. Lines after the last
item are not scheduled, and nothing is asked of them.

A count is believed. Where it announces more numbers than there are, the line that is blamed is the
first one that is no number, be it the line of the next item or the one after the last.

No hypothesis is needed on the numbers either. One that is too large for a double is read as
infinite, and fits.
-/

namespace FailureProbability.Estimate

open Decimal (readFloat readCount readWhole)

/-! ## What the lines have to tell -/

/-- What a line of an estimate may tell. -/
inductive Item where
  | beta
  | alphaCount
  | alpha
  | xCount
  | x
  | method
  | status
  | steps

namespace Item

/-- What the item is called in an error. -/
def name : Item → String
  | beta => "beta"
  | alphaCount => "alpha count"
  | alpha => "alpha value"
  | xCount => "x count"
  | x => "x value"
  | method => "method name"
  | status => "convergence code"
  | steps => "step count"

/-- The line tells the item: it is a number, a count, one of the codes from zero to three, or
anything at all. -/
def Fits : Item → List Char → Prop
  | beta, l | alpha, l | x, l => (readFloat l).isSome
  | alphaCount, l | xCount, l | steps, l => (readCount l).isSome
  | status, l => ∃ code, readWhole l = some code ∧ 0 ≤ code ∧ code ≤ 3
  | method, _ => True

/-- The fault of a line that does not tell the item, or that is not there. -/
def fault (item : Item) : Option (List Char) → Malformed
  | none => .missing item.name
  | some l =>
    match item, readWhole l with
    | status, some code => .unknownStatus code
    | _, _ => .unexpected item.name (String.ofList l)

/-- The item is what a function reads, and a line that it cannot read has no other fault. -/
structure ReadBy {β : Type} (item : Item) (value : List Char → Option β) : Prop where
  fits : ∀ l, item.Fits l ↔ (value l).isSome
  fault : ∀ l, item.fault (some l) = .unexpected item.name (String.ofList l)

theorem readBy_beta : beta.ReadBy readFloat := ⟨fun _ => Iff.rfl, fun _ => rfl⟩

theorem readBy_alphaCount : alphaCount.ReadBy readCount := ⟨fun _ => Iff.rfl, fun _ => rfl⟩

theorem readBy_alpha : alpha.ReadBy readFloat := ⟨fun _ => Iff.rfl, fun _ => rfl⟩

theorem readBy_xCount : xCount.ReadBy readCount := ⟨fun _ => Iff.rfl, fun _ => rfl⟩

theorem readBy_x : x.ReadBy readFloat := ⟨fun _ => Iff.rfl, fun _ => rfl⟩

theorem readBy_steps : steps.ReadBy readCount := ⟨fun _ => Iff.rfl, fun _ => rfl⟩

end Item

variable {ls : List (List Char)}

def numberAt (ls : List (List Char)) (i : ℕ) : Option Float := ls[i]?.bind readFloat

def countAt (ls : List (List Char)) (i : ℕ) : Option ℕ := ls[i]?.bind readCount

def statusAt (ls : List (List Char)) (i : ℕ) : Option Status :=
  (ls[i]?.bind readWhole).bind Status.ofCode?

/-- What line `i` has to tell, counted from zero. What comes after a count is not settled where
there is none. -/
def scheduled (ls : List (List Char)) (i : ℕ) : Option Item :=
  if i = 0 then some .beta
  else if i = 1 then some .alphaCount
  else
    (countAt ls 1).bind fun n =>
      if i < 2 + n then some .alpha
      else if i = 2 + n then some .xCount
      else
        (countAt ls (2 + n)).bind fun m =>
          if i < 3 + n + m then some .x
          else if i = 3 + n + m then some .method
          else if i = 4 + n + m then some .status
          else if i = 5 + n + m then some .steps
          else none

/-- Line `i` is there and tells the item. -/
def Meets (ls : List (List Char)) (i : ℕ) (item : Item) : Prop := ∃ l, ls[i]? = some l ∧ item.Fits l

/-- What is scheduled for line `i`, if anything is, it tells. -/
def Met (ls : List (List Char)) (i : ℕ) : Prop := ∀ item, scheduled ls i = some item → Meets ls i item

/-- The lines tell an estimate. Lines after the last of these tell nothing. -/
structure Tells (ls : List (List Char)) (e : Estimate Float) : Prop where
  beta : numberAt ls 0 = some e.direction.beta
  alphaCount : countAt ls 1 = some e.direction.alpha.length
  alpha : ∀ k < e.direction.alpha.length, numberAt ls (2 + k) = e.direction.alpha[k]?
  xCount : countAt ls (2 + e.direction.alpha.length) = some e.x.length
  x : ∀ k < e.x.length, numberAt ls (3 + e.direction.alpha.length + k) = e.x[k]?
  method : ls[3 + e.direction.alpha.length + e.x.length]? = some e.method.toList
  status : statusAt ls (4 + e.direction.alpha.length + e.x.length) = some e.status
  steps : countAt ls (5 + e.direction.alpha.length + e.x.length) = some e.steps
  u : e.u = e.direction.designPoint
  evaluations : e.evaluations = 0

/-! ## The schedule -/

theorem scheduled_beta : scheduled ls 0 = some .beta := rfl

theorem scheduled_alphaCount : scheduled ls 1 = some .alphaCount := rfl

section

variable {n : ℕ} (hn : countAt ls 1 = some n)
include hn

theorem scheduled_alpha {k : ℕ} (hk : k < n) : scheduled ls (2 + k) = some .alpha := by
  grind [scheduled]

theorem scheduled_xCount : scheduled ls (2 + n) = some .xCount := by
  grind [scheduled]

variable {m : ℕ} (hm : countAt ls (2 + n) = some m)
include hm

theorem scheduled_x {k : ℕ} (hk : k < m) : scheduled ls (3 + n + k) = some .x := by
  grind [scheduled]

theorem scheduled_method : scheduled ls (3 + n + m) = some .method := by
  grind [scheduled]

theorem scheduled_status : scheduled ls (4 + n + m) = some .status := by
  grind [scheduled]

theorem scheduled_steps : scheduled ls (5 + n + m) = some .steps := by
  grind [scheduled]

/-- Nothing else is scheduled. -/
theorem scheduled_cases {i : ℕ} {item : Item} (h : scheduled ls i = some item) :
    item = .beta ∧ i = 0 ∨ item = .alphaCount ∧ i = 1 ∨ (item = .alpha ∧ 2 ≤ i ∧ i < 2 + n) ∨
      item = .xCount ∧ i = 2 + n ∨ (item = .x ∧ 3 + n ≤ i ∧ i < 3 + n + m) ∨
      item = .method ∧ i = 3 + n + m ∨ item = .status ∧ i = 4 + n + m ∨
      item = .steps ∧ i = 5 + n + m := by
  unfold scheduled at h
  simp only [hn, hm, Option.bind_some] at h
  split_ifs at h <;> cases h <;> simp only [reduceCtorEq, true_and, false_and, false_or, or_false] <;>
    omega

end

/-! ## Lines that tell an estimate -/

theorem meets_of_readBy {β : Type} {item : Item} {value : List Char → Option β}
    (hread : item.ReadBy value) {i : ℕ} {v : β} (hv : ls[i]?.bind value = some v) :
    Meets ls i item := by
  obtain ⟨l, hl, hvalue⟩ := Option.bind_eq_some_iff.mp hv
  refine ⟨l, hl, (hread.fits l).mpr ?_⟩
  rw [hvalue]
  rfl

/-- The codes are those from zero to three. -/
theorem isSome_ofCode?_iff {code : ℤ} : (Status.ofCode? code).isSome ↔ 0 ≤ code ∧ code ≤ 3 := by
  unfold Status.ofCode?
  grind

theorem meets_of_statusAt {i : ℕ} {s : Status} (hs : statusAt ls i = some s) :
    Meets ls i .status := by
  obtain ⟨code, hcode, hstatus⟩ := Option.bind_eq_some_iff.mp hs
  obtain ⟨l, hl, hvalue⟩ := Option.bind_eq_some_iff.mp hcode
  refine ⟨l, hl, code, hvalue, isSome_ofCode?_iff.mp ?_⟩
  rw [hstatus]
  rfl

namespace Tells

variable {e e' : Estimate Float}

/-- Lines that tell an estimate tell all that is scheduled. -/
theorem met (h : Tells ls e) (i : ℕ) : Met ls i := by
  intro item hitem
  rcases scheduled_cases h.alphaCount h.xCount hitem with ⟨rfl, rfl⟩ | ⟨rfl, rfl⟩ |
    ⟨rfl, hfrom, hto⟩ | ⟨rfl, rfl⟩ | ⟨rfl, hfrom, hto⟩ | ⟨rfl, rfl⟩ | ⟨rfl, rfl⟩ | ⟨rfl, rfl⟩
  · exact meets_of_readBy Item.readBy_beta h.beta
  · exact meets_of_readBy Item.readBy_alphaCount h.alphaCount
  · obtain ⟨k, rfl⟩ := Nat.exists_eq_add_of_le hfrom
    have hk := Nat.lt_of_add_lt_add_left hto
    have hvalue := (h.alpha k hk).trans (List.getElem?_eq_getElem hk)
    exact meets_of_readBy Item.readBy_alpha hvalue
  · exact meets_of_readBy Item.readBy_xCount h.xCount
  · obtain ⟨k, rfl⟩ := Nat.exists_eq_add_of_le hfrom
    have hk := Nat.lt_of_add_lt_add_left hto
    have hvalue := (h.x k hk).trans (List.getElem?_eq_getElem hk)
    exact meets_of_readBy Item.readBy_x hvalue
  · exact ⟨_, h.method, trivial⟩
  · exact meets_of_statusAt h.status
  · exact meets_of_readBy Item.readBy_steps h.steps

/-- Lines tell one estimate at most. -/
theorem unique (h : Tells ls e) (h' : Tells ls e') : e = e' := by
  have hlist {xs ys : List Float} {start : ℕ} (hlength : xs.length = ys.length)
      (hxs : ∀ k < xs.length, numberAt ls (start + k) = xs[k]?)
      (hys : ∀ k < ys.length, numberAt ls (start + k) = ys[k]?) : xs = ys := by
    refine List.ext_getElem?' fun k hk => ?_
    rw [hlength, max_self] at hk
    rw [← hxs k (hlength ▸ hk), hys k hk]
  obtain ⟨status, ⟨beta, alpha⟩, x, u, method, steps, evaluations⟩ := e
  obtain ⟨status', ⟨beta', alpha'⟩, x', u', method', steps', evaluations'⟩ := e'
  obtain rfl : beta = beta' := Option.some.inj (h.beta.symm.trans h'.beta)
  have hn : alpha.length = alpha'.length := Option.some.inj (h.alphaCount.symm.trans h'.alphaCount)
  obtain rfl : alpha = alpha' := hlist hn h.alpha h'.alpha
  have hm : x.length = x'.length := Option.some.inj (h.xCount.symm.trans h'.xCount)
  obtain rfl : x = x' := hlist hm h.x h'.x
  obtain rfl : method = method' :=
    String.toList_inj.mp (Option.some.inj (h.method.symm.trans h'.method))
  obtain rfl : status = status' := Option.some.inj (h.status.symm.trans h'.status)
  obtain rfl : steps = steps' := Option.some.inj (h.steps.symm.trans h'.steps)
  obtain rfl : u = u' := h.u.trans h'.u.symm
  obtain rfl : evaluations = evaluations' := h.evaluations.trans h'.evaluations.symm
  rfl

end Tells

/-! ## Reading -/

/-- The cursor before a line. -/
def Cursor.before (ls : List (List Char)) (i : ℕ) : Cursor := ⟨ls.drop i, i⟩

/-- What becomes of a reader that began at a line before which all was met: it answers before
another such line, or blames the line there, where it has not gone beyond the end of the text. -/
inductive Outcome {β : Type} (ls : List (List Char)) (P : β → ℕ → Prop) :
    Except (Error Float) (β × Cursor) → Prop
  | ok {b : β} {i : ℕ} (hi : i ≤ ls.length) (hmet : ∀ k < i, Met ls k) (hb : P b i) :
      Outcome ls P (.ok (b, .before ls i))
  | error {i : ℕ} {item : Item} (hi : i ≤ ls.length) (hmet : ∀ k < i, Met ls k)
      (hitem : scheduled ls i = some item) (hnot : ¬Meets ls i item) :
      Outcome ls P (.error (.malformed (i + 1) (item.fault ls[i]?)))

section

variable {β γ : Type} {i : ℕ}

/-- The reader, begun at line `i`, blames the first line that is not met, and answers otherwise. -/
def Reads (ls : List (List Char)) (i : ℕ) (r : Reader β) (P : β → ℕ → Prop) : Prop :=
  i ≤ ls.length → (∀ k < i, Met ls k) → Outcome ls P (r.run (.before ls i))

theorem reads_pure {P : β → ℕ → Prop} {b : β} (h : P b i) : Reads ls i (pure b) P :=
  fun hi hmet => .ok hi hmet h

theorem Reads.bind {r : Reader β} {f : β → Reader γ} {P : β → ℕ → Prop} {Q : γ → ℕ → Prop}
    (hr : Reads ls i r P) (hf : ∀ b j, P b j → Reads ls j (f b) Q) : Reads ls i (r >>= f) Q := by
  intro hi hmet
  have hfirst := hr hi hmet
  rw [StateT.run_bind]
  generalize r.run (.before ls i) = x at hfirst ⊢
  cases hfirst with
  | ok hj hmet hb => exact hf _ _ hb hj hmet
  | error hj hmet hitem hnot => exact .error hj hmet hitem hnot

/-- A line that tells what is scheduled for it is met, as are those before. -/
theorem met_succ (hmet : ∀ k < i, Met ls k) {item : Item} (hitem : scheduled ls i = some item)
    {l : List Char} (hl : ls[i]? = some l) (hfits : item.Fits l) : ∀ k < i + 1, Met ls k := by
  intro k hk
  rcases Nat.lt_succ_iff_lt_or_eq.mp hk with hk | rfl
  · exact hmet k hk
  · intro item' hitem'
    obtain rfl := Option.some.inj (hitem.symm.trans hitem')
    exact ⟨l, hl, hfits⟩

/-- One line is taken, or blamed where it is not there. -/
theorem reads_line {item : Item} (hitem : scheduled ls i = some item) {f : List Char → Reader β}
    {P : β → ℕ → Prop} (hf : ∀ l, ls[i]? = some l → i < ls.length → (∀ k < i, Met ls k) →
      Outcome ls P ((f l).run (.before ls (i + 1)))) :
    Reads ls i (nextLine item.name >>= f) P := by
  intro hi hmet
  cases hl : ls[i]? with
  | none =>
    have hend : ls.drop i = [] := List.drop_eq_nil_of_le (List.getElem?_eq_none_iff.mp hl)
    have hrun : (nextLine item.name >>= f).run (.before ls i) =
        .error (.malformed (i + 1) (item.fault ls[i]?)) := by
      rw [hl, Cursor.before, hend]
      rfl
    rw [hrun]
    refine .error hi hmet hitem ?_
    rintro ⟨l, hline, -⟩
    rw [hl] at hline
    cases hline
  | some l =>
    obtain ⟨hlt, rfl⟩ := List.getElem?_eq_some_iff.mp hl
    have hrun : (nextLine item.name >>= f).run (.before ls i) =
        (f ls[i]).run (.before ls (i + 1)) := by
      rw [Cursor.before, List.drop_eq_getElem_cons hlt]
      rfl
    rw [hrun]
    exact hf _ hl hlt hmet

/-- A line that does not tell its item is blamed for that. -/
theorem outcome_of_not_fits {item : Item} (hlt : i < ls.length) (hmet : ∀ k < i, Met ls k)
    (hitem : scheduled ls i = some item) {l : List Char} (hl : ls[i]? = some l)
    (hnot : ¬item.Fits l) {cause : Malformed} (hcause : item.fault (some l) = cause)
    (P : β → ℕ → Prop) : Outcome ls P (.error (.malformed (i + 1) cause)) := by
  rw [← hcause, ← hl]
  refine .error hlt.le hmet hitem ?_
  rintro ⟨l', hl', hfits⟩
  obtain rfl := Option.some.inj (hl.symm.trans hl')
  exact hnot hfits

/-- The name of a method is taken as it stands. -/
theorem reads_nextLine (hitem : scheduled ls i = some .method) :
    Reads ls i (nextLine "method name") fun l j => j = i + 1 ∧ ls[i]? = some l := by
  rw [← bind_pure (nextLine "method name"), ← Item.name]
  refine reads_line hitem fun l hl hlt hmet => ?_
  exact .ok hlt (met_succ hmet hitem hl trivial) ⟨rfl, hl⟩

/-- An item is read from its line if the line tells it. -/
theorem reads_readItem {item : Item} {value : List Char → Option β} (hread : item.ReadBy value)
    (hitem : scheduled ls i = some item) :
    Reads ls i (readItem item.name value) fun v j => j = i + 1 ∧ ls[i]?.bind value = some v := by
  refine reads_line hitem fun l hl hlt hmet => ?_
  cases hv : value l with
  | none =>
    have hnot : ¬item.Fits l := by simp [hread.fits, hv]
    exact outcome_of_not_fits hlt hmet hitem hl hnot (hread.fault l) _
  | some v =>
    have hfit : item.Fits l := by simp [hread.fits, hv]
    exact .ok hlt (met_succ hmet hitem hl hfit) ⟨rfl, by rw [hl]; exact hv⟩

/-- A section is read if all of its lines tell the item. -/
theorem reads_readItems {item : Item} {value : List Char → Option β} (hread : item.ReadBy value)
    {n : ℕ} (hitem : ∀ k < n, scheduled ls (i + k) = some item) :
    Reads ls i (readItems item.name value n) fun vs j =>
      j = i + n ∧ vs.length = n ∧ ∀ k < n, ls[i + k]?.bind value = vs[k]? := by
  induction n generalizing i with
  | zero => exact reads_pure ⟨rfl, rfl, fun k hk => absurd hk (Nat.not_lt_zero k)⟩
  | succ n ih =>
    refine (reads_readItem hread (hitem 0 n.succ_pos)).bind ?_
    rintro v _ ⟨rfl, hv⟩
    have hrest : ∀ k < n, scheduled ls (i + 1 + k) = some item := by
      intro k hk
      rw [Nat.add_right_comm]
      exact hitem (k + 1) (Nat.succ_lt_succ hk)
    refine (ih hrest).bind ?_
    rintro vs _ ⟨rfl, hlength, hvs⟩
    refine reads_pure ⟨by omega, congrArg Nat.succ hlength, fun k hk => ?_⟩
    cases k with
    | zero => exact hv
    | succ k =>
      have hk := hvs k (Nat.lt_of_succ_lt_succ hk)
      rwa [Nat.add_right_comm] at hk

/-- A status has two ways to be wrong: its line is no number, or a number that is no code. -/
theorem reads_readStatus (hitem : scheduled ls i = some .status) :
    Reads ls i readStatus fun s j => j = i + 1 ∧ statusAt ls i = some s := by
  unfold readStatus readItem
  rw [bind_assoc, ← Item.name]
  refine reads_line hitem fun l hl hlt hmet => ?_
  cases hcode : readWhole l with
  | none =>
    have hnot : ¬Item.status.Fits l := by simp [Item.Fits, hcode]
    exact outcome_of_not_fits hlt hmet hitem hl hnot (by simp [Item.fault, hcode, Item.name]) _
  | some code =>
    simp only [pure_bind]
    cases hstatus : Status.ofCode? code with
    | none =>
      have hnot : ¬Item.status.Fits l := by
        rintro ⟨code', hcode', hrange⟩
        obtain rfl := Option.some.inj (hcode.symm.trans hcode')
        simp [← isSome_ofCode?_iff, hstatus] at hrange
      exact outcome_of_not_fits hlt hmet hitem hl hnot (by simp [Item.fault, hcode]) _
    | some s =>
      have hfit : Item.status.Fits l := by
        refine ⟨code, hcode, isSome_ofCode?_iff.mp ?_⟩
        rw [hstatus]
        rfl
      refine .ok hlt (met_succ hmet hitem hl hfit) ⟨rfl, ?_⟩
      rw [statusAt, hl, Option.bind_some, hcode, Option.bind_some, hstatus]

/-- The reader takes the lines as they are scheduled, and what it has read is what they tell. -/
theorem reads_read : Reads ls 0 read fun e _ => Tells ls e := by
  -- Each item is where the ones before have left the cursor, and this is where it is scheduled.
  refine (reads_readItem Item.readBy_beta scheduled_beta).bind ?_
  rintro beta _ ⟨rfl, hbeta⟩
  refine (reads_readItem Item.readBy_alphaCount scheduled_alphaCount).bind ?_
  rintro n _ ⟨rfl, hn⟩
  refine (reads_readItems Item.readBy_alpha fun k => scheduled_alpha hn).bind ?_
  rintro alpha _ ⟨rfl, rfl, halpha⟩
  refine (reads_readItem Item.readBy_xCount (scheduled_xCount hn)).bind ?_
  rintro m _ ⟨rfl, hm⟩
  refine (reads_readItems Item.readBy_x fun k hk => ?_).bind ?_
  · have h := scheduled_x hn hm hk
    rwa [show 3 + alpha.length + k = 2 + alpha.length + 1 + k by omega] at h
  rintro x _ ⟨rfl, rfl, hx⟩
  rw [show 0 + 1 + 1 + alpha.length + 1 + x.length = 3 + alpha.length + x.length by omega]
  refine (reads_nextLine (scheduled_method hn hm)).bind ?_
  rintro method _ ⟨rfl, hmethod⟩
  rw [show 3 + alpha.length + x.length + 1 = 4 + alpha.length + x.length by omega]
  refine (reads_readStatus (scheduled_status hn hm)).bind ?_
  rintro status _ ⟨rfl, hstatus⟩
  rw [show 4 + alpha.length + x.length + 1 = 5 + alpha.length + x.length by omega]
  refine (reads_readItem Item.readBy_steps (scheduled_steps hn hm)).bind ?_
  rintro steps _ ⟨rfl, hsteps⟩
  refine reads_pure ⟨hbeta, hn, halpha, hm, fun k hk => ?_, ?_, hstatus, hsteps, rfl, rfl⟩
  · rw [← hx k hk, numberAt, show 3 + alpha.length + k = 0 + 1 + 1 + alpha.length + 1 + k by omega]
  · rw [hmethod, String.toList_ofList]

end

/-- A text is read by its lines, trimmed of blanks. It is read if and only if every line that is
scheduled is there and fits, and it is read as what the lines tell. Otherwise the first line that is
missing or does not fit is blamed by its number, counted from one, and for its fault; it is not
farther away than one line beyond the last. -/
theorem text_is_read_by_schedule (text : String) :
    let ls := (Text.lines text.toList).map Text.trim
    ((∃ e, ofText text = .ok e) ↔ ∀ i item, scheduled ls i = some item → Meets ls i item) ∧
    (∀ e, ofText text = .ok e ↔ Tells ls e) ∧
    ∀ err, ofText text = .error err →
      ∃ i item, err = .malformed (i + 1) (item.fault ls[i]?) ∧ i ≤ ls.length ∧
        scheduled ls i = some item ∧ ¬Meets ls i item ∧
        ∀ k < i, ∀ item', scheduled ls k = some item' → Meets ls k item' := by
  intro ls
  have hread : Outcome ls (fun e _ => Tells ls e) (read.run ⟨ls, 0⟩) :=
    reads_read (Nat.zero_le _) fun k hk => absurd hk (Nat.not_lt_zero k)
  have htext : ofText text = (read.run ⟨ls, 0⟩).map (·.1) := rfl
  rw [htext]
  generalize read.run ⟨ls, 0⟩ = result at hread ⊢
  -- What the reader came to decides all three statements at once.
  cases hread with
  | @ok e i hi hmet htells =>
    refine ⟨iff_of_true ⟨e, rfl⟩ fun i item => htells.met i item, fun e' => ?_, ?_⟩
    · refine ⟨fun h => Except.ok.inj h ▸ htells, fun htells' => congrArg Except.ok ?_⟩
      exact htells.unique htells'
    · rintro err ⟨⟩
  | @error i item hi hmet hitem hnot =>
    have hunmet : ¬∀ i item, scheduled ls i = some item → Meets ls i item :=
      fun hall => hnot (hall i item hitem)
    refine ⟨iff_of_false ?_ hunmet, fun e => iff_of_false ?_ fun htells => ?_, ?_⟩
    · rintro ⟨e, ⟨⟩⟩
    · rintro ⟨⟩
    · exact hunmet fun i item => htells.met i item
    · rintro err ⟨⟩
      exact ⟨i, item, rfl, hi, hitem, hnot, hmet⟩

end FailureProbability.Estimate
