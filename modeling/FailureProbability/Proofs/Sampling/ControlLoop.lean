import Mathlib
import FailureProbability.Proofs.Coherence
import FailureProbability.Proofs.Sampling.Adaptive
import FailureProbability.Proofs.Sampling.Stopping

/-!
# The control loop of adaptive sampling

Every run but the last has one of two consequences (`Config.Follows`): with too few failures the
density of the next one is wider around the same centre, otherwise it has the same variances, around
another centre where the run has set one. From one run to the next this tells the density of every
run: its variances by the number of runs with too few failures before it, its centre by the last of
them that set one (`Config.density_of_chain`). Which runs there are, and which of them ends the
loop, is the course of the loop (`Course`), whatever engine makes them.

Arithmetic may round. That a factor was applied so many times is said by iterating the
multiplication and not by a power, which would be another number. Whether the shares and the centres
mean anything is not asked either: a run counts as settled when the comparisons say so.

A run that is told to stop ends the loop before anything else is decided; so does a final one, which
is never followed by another, whatever it finds. Only loops that answer are described: a density
that is refused ends the method with an error.
-/

namespace FailureProbability.Sampling

variable {α : Type} [Scalar α]

/-! ## Every run has started

The status of an estimate is the one of some run, and it has to be told apart from that of an
estimate for which nothing was done. No verdict is `notStarted`, hence no engine ends with it. -/

/-- A verdict on a tally never says that nothing was done. -/
theorem Config.ensures_judge (c : Config α) (m : Model α) (t : Tally α) :
    Runs.Ensures (c.judge m t) fun ended => ended ≠ some .notStarted := by
  refine Runs.ensures_iff.mpr fun j ended j' h => ?_
  rw [Config.exec_judge] at h
  cases h
  intro hverdict
  rcases Config.verdict_eq_some_iff.mp hverdict with ⟨h, -⟩ | ⟨h, -⟩ | ⟨h, -⟩ <;> cases h

theorem ensures_consume {σ : Type} (m : Model α) (c : Config α) (samples : List (Sample α))
    (t : Tally α) :
    Runs.Ensures (consume m c samples t : Sampler σ α _) fun r => r.2 ≠ some .notStarted := by
  induction samples generalizing t with
  | nil => exact Runs.ensures_pure (Option.some_ne_none _).symm
  | cons s rest ih =>
    refine Runs.ensures_rest fun _ => ?_
    refine Runs.ensures_bind (Runs.ensures_lift (c.ensures_judge m _)) fun ended h => ?_
    cases ended with
    | none => exact ih _
    | some status => exact Runs.ensures_pure h

section

variable {σ : Type} [RandomSource σ α]

/-- A run in rounds ends with a verdict or for want of fuel. -/
theorem ensures_rounds (m : Model α) (c : Config α) (d : Density α) (fuel : Nat) (t : Tally α) :
    Runs.Ensures (rounds m c d fuel t : Sampler σ α _) fun r => r.2 ≠ .notStarted := by
  induction fuel generalizing t with
  | zero => exact Runs.ensures_pure (show Status.noConvergence ≠ .notStarted by decide)
  | succ fuel ih =>
    refine Runs.ensures_rest fun _ => Runs.ensures_rest fun samples => ?_
    refine Runs.ensures_bind (ensures_consume m c samples t) fun r h => ?_
    obtain ⟨t, ended⟩ := r
    cases ended with
    | none => exact ih t
    | some status =>
      refine Runs.ensures_rest fun _ => Runs.ensures_pure ?_
      exact fun hstatus => h (congrArg some hstatus)

theorem ensures_buffered (m : Model α) (c : Config α) (d : Density α) :
    Runs.Ensures (buffered m c d : Sampler σ α _) fun o => o.status ≠ .notStarted := by
  refine Runs.ensures_rest fun before => ?_
  refine Runs.ensures_bind (ensures_rounds m c d _ _) fun r h => Runs.ensures_rest fun after => ?_
  exact Runs.ensures_pure h

end

namespace Adaptive

/-! ## The density of the next run

What follows from an outcome is stated as a function of the settings and the outcome, and not as
the branches of the loop. Then the density of any run is a matter of the list of runs before it:
`density_of_chain` goes through that list, and no loop is in sight. -/

/-- A run, by the density that it draws from and its outcome. -/
structure Round (α : Type) where
  density : Density α
  outcome : Outcome α

/-- The share of failing samples. -/
def failingShare (o : Outcome α) : α :=
  Scalar.ofNat o.tally.failed.count / Scalar.ofNat o.tally.count

namespace Config

/-- Too few samples of the run have failed. -/
def HasFew (c : Config α) (o : Outcome α) : Prop := o.tally.failed.count < c.minFailed

instance (c : Config α) (o : Outcome α) : Decidable (c.HasFew o) :=
  inferInstanceAs (Decidable (_ < _))

/-- Enough samples fail, and their share lies between its bounds. -/
structure IsSettled (c : Config α) (o : Outcome α) : Prop where
  enough : c.minFailed ≤ o.tally.failed.count
  above : c.balancedFraction ≤ failingShare o
  below : failingShare o ≤ 1 - c.balancedFraction

theorem isSettled_iff {c : Config α} {o : Outcome α} :
    c.IsSettled o ↔ ¬c.HasFew o ∧ c.isBalanced o.tally = true := by
  unfold HasFew isBalanced
  rw [Nat.not_lt, Bool.and_eq_true, decide_eq_true_iff, decide_eq_true_iff]
  constructor
  · rintro ⟨henough, habove, hbelow⟩
    exact ⟨henough, habove, hbelow⟩
  · rintro ⟨henough, habove, hbelow⟩
    exact ⟨henough, habove, hbelow⟩

/-- The centre that a run sets for the next one. -/
def centre? (c : Config α) (n : Nat) (o : Outcome α) : Option (List α) :=
  if c.HasFew o ∨ c.isBalanced o.tally = true then none else c.nextOffset n o.tally

/-- The density of the run after a run. -/
def next (c : Config α) (n : Nat) (r : Round α) : Density α :=
  if c.HasFew r.outcome then
    ⟨r.density.offset, r.density.varianceFactor.map (· * c.varianceIncrease)⟩
  else ⟨(c.centre? n r.outcome).getD r.density.offset, r.density.varianceFactor⟩

/-- The density of the second run is the one that the first run leads to. -/
def Follows (c : Config α) (n : Nat) (r r' : Round α) : Prop := r'.density = c.next n r

/-- The centre of the first density. -/
def start (c : Config α) (n : Nat) : List α :=
  if c.startOffset.isEmpty then Coordinates.origin n else c.startOffset

/-- How often some runs have widened the density. -/
def widenings (c : Config α) (rounds : List (Round α)) : Nat :=
  rounds.countP fun r => decide (c.HasFew r.outcome)

/-- The last of the centres that some runs have set, or the given one. -/
def centreAfter (c : Config α) (n : Nat) (centre : List α) (rounds : List (Round α)) : List α :=
  (rounds.filterMap fun r => c.centre? n r.outcome).getLastD centre

section

variable {c : Config α} {n : Nat} {r : Round α}

theorem next_of_few (h : c.HasFew r.outcome) :
    c.next n r = ⟨r.density.offset, r.density.varianceFactor.map (· * c.varianceIncrease)⟩ :=
  if_pos h

theorem next_of_not_few (h : ¬c.HasFew r.outcome) :
    c.next n r = ⟨(c.centre? n r.outcome).getD r.density.offset, r.density.varianceFactor⟩ :=
  if_neg h

theorem centre?_of_few {o : Outcome α} (h : c.HasFew o) : c.centre? n o = none := if_pos (.inl h)

theorem centre?_of_isSettled {o : Outcome α} (h : c.IsSettled o) : c.centre? n o = none :=
  if_pos (.inr (isSettled_iff.mp h).2)

/-- A settled run changes nothing, so that a final one draws from the same density. -/
theorem next_of_isSettled (h : c.IsSettled r.outcome) : c.next n r = r.density := by
  rw [next_of_not_few (isSettled_iff.mp h).1, centre?_of_isSettled h]
  rfl

theorem next_of_widened {d' : Density α} (h : c.HasFew r.outcome)
    (hd : r.density.withVarianceScaled c.varianceIncrease = .ok d') : d' = c.next n r := by
  rw [next_of_few h]
  exact (Density.eq_of_new hd).2

/-- A density that was moved is the one that the outcome leads to, also if it has stayed where it
was. -/
theorem next_of_moved {d' : Density α} (hmany : ¬c.HasFew r.outcome)
    (hnot : ¬c.isBalanced r.outcome.tally = true)
    (hd : c.recentre n r.density r.outcome.tally = .ok d') : d' = c.next n r := by
  have hcentre : c.centre? n r.outcome = c.nextOffset n r.outcome.tally :=
    if_neg (not_or.mpr ⟨hmany, hnot⟩)
  rw [next_of_not_few hmany, hcentre]
  unfold recentre at hd
  cases hoffset : c.nextOffset n r.outcome.tally with
  | none =>
    rw [hoffset] at hd
    exact (Except.ok.inj hd).symm
  | some offset =>
    rw [hoffset] at hd
    exact (Density.eq_of_new hd).2

theorem centreAfter_cons (centre : List α) (rounds : List (Round α)) :
    c.centreAfter n centre (r :: rounds) =
      c.centreAfter n ((c.centre? n r.outcome).getD centre) rounds := by
  unfold centreAfter
  rw [List.filterMap_cons]
  cases c.centre? n r.outcome with
  | none => rfl
  | some offset => exact List.getLastD_cons ..

omit [Scalar α] in
theorem widenings_cons_of_few (h : c.HasFew r.outcome) (rounds : List (Round α)) :
    c.widenings (r :: rounds) = c.widenings rounds + 1 :=
  List.countP_cons_of_pos (decide_eq_true h)

omit [Scalar α] in
theorem widenings_cons_of_not_few (h : ¬c.HasFew r.outcome) (rounds : List (Round α)) :
    c.widenings (r :: rounds) = c.widenings rounds :=
  List.countP_cons_of_neg (by rwa [decide_eq_true_iff])

/-- The density of a run that follows others, from that of the first. -/
theorem density_of_chain {first : Round α} {rest : List (Round α)}
    (hchain : (first :: rest).IsChain (c.Follows n)) {centre : List α} {k : Nat} {v : α}
    (hfirst : first.density = ⟨centre, List.replicate k v⟩) {earlier later : List (Round α)}
    (hcut : first :: rest = earlier ++ r :: later) :
    r.density = ⟨c.centreAfter n centre earlier,
      List.replicate k ((· * c.varianceIncrease)^[c.widenings earlier] v)⟩ := by
  -- By induction on the earlier runs: after the first one the rest start from another density.
  induction earlier generalizing first rest centre v with
  | nil =>
    obtain ⟨rfl, -⟩ := List.cons.inj hcut
    exact hfirst
  | cons r' earlier ih =>
    obtain ⟨rfl, hrest⟩ := List.cons.inj hcut
    cases rest with
    | nil => exact absurd hrest.symm (List.append_ne_nil_of_right_ne_nil _ (List.cons_ne_nil _ _))
    | cons second rest =>
      obtain ⟨hfollows, hchain⟩ := List.isChain_cons_cons.mp hchain
      unfold Follows at hfollows
      rw [centreAfter_cons]
      by_cases hfew : c.HasFew first.outcome
      · rw [next_of_few hfew, hfirst, List.map_replicate] at hfollows
        rw [ih hchain hfollows hrest, centre?_of_few hfew, widenings_cons_of_few hfew,
          Function.iterate_succ_apply]
        rfl
      · rw [next_of_not_few hfew, hfirst] at hfollows
        rw [ih hchain hfollows hrest, widenings_cons_of_not_few hfew]

end

end Config

/-! ## The course of the loop

One constructor for each way in which the loop goes on or ends. A run that is told to stop comes
first, also if it were settled; a final run closes the loop whatever it finds. A widened density
sends the source back to its beginning, and a density that has moved does not. -/

/-- So many runs are left; they are made until one of them ends the loop. -/
inductive Course {σ : Type} [RandomSource σ α] (run : Engine σ α) (c : Config α) (m : Model α) :
    Nat → Density α → Supply σ α → Journal α → List (Round α) → Option (Round α) → Status →
      Supply σ α → Journal α → Prop
  | exhausted {d : Density α} {s : Supply σ α} {j : Journal α} :
      Course run c m 0 d s j [] none .noConvergence s j
  | stopped {left : Nat} {d : Density α} {o : Outcome α} {s s' : Supply σ α} {j j' : Journal α}
      (hrun : RunWith.exec (run c.sampling d) s j = (.ok o, s', j'))
      (hstatus : o.status = .abortedByUser) :
      Course run c m (left + 1) d s j [⟨d, o⟩] none o.status s' j'
  | settled {left : Nat} {d : Density α} {o : Outcome α} {s s' : Supply σ α} {j j' : Journal α}
      (hrun : RunWith.exec (run c.sampling d) s j = (.ok o, s', j'))
      (hstatus : o.status ≠ .abortedByUser) (hsettled : c.IsSettled o)
      (hscale : c.finalRunScale ≤ 1) :
      Course run c m (left + 1) d s j [⟨d, o⟩] none o.status s' j'
  | final {left : Nat} {d : Density α} {o o' : Outcome α} {s s' s'' : Supply σ α}
      {j j' j'' : Journal α}
      (hrun : RunWith.exec (run c.sampling d) s j = (.ok o, s', j'))
      (hstatus : o.status ≠ .abortedByUser) (hsettled : c.IsSettled o)
      (hscale : ¬c.finalRunScale ≤ 1)
      (hfinal : RunWith.exec (run c.finalSampling d) s' j' = (.ok o', s'', j'')) :
      Course run c m (left + 1) d s j [⟨d, o⟩] (some ⟨d, o'⟩) o'.status s'' j''
  | widened {left : Nat} {d d' : Density α} {o : Outcome α} {s s' s'' : Supply σ α}
      {j j' j'' : Journal α} {rounds : List (Round α)} {final : Option (Round α)} {status : Status}
      (hrun : RunWith.exec (run c.sampling d) s j = (.ok o, s', j'))
      (hstatus : o.status ≠ .abortedByUser) (hfew : c.HasFew o)
      (hd : d.withVarianceScaled c.varianceIncrease = .ok d')
      (hrest : Course run c m left d' s'.restart.clear j' rounds final status s'' j'') :
      Course run c m (left + 1) d s j (⟨d, o⟩ :: rounds) final status s'' j''
  | moved {left : Nat} {d d' : Density α} {o : Outcome α} {s s' s'' : Supply σ α}
      {j j' j'' : Journal α} {rounds : List (Round α)} {final : Option (Round α)} {status : Status}
      (hrun : RunWith.exec (run c.sampling d) s j = (.ok o, s', j'))
      (hstatus : o.status ≠ .abortedByUser) (hmany : ¬c.HasFew o)
      (hnot : ¬c.isBalanced o.tally = true)
      (hd : c.recentre m.dimension d o.tally = .ok d')
      (hrest : Course run c m left d' s' j' rounds final status s'' j'') :
      Course run c m (left + 1) d s j (⟨d, o⟩ :: rounds) final status s'' j''

/-- The runs of a loop, and a final one. -/
def executed (rounds : List (Round α)) (final : Option (Round α)) : List (Round α) :=
  rounds ++ final.toList

section

variable {σ : Type} [RandomSource σ α] {run : Engine σ α} {c : Config α} {m : Model α} {left : Nat}
  {d : Density α} {s s' : Supply σ α} {j j' : Journal α} {rounds : List (Round α)}
  {final : Option (Round α)} {status : Status}

/-- No more runs are made than were left; a final one is not counted. -/
theorem Course.length_le (h : Course run c m left d s j rounds final status s' j') :
    rounds.length ≤ left := by
  induction h with
  | exhausted => exact Nat.le_refl 0
  | stopped => exact Nat.le_add_left 1 _
  | settled => exact Nat.le_add_left 1 _
  | final => exact Nat.le_add_left 1 _
  | widened _ _ _ _ _ ih => exact Nat.succ_le_succ ih
  | moved _ _ _ _ _ _ ih => exact Nat.succ_le_succ ih

theorem Course.density_head (h : Course run c m left d s j rounds final status s' j') :
    ∀ r ∈ (executed rounds final).head?, r.density = d := by
  intro r hr
  cases h with
  | exhausted => cases hr
  | stopped => cases hr; rfl
  | settled => cases hr; rfl
  | final => cases hr; rfl
  | widened => cases hr; rfl
  | moved => cases hr; rfl

/-- Every run follows the one before. -/
theorem Course.isChain (h : Course run c m left d s j rounds final status s' j') :
    (executed rounds final).IsChain (c.Follows m.dimension) := by
  induction h with
  | exhausted => exact .nil
  | stopped => exact .singleton _
  | settled => exact .singleton _
  | final _ _ hsettled =>
    refine .cons_cons ?_ (.singleton _)
    exact (Config.next_of_isSettled (r := ⟨_, _⟩) hsettled).symm
  | widened _ _ hfew hd hrest ih =>
    refine ih.cons fun r hr => ?_
    exact (hrest.density_head r hr).trans (Config.next_of_widened (r := ⟨_, _⟩) hfew hd)
  | moved _ _ hmany hnot hd hrest ih =>
    refine ih.cons fun r hr => ?_
    exact (hrest.density_head r hr).trans (Config.next_of_moved (r := ⟨_, _⟩) hmany hnot hd)

theorem Course.status_ne
    (hrun : ∀ c d, Runs.Ensures (run c d) fun o => o.status ≠ .notStarted)
    (h : Course run c m left d s j rounds final status s' j') : status ≠ .notStarted := by
  induction h with
  | exhausted => decide
  | stopped hfirst => exact hrun _ _ _ _ _ _ _ hfirst
  | settled hfirst => exact hrun _ _ _ _ _ _ _ hfirst
  | final _ _ _ _ hfinal => exact hrun _ _ _ _ _ _ _ hfinal
  | widened _ _ _ _ _ ih => exact ih
  | moved _ _ _ _ _ _ ih => exact ih

/-- A loop that a run has ended, which was told to stop or was settled. The status is that of the
last run of all. -/
structure EndsWith (c : Config α) (rounds : List (Round α)) (final : Option (Round α))
    (status : Status) (regular last : Round α) : Prop where
  atRegular : rounds.getLast? = some regular
  atLast : (executed rounds final).getLast? = some last
  ended : last.outcome.status = .abortedByUser ∨ c.IsSettled regular.outcome
  status : status = last.outcome.status

/-- A loop that has made all its runs without an end. -/
structure RunsOut (c : Config α) (left : Nat) (rounds : List (Round α)) (final : Option (Round α))
    (status : Status) : Prop where
  length : rounds.length = left
  final : final = none
  status : status = .noConvergence
  going : ∀ r ∈ rounds, r.outcome.status ≠ .abortedByUser ∧ ¬c.IsSettled r.outcome

theorem EndsWith.cons {regular last : Round α} (h : EndsWith c rounds final status regular last)
    (r : Round α) : EndsWith c (r :: rounds) final status regular last := by
  refine ⟨?_, ?_, h.ended, h.status⟩
  · rw [List.getLast?_cons, h.atRegular]
    rfl
  · have hlast := h.atLast
    unfold executed at hlast ⊢
    rw [List.cons_append, List.getLast?_cons, hlast]
    rfl

theorem RunsOut.cons (h : RunsOut c left rounds final status) {r : Round α}
    (hstatus : r.outcome.status ≠ .abortedByUser) (hnot : ¬c.IsSettled r.outcome) :
    RunsOut c (left + 1) (r :: rounds) final status :=
  ⟨congrArg Nat.succ h.length, h.final, h.status, List.forall_mem_cons.mpr ⟨⟨hstatus, hnot⟩, h.going⟩⟩

/-- The loop is ended by one of its runs, or no run is left. -/
theorem Course.ended (h : Course run c m left d s j rounds final status s' j') :
    (∃ regular last, EndsWith c rounds final status regular last) ∨
      RunsOut c left rounds final status := by
  induction h with
  | exhausted => exact .inr ⟨rfl, rfl, rfl, fun r hr => absurd hr List.not_mem_nil⟩
  | stopped _ hstatus => exact .inl ⟨_, _, rfl, rfl, .inl hstatus, rfl⟩
  | settled _ _ hsettled => exact .inl ⟨_, _, rfl, rfl, .inr hsettled, rfl⟩
  | final _ _ hsettled => exact .inl ⟨_, _, rfl, rfl, .inr hsettled, rfl⟩
  | widened _ hstatus hfew _ _ ih =>
    refine ih.imp (fun ⟨regular, last, h⟩ => ⟨regular, last, h.cons _⟩) fun h => h.cons hstatus ?_
    exact fun hsettled => (Config.isSettled_iff.mp hsettled).1 hfew
  | moved _ hstatus _ hnot _ _ ih =>
    refine ih.imp (fun ⟨regular, last, h⟩ => ⟨regular, last, h.cons _⟩) fun h => h.cons hstatus ?_
    exact fun hsettled => hnot (Config.isSettled_iff.mp hsettled).2

/-! ## The estimate

The steps of an estimate are the samples of all runs, and its direction is that of the last one.
Both are told from the runs that are left, with what was known before them as a start, so that the
induction on the course adds one run at a time. -/

/-- What an estimate tells of the runs after so many steps, where `before` is the outcome before
them. -/
structure Tells (m : Model α) (steps : Nat) (before : Option (Outcome α)) (runs : List (Round α))
    (e : Estimate α) : Prop where
  steps : e.steps = steps + (runs.map (·.outcome.tally.count)).sum
  direction : ∃ o, (runs.getLast?.map (·.outcome)).or before = some o ∧
    e.direction = o.tally.direction m.dimension .weightedMean

omit [RandomSource σ α] in
/-- What the end of a loop tells is what it was given, with the direction of the last outcome. -/
theorem told_of_exec_finish {o : Outcome α} {steps evaluations : Nat} {e : Estimate α}
    (h : RunWith.exec (finish m o status steps evaluations) s j = (.ok e, s', j')) :
    e.status = status ∧ e.steps = steps ∧
      e.direction = o.tally.direction m.dimension .weightedMean ∧ s' = s ∧ j' = j := by
  rw [exec_finish] at h
  dsimp only at h
  cases hx : m.x (o.tally.direction m.dimension .weightedMean).designPoint with
  | error err =>
    rw [hx] at h
    cases h
  | ok x =>
    rw [hx] at h
    cases h
    exact ⟨rfl, rfl, rfl, rfl, rfl⟩

theorem Tells.cons {o : Outcome α} {steps : Nat} {before : Option (Outcome α)}
    {runs : List (Round α)} {e : Estimate α} (h : Tells m (steps + o.tally.count) (some o) runs e) :
    Tells m steps before (⟨d, o⟩ :: runs) e := by
  obtain ⟨o', ho', hdirection⟩ := h.direction
  refine ⟨?_, o', ?_, hdirection⟩
  · rw [h.steps, List.map_cons, List.sum_cons, Nat.add_assoc]
  · rw [← ho', List.getLast?_cons]
    cases runs.getLast? <;> rfl

/-- A loop with runs left that has answered has made the next of them, and then one of five things
has happened: the run was told to stop, or too few samples failed and the density was widened, or
the run was settled and there was a final one or none, or the density was moved. -/
theorem cases_of_exec_loops {steps evaluations : Nat} {before : Option (Outcome α)} {e : Estimate α}
    (h : RunWith.exec (loops run c m (left + 1) d steps evaluations before) s j = (.ok e, s', j')) :
    ∃ o s₁ j₁, RunWith.exec (run c.sampling d) s j = (.ok o, s₁, j₁) ∧
      let steps := steps + o.tally.count
      let evaluations := evaluations + o.evaluations
      (o.status = .abortedByUser ∧
        RunWith.exec (finish m o .abortedByUser steps evaluations) s₁ j₁ = (.ok e, s', j')) ∨
      o.status ≠ .abortedByUser ∧
        ((c.HasFew o ∧ ∃ d', d.withVarianceScaled c.varianceIncrease = .ok d' ∧
          RunWith.exec (loops run c m left d' steps evaluations (some o)) s₁.restart.clear j₁ =
            (.ok e, s', j')) ∨
        (c.IsSettled o ∧ c.finalRunScale ≤ 1 ∧
          RunWith.exec (finish m o o.status steps evaluations) s₁ j₁ = (.ok e, s', j')) ∨
        (c.IsSettled o ∧ ¬c.finalRunScale ≤ 1 ∧ ∃ o' s₂ j₂,
          RunWith.exec (run c.finalSampling d) s₁ j₁ = (.ok o', s₂, j₂) ∧
          RunWith.exec (finish m o' o'.status (steps + o'.tally.count)
            (evaluations + o'.evaluations)) s₂ j₂ = (.ok e, s', j')) ∨
        (¬c.HasFew o ∧ ¬c.isBalanced o.tally = true ∧
          ∃ d', c.recentre m.dimension d o.tally = .ok d' ∧
          RunWith.exec (loops run c m left d' steps evaluations (some o)) s₁ j₁ =
            (.ok e, s', j'))) := by
  obtain ⟨o, s₁, j₁, hrun, h⟩ := RunWith.exec_bind_eq_ok.mp h
  refine ⟨o, s₁, j₁, hrun, ?_⟩
  dsimp only at h ⊢
  split at h
  case isTrue hstopped => exact .inl ⟨hstopped, h⟩
  case isFalse hgoes =>
    refine .inr ⟨hgoes, ?_⟩
    split at h
    case isTrue hfew =>
      obtain ⟨d', hd, h⟩ := RunWith.exec_ofExcept_bind_eq_ok.mp h
      exact .inl ⟨hfew, d', hd, h⟩
    case isFalse hmany =>
      split at h
      case isTrue hbalanced =>
        have hsettled : c.IsSettled o := Config.isSettled_iff.mpr ⟨hmany, hbalanced⟩
        split at h
        case isTrue hscale => exact .inr (.inl ⟨hsettled, hscale, h⟩)
        case isFalse hscale =>
          obtain ⟨o', s₂, j₂, hfinal, h⟩ := RunWith.exec_bind_eq_ok.mp h
          exact .inr (.inr (.inl ⟨hsettled, hscale, o', s₂, j₂, hfinal, h⟩))
      case isFalse hnot =>
        obtain ⟨d', hd, h⟩ := RunWith.exec_ofExcept_bind_eq_ok.mp h
        exact .inr (.inr (.inr ⟨hmany, hnot, d', hd, h⟩))

/-- A loop has a course, and its estimate tells the runs of it. -/
theorem course_of_exec_loops {steps evaluations : Nat} {before : Option (Outcome α)} {e : Estimate α}
    (hbefore : left = 0 → before.isSome = true)
    (h : RunWith.exec (loops run c m left d steps evaluations before) s j = (.ok e, s', j')) :
    ∃ rounds final, Course run c m left d s j rounds final e.status s' j' ∧
      Tells m steps before (executed rounds final) e := by
  induction left generalizing d steps evaluations before s j with
  | zero =>
    obtain ⟨o, rfl⟩ := Option.isSome_iff_exists.mp (hbefore rfl)
    obtain ⟨hstatus, hsteps, hdirection, rfl, rfl⟩ := told_of_exec_finish h
    rw [hstatus]
    exact ⟨[], none, .exhausted, hsteps, o, rfl, hdirection⟩
  | succ left ih =>
    obtain ⟨o, s₁, j₁, hrun, ⟨hstopped, h⟩ | ⟨hgoes, ⟨hfew, d', hd, h⟩ |
      ⟨hsettled, hscale, h⟩ | ⟨hsettled, hscale, o', s₂, j₂, hfinal, h⟩ |
      ⟨hmany, hnot, d', hd, h⟩⟩⟩ := cases_of_exec_loops h
    · obtain ⟨hstatus, hsteps, hdirection, rfl, rfl⟩ := told_of_exec_finish h
      rw [hstatus, ← hstopped]
      exact ⟨_, _, .stopped hrun hstopped, hsteps, o, rfl, hdirection⟩
    · obtain ⟨rounds, final, hcourse, htells⟩ := ih (fun _ => rfl) h
      exact ⟨_, final, .widened hrun hgoes hfew hd hcourse, htells.cons⟩
    · obtain ⟨hstatus, hsteps, hdirection, rfl, rfl⟩ := told_of_exec_finish h
      rw [hstatus]
      exact ⟨_, _, .settled hrun hgoes hsettled hscale, hsteps, o, rfl, hdirection⟩
    · -- The steps of the final run come on top of those of the settled one.
      obtain ⟨hstatus, hsteps, hdirection, rfl, rfl⟩ := told_of_exec_finish h
      rw [hstatus]
      refine ⟨_, _, .final hrun hgoes hsettled hscale hfinal, ?_, o', rfl, hdirection⟩
      rw [hsteps, Nat.add_assoc]
      rfl
    · obtain ⟨rounds, final, hcourse, htells⟩ := ih (fun _ => rfl) h
      exact ⟨_, final, .moved hrun hgoes hmany hnot hd hcourse, htells.cons⟩

end

/-- What a loop has done: how many runs it has made, with which densities, and what its estimate is.
Here `regular` is the last run but for a final one, and `last` the last run of all. -/
structure Controls (c : Config α) (m : Model α) (rounds : List (Round α)) (final : Option (Round α))
    (regular last : Round α) (e : Estimate α) : Prop where
  budget : rounds.length ≤ c.maxLoops
  atRegular : rounds.getLast? = some regular
  atLast : (executed rounds final).getLast? = some last
  follows : (executed rounds final).IsChain (c.Follows m.dimension)
  density : ∀ earlier r later, executed rounds final = earlier ++ r :: later →
    r.density = ⟨c.centreAfter m.dimension (c.start m.dimension) earlier,
      List.replicate m.dimension
        ((· * c.varianceIncrease)^[c.widenings earlier] c.startVarianceFactor)⟩
  direction : e.direction = last.outcome.tally.direction m.dimension .weightedMean
  steps : e.steps = ((executed rounds final).map (·.outcome.tally.count)).sum
  ended : last.outcome.status = .abortedByUser ∨ c.IsSettled regular.outcome →
    e.status = last.outcome.status
  exhausted : ¬(last.outcome.status = .abortedByUser ∨ c.IsSettled regular.outcome) →
    e.status = .noConvergence ∧ rounds.length = c.maxLoops
  started : e.status ≠ .notStarted

section

variable {c : Config α} {m : Model α} {d : Density α} {rounds : List (Round α)}
  {final : Option (Round α)}

theorem Config.eq_of_density {n : Nat} (h : c.density n = .ok d) :
    d = ⟨c.start n, List.replicate n c.startVarianceFactor⟩ := (Density.eq_of_new h).2

/-- The densities of all runs of a course. -/
theorem Course.density_eq {σ : Type} [RandomSource σ α] {run : Engine σ α} {left : Nat}
    {s s' : Supply σ α} {j j' : Journal α} {status : Status}
    (h : Course run c m left d s j rounds final status s' j')
    (hd : c.density m.dimension = .ok d) {earlier later : List (Round α)} {r : Round α}
    (hcut : executed rounds final = earlier ++ r :: later) :
    r.density = ⟨c.centreAfter m.dimension (c.start m.dimension) earlier,
      List.replicate m.dimension
        ((· * c.varianceIncrease)^[c.widenings earlier] c.startVarianceFactor)⟩ := by
  have hchain := h.isChain
  have hhead := h.density_head
  generalize executed rounds final = runs at hchain hhead hcut
  cases runs with
  | nil => exact absurd hcut.symm (List.append_ne_nil_of_right_ne_nil _ (List.cons_ne_nil _ _))
  | cons first rest =>
    have hfirst : first.density = d := hhead first rfl
    rw [Config.eq_of_density hd] at hfirst
    exact Config.density_of_chain hchain hfirst hcut

/-- A loop that has made all its runs has a last one, which has settled nothing. -/
theorem RunsOut.exists_last {left : Nat} {status : Status}
    (h : RunsOut c left rounds final status) (hleft : 0 < left) :
    ∃ r, rounds.getLast? = some r ∧ (executed rounds final).getLast? = some r ∧
      ¬(r.outcome.status = .abortedByUser ∨ c.IsSettled r.outcome) := by
  have hne : rounds ≠ [] := by
    rw [← List.length_pos_iff, h.length]
    exact hleft
  have hlast := List.getLast?_eq_getLast_of_ne_nil hne
  refine ⟨rounds.getLast hne, hlast, ?_, ?_⟩
  · rw [executed, h.final]
    exact (congrArg List.getLast? (List.append_nil rounds)).trans hlast
  · obtain ⟨hstatus, hnot⟩ := h.going _ (List.getLast_mem hne)
    exact not_or.mpr ⟨hstatus, hnot⟩

/-- **Control loop.** An estimate comes from at most as many runs as the settings allow, and at most
one final run. Their densities are told by the runs before them, direction and steps are those of
the last run and of all runs, and the status is that of the last run if that was told to stop or the
one before was settled, and otherwise tells that no run was left. -/
theorem adaptive_loop_is_controlled (hc : c.validate = .ok ()) {e : Estimate α} {j j' : Journal α}
    (h : (estimate c m).exec j = (.ok e, j')) :
    ∃ d s' rounds final regular last, c.density m.dimension = .ok d ∧
      Course (buffered m) c m c.maxLoops d (.fresh c.sampling.source true) j rounds final e.status
        s' j' ∧
      Controls c m rounds final regular last e := by
  have hpos := Config.maxLoops_pos hc
  obtain ⟨hanswer, hjournal⟩ := Prod.mk.inj h
  obtain ⟨s', hrun⟩ : ∃ s', RunWith.exec (estimateOn (buffered m) c m)
      (.fresh c.sampling.source true) j = (.ok e, s', j') :=
    ⟨_, Prod.ext hanswer (Prod.ext rfl hjournal)⟩
  obtain ⟨d, hd, hloops⟩ := RunWith.exec_ofExcept_bind_eq_ok.mp hrun
  obtain ⟨rounds, final, hcourse, htells⟩ :=
    course_of_exec_loops (fun hzero => absurd hzero hpos.ne') hloops
  obtain ⟨o, ho, hdirection⟩ := htells.direction
  rw [Option.or_none, Option.map_eq_some_iff] at ho
  obtain ⟨last, hlast, rfl⟩ := ho
  have hsteps := htells.steps
  rw [Nat.zero_add] at hsteps
  have hstarted := hcourse.status_ne (ensures_buffered m)
  rcases hcourse.ended with ⟨regular, last', hends⟩ | hout
  · -- A run was told to stop or settled the matter.
    obtain rfl := Option.some.inj (hlast.symm.trans hends.atLast)
    exact ⟨d, s', rounds, final, regular, last, hd, hcourse, hcourse.length_le, hends.atRegular,
      hlast, hcourse.isChain, fun _ _ _ => hcourse.density_eq hd, hdirection, hsteps,
      fun _ => hends.status, fun hnot => absurd hends.ended hnot, hstarted⟩
  · -- No run was left.
    obtain ⟨r, hregular, hlast', hnot⟩ := hout.exists_last hpos
    obtain rfl := Option.some.inj (hlast.symm.trans hlast')
    exact ⟨d, s', rounds, final, last, last, hd, hcourse, hcourse.length_le, hregular,
      hlast, hcourse.isChain, fun _ _ _ => hcourse.density_eq hd, hdirection, hsteps,
      fun hended => absurd hended hnot, fun _ => ⟨hout.status, hout.length⟩, hstarted⟩

end

/-- Two runs of a single sample each. -/
def twoRuns : Config Float := ⟨⟨1, 1, 0.1, 0.1, 0, .chacha, true, 1⟩, [], 1, 2, 1, 0.1, 1.5, 1, false⟩

/-- A single variable, and no failure anywhere. -/
def neverFails : Model Float := ⟨.standardNormals 1, fun _ => .ok 1, 1, .silent⟩

/-- Without any failure both runs have too few, and no run is left to settle anything. -/
theorem adaptive_loop_is_controlled_twoRuns : twoRuns.validate = .ok () ∧
    ∃ e j' rounds final regular last, (estimate twoRuns neverFails).exec .empty = (.ok e, j') ∧
      Controls twoRuns neverFails rounds final regular last e ∧ e.status = .noConvergence ∧
      e.steps = 2 := by
  have hvalid : twoRuns.validate = .ok () := rfl
  have hrun : ((estimate twoRuns neverFails).exec .empty).1.toOption.map (fun e =>
      (e.status, e.steps)) = some (.noConvergence, 2) := by decide +kernel
  rcases h : (estimate twoRuns neverFails).exec .empty with ⟨err | e, j'⟩
  · rw [h] at hrun
    cases hrun
  · rw [h] at hrun
    obtain ⟨hstatus, hsteps⟩ := Prod.mk.inj (Option.some.inj hrun)
    obtain ⟨-, -, rounds, final, regular, last, -, -, hcontrols⟩ :=
      adaptive_loop_is_controlled hvalid h
    exact ⟨hvalid, e, j', rounds, final, regular, last, rfl, hcontrols, hstatus, hsteps⟩

end Adaptive

end FailureProbability.Sampling
