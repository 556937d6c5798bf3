import FailureProbability.Proofs.Sampling.Step

/-!
# What becomes of the draws

The buffered engine draws ahead, so that at the end of a run some vectors are still pending. Every
vector drawn is in one of two places: in the tally, or pending (`Ledger`). This holds of every run
that has answered, whatever the monitor does. The number of pending vectors is below a chunk, and
with the tallied ones they keep to the budget, unless vectors were left by a run before.

The ledger is kept before the supply is settled: a supply that is not circular gives its pending
vectors up at the end of a run, and they are in neither place then. What they were is still told by
the stream, of which they are a piece.

Vectors are counted, not points or values. Two of them may be alike, and nothing here depends on
what the source yields.
-/

namespace FailureProbability.Sampling

variable {σ α : Type} [Scalar α]

/-! ## Tallies of vectors -/

/-- The tally of vectors, one after the other, if the limit state has a value at each. -/
def tallyOf (m : Model α) (d : Density α) : List (List α) → Tally α → Except (Error α) (Tally α)
  | [], t => .ok t
  | v :: vs, t => do
    let z ← m.value (d.sample v).1
    tallyOf m d vs (t.add (d.sample v).1 z (d.sample v).2)

theorem tallyOf_cons_eq_ok {m : Model α} {d : Density α} {v : List α} {vs : List (List α)}
    {t t' : Tally α} :
    tallyOf m d (v :: vs) t = .ok t' ↔ ∃ z, m.value (d.sample v).1 = .ok z ∧
      tallyOf m d vs (t.add (d.sample v).1 z (d.sample v).2) = .ok t' :=
  bind_eq_ok

theorem tallyOf_append {m : Model α} {d : Density α} {vs ws : List (List α)} {t t₁ t' : Tally α}
    (h : tallyOf m d vs t = .ok t₁) (h' : tallyOf m d ws t₁ = .ok t') :
    tallyOf m d (vs ++ ws) t = .ok t' := by
  induction vs generalizing t with
  | nil =>
    cases h
    exact h'
  | cons v vs ih =>
    obtain ⟨z, hz, h⟩ := tallyOf_cons_eq_ok.mp h
    exact tallyOf_cons_eq_ok.mpr ⟨z, hz, ih h⟩

/-- A tally counts its vectors, failing or not. -/
theorem count_of_tallyOf {m : Model α} {d : Density α} {vs : List (List α)} {t t' : Tally α}
    (h : tallyOf m d vs t = .ok t') : t'.count = t.count + vs.length := by
  induction vs generalizing t with
  | nil =>
    cases h
    rfl
  | cons v vs ih =>
    obtain ⟨z, -, h⟩ := tallyOf_cons_eq_ok.mp h
    rw [ih h, Tally.count_add, List.length_cons]
    omega

/-! ## One round -/

/-- What the tallying of evaluated vectors has done: `used` were tallied and the others are still
pending. It stops in the middle only when the run ends. -/
structure Consumed (m : Model α) (c : Config α) (d : Density α) (t t' : Tally α)
    (ended : Option Status) (p p' : Supply σ α) (j j' : Journal α) (used : List (List α)) :
    Prop where
  tally : tallyOf m d used t = .ok t'
  pending : p.pending = used ++ p'.pending
  source : p'.source = p.source
  circular : p'.circular = p.circular
  evaluations : j'.evaluations = j.evaluations
  /-- A run ends with a sample. -/
  ended_pos : ended ≠ none → used ≠ []
  /-- A run that goes on has no vectors left, and budget. -/
  goes_on : ended = none → p'.pending = [] ∧ (used ≠ [] → t'.count < c.maxSamples)

/-- One more vector in front, at whose sample the run goes on. -/
theorem Consumed.cons {m : Model α} {c : Config α} {d : Density α} {t t' : Tally α}
    {ended : Option Status} {p p' : Supply σ α} {j j' : Journal α} {v : List α}
    {used : List (List α)} {s : Sample α} (hs : d.sample v = (s.u, s.weight))
    (hz : m.value s.u = .ok s.z) (hj : c.judged m j (t.add s.u s.z s.weight) = none)
    (hp : p.pending = v :: p.pending.drop 1)
    (h : Consumed m c d (t.add s.u s.z s.weight) t' ended
      { p with pending := p.pending.drop 1 } p' (c.noted m j (t.add s.u s.z s.weight)) j' used) :
    Consumed m c d t t' ended p p' j j' (v :: used) where
  tally := tallyOf_cons_eq_ok.mpr ⟨s.z, by rw [hs]; exact hz, by rw [hs]; exact h.tally⟩
  pending := by
    have hpending : p.pending.drop 1 = used ++ p'.pending := h.pending
    rw [hp, hpending, List.cons_append]
  source := h.source
  circular := h.circular
  evaluations := h.evaluations
  ended_pos _ := by simp
  goes_on hnone := by
    -- If nothing follows, it is this sample that was judged not to be the last.
    refine ⟨(h.goes_on hnone).1, fun _ => ?_⟩
    cases used with
    | nil =>
      cases h.tally
      exact Config.lt_of_judged hj
    | cons w used => exact (h.goes_on hnone).2 (by simp)

/-- Tallying takes the first of the pending vectors, in their order. -/
theorem consumed_of_exec {m : Model α} {c : Config α} {d : Density α} {t t' : Tally α}
    {ended : Option Status} {p p' : Supply σ α} {j j' : Journal α} {samples : List (Sample α)}
    (hsamples : Evaluated m d p.pending samples)
    (h : RunWith.exec (consume m c samples t) p j = (.ok (t', ended), p', j')) :
    ∃ used, Consumed m c d t t' ended p p' j j' used := by
  generalize hvs : p.pending = vs at hsamples
  induction hsamples generalizing t p j with
  | nil =>
    cases h
    exact ⟨[], rfl, rfl, rfl, rfl, rfl, fun h => absurd rfl h,
      fun _ => ⟨hvs, fun h => absurd rfl h⟩⟩
  | @cons v s vs samples hs hz _ ih =>
    have hdrop : p.pending.drop 1 = vs := by rw [hvs]; rfl
    rw [exec_consume_cons] at h
    dsimp only at h
    cases hj : c.judged m j (t.add s.u s.z s.weight) with
    | none =>
      rw [hj] at h
      obtain ⟨used, hused⟩ := ih h hdrop
      exact ⟨v :: used, hused.cons hs hz hj (by rw [hdrop, hvs])⟩
    | some st =>
      -- The run ends here, and what comes after this sample stays pending.
      rw [hj] at h
      cases h
      refine ⟨[v], tallyOf_cons_eq_ok.mpr ⟨s.z, by rw [hs]; exact hz, by rw [hs]; rfl⟩, ?_, rfl,
        rfl, rfl, fun _ => by simp, fun h => by cases h⟩
      show p.pending = [v] ++ p.pending.drop 1
      rw [hdrop, hvs]
      rfl

/-- A run that goes on after a chunk has tallied something, and has budget. -/
theorem Consumed.progress {m : Model α} {c : Config α} {d : Density α} {t t' : Tally α}
    {p p' : Supply σ α} {j j' : Journal α} {used : List (List α)}
    (h : Consumed m c d t t' none p p' j j' used) (hpending : p.pending ≠ []) :
    t.count < t'.count ∧ t'.count < c.maxSamples := by
  obtain ⟨hnil, hgoing⟩ := h.goes_on rfl
  have hne : used ≠ [] := by
    intro hempty
    rw [h.pending, hempty, hnil] at hpending
    exact hpending rfl
  have hpos : 0 < used.length := List.length_pos_iff.mpr hne
  have hcount := count_of_tallyOf h.tally
  exact ⟨by omega, hgoing hne⟩

/-! ## A run -/

variable [RandomSource σ α]

/-- What a run leaves, before it settles its supply: the vectors `used` are in the tally and those
after them are pending; each of them was evaluated. -/
structure Ledger (m : Model α) (d : Density α) (q : σ) (t t' : Tally α) (p : Supply σ α)
    (j j' : Journal α) (used : List (List α)) : Prop where
  tally : tallyOf m d used t = .ok t'
  stream : RandomSource.Yields m.dimension q (used ++ p.pending) p.source
  evaluations : j'.evaluations = j.evaluations + used.length + p.pending.length

theorem Consumed.ledger {m : Model α} {c : Config α} {d : Density α} {q : σ} {t t₁ : Tally α}
    {ended : Option Status} {p p₁ : Supply σ α} {j j₁ : Journal α} {used : List (List α)}
    (h : Consumed m c d t t₁ ended p p₁ (j.spend p.pending.length) j₁ used)
    (hq : RandomSource.Yields m.dimension q p.pending p.source) :
    Ledger m d q t t₁ p₁ j j₁ used := by
  refine ⟨h.tally, ?_, ?_⟩
  · rw [h.source, ← h.pending]
    exact hq
  · rw [h.evaluations, Journal.evaluations_spend, h.pending, List.length_append, Nat.add_assoc]

/-- A run that goes on with nothing pending carries the ledger on. -/
theorem Ledger.append {m : Model α} {d : Density α} {q : σ} {t t₁ t' : Tally α}
    {p₁ p' : Supply σ α} {j j₁ j' : Journal α} {used used' : List (List α)}
    (h : Ledger m d q t t₁ p₁ j j₁ used) (hnil : p₁.pending = [])
    (h' : Ledger m d p₁.source t₁ t' p' j₁ j' used') :
    Ledger m d q t t' p' j j' (used ++ used') := by
  have hstream := h.stream
  have hspent := h.evaluations
  rw [hnil, List.append_nil] at hstream
  rw [hnil, List.length_nil, Nat.add_zero] at hspent
  refine ⟨tallyOf_append h.tally h'.tally, ?_, ?_⟩
  · rw [List.append_assoc]
    exact hstream.append h'.stream
  · rw [h'.evaluations, hspent, List.length_append]
    omega

/-- The pending vectors are at most a chunk and, with the tallied ones, within a budget that is not
used up. -/
structure Fits (m : Model α) (c : Config α) (t : Tally α) (p : Supply σ α) : Prop where
  chunk : p.pending.length ≤ c.chunk m.threads
  budget : t.count + p.pending.length ≤ c.maxSamples
  going : t.count < c.maxSamples

omit [Scalar α] in
/-- A refill keeps to the chunk and to the budget. -/
theorem Fits.refilled {m : Model α} {c : Config α} {t : Tally α} {p : Supply σ α}
    (h : Fits m c t p) : Fits m c t (refilled m c t p) := by
  unfold Sampling.refilled
  split
  · have hlength := RandomSource.length_vectors (α := α) m.dimension (refillCount m c t) p.source
    have hone : 1 ≤ c.chunk m.threads := Nat.le_max_right ..
    have hgoing := h.going
    have hcount : refillCount m c t ≤ c.chunk m.threads ∧
        refillCount m c t ≤ c.maxSamples - t.count := by
      show max (min (c.chunk m.threads) (c.maxSamples - t.count)) 1 ≤ _ ∧
        max (min (c.chunk m.threads) (c.maxSamples - t.count)) 1 ≤ _
      omega
    exact ⟨by dsimp only; omega, by dsimp only; omega, hgoing⟩
  · exact h

/-- A run keeps a ledger, and leaves less than a chunk if it began with no more. -/
theorem ledger_of_exec_rounds {m : Model α} {c : Config α} {d : Density α} {fuel : Nat}
    {t t' : Tally α} {status : Status} {q : σ} {p p' : Supply σ α} {j j' : Journal α}
    (hready : Ready c t.count fuel) (hq : RandomSource.Yields m.dimension q p.pending p.source)
    (h : RunWith.exec (rounds m c d fuel t) p j = (.ok (t', status), p', j')) :
    ∃ used p₁, Ledger m d q t t' p₁ j j' used ∧ p' = p₁.settle ∧ p₁.circular = p.circular ∧
      (Fits m c t p → p₁.pending.length < c.chunk m.threads ∧
        t'.count + p₁.pending.length ≤ c.maxSamples) := by
  induction fuel generalizing t q p j with
  | zero => exact absurd hready.positive (by omega)
  | succ fuel ih =>
    obtain ⟨samples, t₁, ended, p₁, j₁, hsamples, hconsume, hrest⟩ := exec_rounds_succ_eq_ok h
    obtain ⟨used, hused⟩ := consumed_of_exec hsamples hconsume
    have hledger := hused.ledger (yields_refilled rfl hq)
    have hcircular := hused.circular.trans (circular_refilled m c t p)
    cases ended with
    | some st =>
      obtain ⟨rfl, rfl, rfl, rfl⟩ := hrest
      refine ⟨used, p₁, hledger, rfl, hcircular, fun hfits => ?_⟩
      -- The sample that ended the run is of the chunk, so that less than a chunk is left.
      have hpos : 0 < used.length := List.length_pos_iff.mpr (hused.ended_pos (by simp))
      have hcount := count_of_tallyOf hused.tally
      have hlength := congrArg List.length hused.pending
      rw [List.length_append] at hlength
      have hchunk := hfits.refilled.chunk
      have hbudget := hfits.refilled.budget
      exact ⟨by omega, by omega⟩
    | none =>
      have hnil := (hused.goes_on rfl).1
      obtain ⟨hless, hgoing⟩ := hused.progress (pending_refilled_ne_nil m c t p)
      obtain ⟨used', p₂, hrest, hsettle, hcircular', hbounds⟩ :=
        ih (hready.next hless hgoing) (RandomSource.yields_of_eq_nil hnil) hrest
      refine ⟨used ++ used', p₂, hledger.append hnil hrest, hsettle, hcircular'.trans hcircular,
        fun _ => hbounds ⟨?_, ?_, hgoing⟩⟩
      · rw [hnil]
        exact Nat.zero_le _
      · rw [hnil]
        exact Nat.le_of_lt hgoing

end FailureProbability.Sampling
