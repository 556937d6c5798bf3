import FailureProbability.Proofs.Agreement
import FailureProbability.Proofs.Directional

/-!
# Directions one by one

However many directions are searched together, they are tallied one by one in the order in which
they were drawn. `Walks` describes this without a word about chunks: it draws a direction, searches
it, tallies it and ends or goes on. A walk has one end only, so that runs in chunks of different
sizes end alike. They may have searched different directions by then, but those that were never
tallied show in no answer.

Nobody is supposed to watch these runs. A monitor sees the counter of evaluations, which depends on
how many directions were searched together, and it could stop a run for that. A run that fails is
not a walk either: a direction behind the last one may be the reason, and a run in smaller chunks
would never have searched it.
-/

namespace FailureProbability.Directional

variable {σ α : Type} [Scalar α]

/-! ## Walks -/

/-- From a tally and a state, directions are tallied one by one until the tally is judged to be the
last. -/
inductive Walks (next : σ → List α × σ) (find : List α → Except (Error α) (Contribution α))
    (judge : Tally α → Option Status) : Tally α → σ → Tally α × Status → Prop
  | ends {t : Tally α} {q : σ} {r : Contribution α} {status : Status}
      (hfind : find (next q).1 = .ok r) (hjudge : judge (t.add (next q).1 r) = some status) :
      Walks next find judge t q (t.add (next q).1 r, status)
  | goes {t : Tally α} {q : σ} {r : Contribution α} {b : Tally α × Status}
      (hfind : find (next q).1 = .ok r) (hjudge : judge (t.add (next q).1 r) = none)
      (hrest : Walks next find judge (t.add (next q).1 r) (next q).2 b) :
      Walks next find judge t q b

variable {next : σ → List α × σ} {find : List α → Except (Error α) (Contribution α)}
  {judge : Tally α → Option Status}

/-- Every step is determined by the one before. -/
theorem Walks.unique {t : Tally α} {q : σ} {b b' : Tally α × Status}
    (h : Walks next find judge t q b) (h' : Walks next find judge t q b') : b = b' := by
  induction h with
  | ends hfind hjudge =>
    cases h' with
    | ends hfind' hjudge' =>
      cases hfind.symm.trans hfind'
      cases hjudge.symm.trans hjudge'
      rfl
    | goes hfind' hjudge' hrest' =>
      cases hfind.symm.trans hfind'
      cases hjudge.symm.trans hjudge'
  | goes hfind hjudge hrest ih =>
    cases h' with
    | ends hfind' hjudge' =>
      cases hfind.symm.trans hfind'
      cases hjudge.symm.trans hjudge'
    | goes hfind' hjudge' hrest' =>
      cases hfind.symm.trans hfind'
      exact ih hrest'

/-- A walk leads to a tally: it ends there, or it ends wherever a walk from there does. -/
def Leads (next : σ → List α × σ) (find : List α → Except (Error α) (Contribution α))
    (judge : Tally α → Option Status) (t : Tally α) (q : σ) (t' : Tally α) (q' : σ) :
    Option Status → Prop
  | some status => Walks next find judge t q (t', status)
  | none => ∀ b, Walks next find judge t' q' b → Walks next find judge t q b

/-! ## Directions -/

/-- Directions that are drawn one after the other, with what was found along them. -/
inductive Drawn (next : σ → List α × σ) (find : List α → Except (Error α) (Contribution α)) :
    σ → List (List α) → List (Contribution α) → σ → Prop
  | nil {q : σ} : Drawn next find q [] [] q
  | cons {q q' : σ} {ds : List (List α)} {r : Contribution α} {rs : List (Contribution α)}
      (hfind : find (next q).1 = .ok r) (hrest : Drawn next find (next q).2 ds rs q') :
      Drawn next find q ((next q).1 :: ds) (r :: rs) q'

def found (c : Config α) (m : Model α) (z0 : α) (d : List α) : Except (Error α) (Contribution α) :=
  ((search c m z0 d).exec .empty).1

theorem found_of_exec {c : Config α} {m : Model α} {z0 : α} {d : List α} {r : Contribution α}
    {j j' : Journal α} (h : (search c m z0 d).exec j = (.ok r, j')) : found c m z0 d = .ok r := by
  have hmeets : Runs.Meets True (search c m z0 d) fun _ _ => True :=
    meets_search c z0 (.inr trivial)
  obtain ⟨x, k, hx, -⟩ := Runs.meets_iff.mp hmeets
  have hr := (hx j).1
  rw [h] at hr
  exact (hx .empty).1.trans hr.symm

/-- How a run ends at a tally when nobody stops it. -/
def Config.judged (c : Config α) (t : Tally α) : Option Status :=
  c.sampling.verdict .proceed t.count t.covarFailure t.covarNoFailure

variable [RandomSource σ α]

/-- The next direction of a source, after so many tries at most. -/
def nextDirection (n : Nat) : Nat → σ → List α × σ
  | 0, q => (Coordinates.origin n, q)
  | tries + 1, q =>
    let v : List α × σ := RandomSource.normals n q
    if 0 < Coordinates.norm v.1 then (Coordinates.divide v.1 (Coordinates.norm v.1), v.2)
    else nextDirection n tries v.2

/-- Drawing a direction is a function of the source, and nothing else changes. -/
theorem exec_drawDirection (n tries : Nat) (s : Sampling.Supply σ α) (j : Journal α) :
    RunWith.exec (drawDirection n tries) s j =
      let d : List α × σ := nextDirection n tries s.source
      (.ok d.1, { s with source := d.2 }, j) := by
  induction tries generalizing s with
  | zero => rfl
  | succ tries ih =>
    dsimp only
    rw [drawDirection, RunWith.exec_bind_ok (Sampling.Sampler.exec_draw n s j)]
    unfold nextDirection
    dsimp only
    split
    · rfl
    · rw [ih]

/-- What is drawn, and then searched, is as many directions as were asked for. -/
theorem drawn_of_exec {c : Config α} {m : Model α} {z0 : α} {n count : Nat}
    {s s' : Sampling.Supply σ α} {ds : List (List α)} {rs : List (Contribution α)}
    {j j' i i' : Journal α}
    (hdraw : RunWith.exec (drawDirections n count) s j = (.ok ds, s', j'))
    (hsearch : (ds.mapM (search c m z0)).exec i = (.ok rs, i')) :
    Drawn (nextDirection n Random.tries) (found c m z0) s.source ds rs s'.source ∧
      ds.length = count := by
  induction count generalizing s ds rs i with
  | zero =>
    cases hdraw
    rw [List.mapM_nil] at hsearch
    cases hsearch
    exact ⟨.nil, rfl⟩
  | succ count ih =>
    rw [drawDirections, RunWith.exec_bind_ok (exec_drawDirection n Random.tries s j)] at hdraw
    obtain ⟨rest, s₁, j₁, hdraw, hpure⟩ := RunWith.exec_bind_eq_ok.mp hdraw
    cases hpure
    rw [List.mapM_cons] at hsearch
    obtain ⟨r, i₁, hfirst, hsearch⟩ := Run.exec_bind_eq_ok.mp hsearch
    obtain ⟨rs', i₂, hsearch, hpure⟩ := Run.exec_bind_eq_ok.mp hsearch
    cases hpure
    obtain ⟨hrest, hlength⟩ := ih hdraw hsearch
    exact ⟨.cons (found_of_exec hfirst) hrest, by rw [List.length_cons, hlength]⟩

/-! ## Tallies -/

omit [RandomSource σ α] in
theorem Tally.count_add (t : Tally α) (d : List α) (r : Contribution α) :
    (t.add d r).count = t.count + 1 := by
  unfold add
  cases r.radius <;> rfl

omit [RandomSource σ α] in
/-- When nobody stops a run, the tally alone decides how it ends. -/
theorem exec_settle {m : Model α} (hm : m.monitor = .silent) (c : Config α) (t : Tally α)
    (j : Journal α) :
    ∃ j', (c.sampling.settle m t.count t.pf t.covarFailure t.covarNoFailure).exec j =
      (.ok (c.judged t), j') := by
  rw [Sampling.Config.exec_settle]
  dsimp only
  rw [Model.answer, hm]
  exact ⟨_, rfl⟩

omit [RandomSource σ α] in
/-- Searched directions are tallied as on a walk. The tally grows by all of them if the run goes
on. -/
theorem leads_of_exec_consume {m : Model α} (hm : m.monitor = .silent) {c : Config α} {q q' : σ}
    {ds : List (List α)} {rs : List (Contribution α)} {t t' : Tally α} {ended : Option Status}
    {j j' : Journal α} (hdrawn : Drawn next find q ds rs q')
    (h : (consume c m (ds.zip rs) t).exec j = (.ok (t', ended), j')) :
    Leads next find c.judged t q t' q' ended ∧
      (ended = none → ds ≠ [] → t.count < t'.count ∧ t'.count < c.sampling.maxSamples) := by
  -- Each of the directions that were drawn is one step of the walk, until one of them is the last.
  induction hdrawn generalizing t j with
  | nil =>
    cases h
    exact ⟨fun b hb => hb, fun _ hne => absurd rfl hne⟩
  | @cons q q' ds r rs hfind hrest ih =>
    have hcount := Tally.count_add t (next q).1 r
    rw [List.zip_cons_cons, consume] at h
    obtain ⟨j₁, hsettle⟩ := exec_settle hm c (t.add (next q).1 r) j
    rw [Run.exec_bind_ok hsettle] at h
    cases hjudge : c.judged (t.add (next q).1 r) with
    | some status =>
      rw [hjudge] at h
      cases h
      exact ⟨.ends hfind hjudge, fun hended => by cases hended⟩
    | none =>
      rw [hjudge] at h
      obtain ⟨hleads, hgrows⟩ := ih h
      have hlt : (t.add (next q).1 r).count < c.sampling.maxSamples :=
        Sampling.Config.lt_of_verdict hjudge
      refine ⟨?_, fun hended _ => ?_⟩
      · -- The walk takes this step and then those of the rest.
        cases ended with
        | some status => exact .goes hfind hjudge hleads
        | none => exact fun b hb => .goes hfind hjudge (hleads b hb)
      · -- The tally has grown by this direction, and by the rest unless it was the last one.
        cases ds with
        | nil =>
          cases hrest
          cases h
          exact ⟨by omega, hlt⟩
        | cons d ds =>
          obtain ⟨hmore, hbudget⟩ := hgrows hended (by simp)
          exact ⟨by omega, hbudget⟩

/-! ## Runs -/

/-- A run that answers is a walk, however many directions it searches together. -/
theorem walks_of_exec_rounds {m : Model α} (hm : m.monitor = .silent) {c : Config α} {z0 : α}
    {fuel : Nat} {t : Tally α} {b : Tally α × Status} {s s' : Sampling.Supply σ α}
    {j j' : Journal α} (hready : Sampling.Ready c.sampling t.count fuel)
    (hlt : t.count < c.sampling.maxSamples)
    (h : RunWith.exec (rounds c m z0 fuel t) s j = (.ok b, s', j')) :
    Walks (nextDirection m.dimension Random.tries) (found c m z0) c.judged t s.source b := by
  induction fuel generalizing t s j with
  | zero => exact absurd hready.positive (by omega)
  | succ fuel ih =>
    rw [rounds] at h
    obtain ⟨ds, s₁, j₁, hdraw, h⟩ := RunWith.exec_bind_eq_ok.mp h
    obtain ⟨rs, s₂, j₂, hfound, h⟩ := RunWith.exec_bind_eq_ok.mp h
    obtain ⟨⟨t₁, ended⟩, s₃, j₃, htallied, hrest⟩ := RunWith.exec_bind_eq_ok.mp h
    obtain ⟨hsearch, rfl⟩ := RunWith.exec_lift_eq_ok.mp hfound
    obtain ⟨hconsume, rfl⟩ := RunWith.exec_lift_eq_ok.mp htallied
    obtain ⟨hdrawn, hlength⟩ := drawn_of_exec hdraw hsearch
    obtain ⟨hleads, hgrows⟩ := leads_of_exec_consume hm hdrawn hconsume
    cases ended with
    | some status =>
      cases hrest
      exact hleads
    | none =>
      -- The chunk was not empty, so that the budget bounds the rounds that are left.
      have hchunk : 1 ≤ c.sampling.chunk m.threads := Nat.le_max_right ..
      have hlength : ds.length =
          min (c.sampling.chunk m.threads) (c.sampling.maxSamples - t.count) := hlength
      obtain ⟨hmore, hbudget⟩ := hgrows rfl (List.ne_nil_of_length_pos (by omega))
      exact hleads b (ih (hready.next hmore hbudget) hbudget hrest)

end FailureProbability.Directional
