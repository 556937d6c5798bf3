import FailureProbability.Sampling.Supply

/-!
# What a run does

`Run.exec` and `RunWith.exec` unfold a run into the function it is: from a journal, and a supply, to
an answer and what has become of both. Every construct of a run has one equation here, and later
proofs rewrite with these and open no monad. A run is inverted from its end: where a sequence has
answered, each of its parts has (`exec_bind_eq_ok`).

A run that fails leaves a journal, and a state, all the same. This is why an error is an answer
beside them and not instead of them, and why statements about counters hold of runs that have failed
as well.

Much of what is said of runs is said of both kinds of them, those with a state and those without.
The class `Runs` has what these statements need: execution, a way to take over a run without a
state, and three equations. Whoever adds a construct to one kind of run adds its equation to that
kind.
-/

namespace FailureProbability

/-! ## Plain results

Facts about results that may be errors, by which a sequence of them is taken apart. They say what
must have gone before for a result to be there, and leave out which error it is if it is not. -/

section

variable {ε β γ : Type}

/-- Two plain results one after the other. -/
theorem bind_eq_ok {x : Except ε β} {f : β → Except ε γ} {c : γ} :
    x >>= f = .ok c ↔ ∃ b, x = .ok b ∧ f b = .ok c := by
  constructor
  · intro h
    cases x with
    | error e => cases h
    | ok b => exact ⟨b, rfl, h⟩
  · rintro ⟨b, rfl, h⟩
    exact h

theorem mapM_cons_eq_ok {f : β → Except ε γ} {a : β} {l : List β} {bs : List γ} :
    (a :: l).mapM f = .ok bs ↔ ∃ b bs', f a = .ok b ∧ l.mapM f = .ok bs' ∧ bs = b :: bs' := by
  rw [List.mapM_cons]
  constructor
  · intro h
    obtain ⟨b, hb, h⟩ := bind_eq_ok.mp h
    obtain ⟨bs', hbs', h⟩ := bind_eq_ok.mp h
    cases h
    exact ⟨b, bs', hb, hbs', rfl⟩
  · rintro ⟨b, bs', hb, hbs', rfl⟩
    rw [hb, hbs']
    rfl

theorem exists_bind_eq_ok {x : Except ε β} {f : β → Except ε γ} {b : β} (hb : x = .ok b) :
    (∃ c, x >>= f = .ok c) ↔ ∃ c, f b = .ok c := by
  rw [hb]
  rfl

/-- A list has results just when all of its members have. -/
theorem exists_mapM_iff {f : β → Except ε γ} {l : List β} :
    (∃ bs, l.mapM f = .ok bs) ↔ ∀ a ∈ l, ∃ b, f a = .ok b := by
  induction l with
  | nil => exact iff_of_true ⟨[], rfl⟩ fun a ha => absurd ha List.not_mem_nil
  | cons a l ih =>
    rw [List.forall_mem_cons, ← ih]
    constructor
    · rintro ⟨bs, h⟩
      obtain ⟨b, bs, hb, hbs, rfl⟩ := mapM_cons_eq_ok.mp h
      exact ⟨⟨b, hb⟩, bs, hbs⟩
    · rintro ⟨⟨b, hb⟩, bs, hbs⟩
      exact ⟨b :: bs, mapM_cons_eq_ok.mpr ⟨b, bs, hb, hbs, rfl⟩⟩

theorem exists_mapM_eq_ok {f : β → Except ε γ} (hf : ∀ a, ∃ b, f a = .ok b) (l : List β) :
    ∃ bs, l.mapM f = .ok bs :=
  exists_mapM_iff.mpr fun a _ => hf a

/-- A list whose members all have results has those. -/
theorem mapM_eq_ok_map_of_mem {f : β → Except ε γ} {g : β → γ} {l : List β}
    (h : ∀ a ∈ l, f a = .ok (g a)) : l.mapM f = .ok (l.map g) := by
  induction l with
  | nil => rfl
  | cons a l ih =>
    obtain ⟨ha, hl⟩ := List.forall_mem_cons.mp h
    exact mapM_cons_eq_ok.mpr ⟨g a, l.map g, ha, ih hl, rfl⟩

theorem mapM_eq_ok_map {f : β → Except ε γ} {g : β → γ} (h : ∀ a, f a = .ok (g a)) (l : List β) :
    l.mapM f = .ok (l.map g) :=
  mapM_eq_ok_map_of_mem fun a _ => h a

theorem mapM_congr_of_mem {f g : β → Except ε γ} {l : List β} (h : ∀ a ∈ l, f a = g a) :
    l.mapM f = l.mapM g := by
  induction l with
  | nil => rfl
  | cons a l ih =>
    obtain ⟨ha, hl⟩ := List.forall_mem_cons.mp h
    rw [List.mapM_cons, List.mapM_cons, ha, ih hl]

theorem forall_mem_of_mapM {f : β → Except ε γ} {z : γ} {l : List β} {bs : List γ}
    (h : l.mapM f = .ok bs) (hbs : ∀ b ∈ bs, b = z) : ∀ a ∈ l, f a = .ok z := by
  induction l generalizing bs with
  | nil => exact fun a ha => absurd ha List.not_mem_nil
  | cons a l ih =>
    obtain ⟨b, rest, hb, hrest, rfl⟩ := mapM_cons_eq_ok.mp h
    obtain ⟨rfl, hbs⟩ := List.forall_mem_cons.mp hbs
    exact List.forall_mem_cons.mpr ⟨hb, ih hrest hbs⟩

/-- A row of numbers passes when all of them are positive, whatever they are called in an error. -/
theorem forIn_labelled_eq_ok {α : Type} [Scalar α] (label : String → String)
    {values : List (String × α)} :
    (forIn values ⟨⟩ fun (name, v) _ =>
      if (!Scalar.isPositive v) = true then do
        throw (.invalid (.notPositive (label name) v))
        pure (.yield ⟨⟩)
      else pure (.yield ⟨⟩) : Except (Error α) PUnit) = .ok ⟨⟩ ↔
      ∀ e ∈ values, Scalar.isPositive e.2 = true := by
  induction values with
  | nil => exact iff_of_true rfl fun e he => absurd he List.not_mem_nil
  | cons e values ih =>
    rw [List.forall_mem_cons, List.forIn_cons]
    cases hpositive : Scalar.isPositive e.2 with
    | false =>
      refine iff_of_false (fun h => ?_) fun h => by cases h.1
      dsimp only at h
      rw [hpositive] at h
      cases h
    | true =>
      rw [← ih, eq_self, true_and]
      dsimp only
      rw [hpositive]
      rfl

theorem forIn_positive_eq_ok {α : Type} [Scalar α] {values : List (String × α)} :
    (forIn values ⟨⟩ fun (name, v) _ =>
      if (!Scalar.isPositive v) = true then do
        throw (.invalid (.notPositive name v))
        pure (.yield ⟨⟩)
      else pure (.yield ⟨⟩) : Except (Error α) PUnit) = .ok ⟨⟩ ↔
      ∀ e ∈ values, Scalar.isPositive e.2 = true :=
  forIn_labelled_eq_ok id

end

/-! ## Runs

A run is followed by the pair of its answer and the journal after it (`exec`). A sequence whose
first part is known is rewritten to its second part, from the journal that the first one leaves; so
a run is gone through from its beginning, without its definition as a transformer. -/

namespace Run

variable {α β γ : Type}

/-- The answer of a run that begins with a journal, and the journal after it. -/
def exec (r : Run α β) (j : Journal α) : Except (Error α) β × Journal α := r.run.run j

@[simp] theorem exec_pure (b : β) (j : Journal α) : exec (pure b) j = (.ok b, j) := rfl

@[simp] theorem exec_ofExcept (x : Except (Error α) β) (j : Journal α) :
    exec (ofExcept x) j = (x, j) := rfl

@[simp] theorem exec_evaluations (j : Journal α) :
    exec evaluations j = (.ok j.evaluations, j) := rfl

theorem exec_bind (r : Run α β) (f : β → Run α γ) (j : Journal α) :
    exec (r >>= f) j = match exec r j with
      | (.ok b, j') => exec (f b) j'
      | (.error e, j') => (.error e, j') := by
  show (ExceptT.bindCont f (r.run.run j).1).run (r.run.run j).2 = _
  rw [show r.run.run j = exec r j from rfl]
  rcases exec r j with ⟨_ | b, j'⟩ <;> rfl

theorem exec_bind_ok {r : Run α β} {f : β → Run α γ} {j j' : Journal α} {b : β}
    (h : exec r j = (.ok b, j')) : exec (r >>= f) j = exec (f b) j' := by
  rw [exec_bind, h]

theorem exec_bind_error {r : Run α β} {f : β → Run α γ} {j j' : Journal α} {e : Error α}
    (h : exec r j = (.error e, j')) : exec (r >>= f) j = (.error e, j') := by
  rw [exec_bind, h]

/-- A sequence has answered when both of its parts have. -/
theorem exec_bind_eq_ok {r : Run α β} {f : β → Run α γ} {j j'' : Journal α} {c : γ} :
    exec (r >>= f) j = (.ok c, j'') ↔
      ∃ b j', exec r j = (.ok b, j') ∧ exec (f b) j' = (.ok c, j'') := by
  rw [exec_bind]
  constructor
  · intro h
    rcases hr : exec r j with ⟨e | b, j'⟩ <;> rw [hr] at h
    · exact absurd (congrArg Prod.fst h) (by simp)
    · exact ⟨b, j', rfl, h⟩
  · rintro ⟨b, j', hr, hf⟩
    rw [hr]
    exact hf

/-- What is known of the answer of a run tells that it has answered. -/
theorem exists_exec_of_map {r : Run α β} {f : β → γ} {c : γ} {j : Journal α}
    (h : (exec r j).1.toOption.map f = some c) : ∃ b j', exec r j = (.ok b, j') ∧ f b = c := by
  rcases hr : exec r j with ⟨e | b, j'⟩ <;> rw [hr] at h
  · cases h
  · exact ⟨b, j', rfl, Option.some.inj h⟩

/-- What begins with a plain result goes on with it, or fails with its error. -/
theorem exec_ofExcept_bind (x : Except (Error α) β) (f : β → Run α γ) (j : Journal α) :
    exec (ofExcept x >>= f) j = match x with
      | .ok b => exec (f b) j
      | .error e => (.error e, j) := by
  cases x <;> rfl

/-- An error gets the name of the estimator on its way out, and nothing else changes. -/
theorem exec_named (estimator : String) (r : Run α β) (j : Journal α) :
    exec (named estimator r) j =
      ((exec r j).1.mapError fun e => e.qualify estimator, (exec r j).2) := by
  show (ExceptT.tryCatch r fun e => throw (e.qualify estimator)).run.run j = _
  unfold ExceptT.tryCatch
  simp only [exec, ExceptT.run, ExceptT.mk]
  rw [StateT.run_bind]
  simp only [bind]
  rcases StateT.run r j with ⟨_ | b, j'⟩ <;> rfl

end Run

/-! ## Runs with a state

Samplers have a supply besides the journal, and searches of a ray what they have noted of its side.
The same rules hold with one more component, and a run without a state that is used inside of one
leaves it as it is. -/

namespace RunWith

variable {τ α β γ : Type}

/-- The answer of a run that begins with a state and a journal, and both after it. -/
def exec (r : RunWith τ α β) (s : τ) (j : Journal α) : Except (Error α) β × τ × Journal α :=
  let ((x, s), j) := (r.run.run s).run j
  (x, s, j)

/-- Runs that do the same from every state and journal are the same. -/
theorem ext_exec {r r' : RunWith τ α β} (h : ∀ s j, r.exec s j = r'.exec s j) : r = r' := by
  funext s
  funext j
  obtain ⟨hanswer, hrest⟩ := Prod.mk.inj (h s j)
  obtain ⟨hstate, hjournal⟩ := Prod.mk.inj hrest
  exact Prod.ext (Prod.ext hanswer hstate) hjournal

@[simp] theorem exec_pure (b : β) (s : τ) (j : Journal α) :
    exec (pure b) s j = (.ok b, s, j) := rfl

@[simp] theorem exec_get (s : τ) (j : Journal α) :
    exec (get : RunWith τ α τ) s j = (.ok s, s, j) := rfl

@[simp] theorem exec_modify (f : τ → τ) (s : τ) (j : Journal α) :
    exec (modify f : RunWith τ α PUnit) s j = (.ok ⟨⟩, f s, j) := rfl

@[simp] theorem exec_lift (r : Run α β) (s : τ) (j : Journal α) :
    exec (lift r) s j = ((r.exec j).1, s, (r.exec j).2) := rfl

theorem exec_lift_ok {r : Run α β} {j j' : Journal α} {b : β} (h : r.exec j = (.ok b, j'))
    (s : τ) : exec (lift r) s j = (.ok b, s, j') := by
  rw [exec_lift, h]

theorem exec_bind (r : RunWith τ α β) (f : β → RunWith τ α γ) (s : τ) (j : Journal α) :
    exec (r >>= f) s j = match exec r s j with
      | (.ok b, s', j') => exec (f b) s' j'
      | (.error e, s', j') => (.error e, s', j') := by
  show (let ((x, s'), j') := ((ExceptT.bindCont f ((r.run.run s).run j).1.1).run
      ((r.run.run s).run j).1.2).run ((r.run.run s).run j).2; (x, s', j')) = _
  simp only [exec]
  rcases (r.run.run s).run j with ⟨⟨_ | b, s'⟩, j'⟩ <;> rfl

theorem exec_bind_ok {r : RunWith τ α β} {f : β → RunWith τ α γ} {s s' : τ}
    {j j' : Journal α} {b : β} (h : exec r s j = (.ok b, s', j')) :
    exec (r >>= f) s j = exec (f b) s' j' := by
  rw [exec_bind, h]

/-- A sequence has answered when both of its parts have. -/
theorem exec_bind_eq_ok {r : RunWith τ α β} {f : β → RunWith τ α γ} {s s'' : τ}
    {j j'' : Journal α} {c : γ} :
    exec (r >>= f) s j = (.ok c, s'', j'') ↔
      ∃ b s' j', exec r s j = (.ok b, s', j') ∧ exec (f b) s' j' = (.ok c, s'', j'') := by
  rw [exec_bind]
  constructor
  · intro h
    rcases hr : exec r s j with ⟨e | b, s', j'⟩ <;> rw [hr] at h
    · exact absurd (congrArg Prod.fst h) (by simp)
    · exact ⟨b, s', j', rfl, h⟩
  · rintro ⟨b, s', j', hr, hf⟩
    rw [hr]
    exact hf

/-- What begins with a plain result goes on with it, or fails with its error. -/
theorem exec_ofExcept_bind (x : Except (Error α) β) (f : β → RunWith τ α γ) (s : τ)
    (j : Journal α) :
    exec (lift (Run.ofExcept x) >>= f) s j = match x with
      | .ok b => exec (f b) s j
      | .error e => (.error e, s, j) := by
  cases x <;> rfl

theorem exec_ofExcept_bind_eq_ok {x : Except (Error α) β} {f : β → RunWith τ α γ} {s s' : τ}
    {j j' : Journal α} {c : γ} :
    exec (lift (Run.ofExcept x) >>= f) s j = (.ok c, s', j') ↔
      ∃ b, x = .ok b ∧ exec (f b) s j = (.ok c, s', j') := by
  rw [exec_ofExcept_bind]
  cases x with
  | error e => simp
  | ok b => simp

end RunWith

/-! ## Both kinds of runs -/

/-- A kind of run: from a state and a journal it comes to an answer or to an error, and to another
state and journal. What is said of `Runs` is said, and proved, of runs with a state and of those
without one, whose state is `PUnit`. -/
class Runs (M : Type → Type) (τ α : outParam Type) [Monad M] where
  exec {β : Type} : M β → τ → Journal α → Except (Error α) β × τ × Journal α
  /-- A run without a state as one of this kind. -/
  lift {β : Type} : Run α β → M β
  exec_pure {β : Type} (b : β) (s : τ) (j : Journal α) : exec (pure b) s j = (.ok b, s, j)
  exec_bind {β γ : Type} (r : M β) (f : β → M γ) (s : τ) (j : Journal α) :
    exec (r >>= f) s j = match exec r s j with
      | (.ok b, s', j') => exec (f b) s' j'
      | (.error e, s', j') => (.error e, s', j')
  exec_lift {β : Type} (r : Run α β) (s : τ) (j : Journal α) :
    exec (lift r) s j = ((r.exec j).1, s, (r.exec j).2)

namespace Runs

variable {τ α β γ : Type}

instance : Runs (Run α) PUnit α where
  exec r s j := ((r.exec j).1, s, (r.exec j).2)
  lift r := r
  exec_pure _ _ _ := rfl
  exec_bind r f s j := by
    rw [Run.exec_bind]
    rcases r.exec j with ⟨e | b, j'⟩ <;> rfl
  exec_lift _ _ _ := rfl

instance : Runs (RunWith τ α) τ α where
  exec := RunWith.exec
  lift := RunWith.lift
  exec_pure := RunWith.exec_pure
  exec_bind := RunWith.exec_bind
  exec_lift := RunWith.exec_lift

/-- Of a run without a state, the state tells nothing. -/
theorem exec_eq_iff {r : Run α β} {s s' : PUnit} {j j' : Journal α} {x : Except (Error α) β} :
    exec r s j = (x, s', j') ↔ r.exec j = (x, j') := by
  show ((r.exec j).1, s, (r.exec j).2) = (x, s', j') ↔ _
  rw [Prod.ext_iff, Prod.ext_iff, Prod.ext_iff]
  exact and_congr_right fun _ => and_iff_right rfl

theorem exec_runWith (r : RunWith τ α β) (s : τ) (j : Journal α) :
    exec r s j = RunWith.exec r s j := rfl

variable {M : Type → Type} [Monad M] [Runs M τ α] {r : M β} {f : β → M γ} {s s' : τ}
  {j j' : Journal α}

/-- A run that was taken over leaves the state alone. -/
theorem exec_lift_eq_ok {r : Run α β} {b : β} :
    exec (lift r : M β) s j = (.ok b, s', j') ↔ r.exec j = (.ok b, j') ∧ s' = s := by
  rw [exec_lift]
  constructor
  · intro h
    simp only [Prod.mk.injEq] at h
    obtain ⟨hb, rfl, rfl⟩ := h
    exact ⟨Prod.ext hb rfl, rfl⟩
  · rintro ⟨h, rfl⟩
    rw [h]

theorem exec_bind_ok {b : β} (h : exec r s j = (.ok b, s', j')) :
    exec (r >>= f) s j = exec (f b) s' j' := by
  rw [exec_bind, h]

theorem exec_bind_error {e : Error α} (h : exec r s j = (.error e, s', j')) :
    exec (r >>= f) s j = (.error e, s', j') := by
  rw [exec_bind, h]

end Runs

theorem RunWith.exec_lift_eq_ok {τ α β : Type} {r : Run α β} {s s' : τ} {j j' : Journal α} {b : β} :
    exec (lift r) s j = (.ok b, s', j') ↔ r.exec j = (.ok b, j') ∧ s' = s :=
  Runs.exec_lift_eq_ok (M := RunWith τ α)

namespace Sampling.Sampler

variable {σ α β : Type}

@[simp] theorem exec_draw [RandomSource σ α] (n : Nat) (s : Supply σ α) (j : Journal α) :
    RunWith.exec (draw n) s j =
      let (eps, source) : List α × σ := RandomSource.normals n s.source
      (.ok eps, { s with source := source }, j) := rfl

/-- What is left of a supply is dropped with the run that it was for. -/
theorem exec_withSupply (s : Supply σ α) (r : Sampler σ α β) (j : Journal α) :
    (withSupply s r).exec j = ((RunWith.exec r s j).1, (RunWith.exec r s j).2.2) := rfl

end Sampling.Sampler

end FailureProbability
