import FailureProbability.Proofs.Evaluation
import FailureProbability.Sampling.Engine

/-!
# Contracts

A contract is a condition on the answer of a computation and on the number of evaluations that it
took. `Contract` says what every notion of holding such a condition provides: the rules for `pure`
and for a sequence, from which those for loops follow. `Runs.Meets` is the notion for runs, with a
state of their own or without one: a run does the same from every journal, so that no answer depends
on what was evaluated or reported before.

A run that meets a contract may fail if the contract allows it (`mayFail`); then nothing is said of
the error, but the number of evaluations up to it is still the same from every journal. What a
monitor is told is left out here, and a contract holds of monitors without a memory only: with the
others an answer may well depend on earlier reports.

Other notions with the same rules are elsewhere: that a run makes no report (`Runs.silent`), that
its answers meet a condition (`Runs.answers`), and the like for plain results and draws. What is
proved of contracts in general is thereby proved of all of them.
-/

namespace FailureProbability

/-- What it takes to hold conditions on an answer and on the evaluations that it took. -/
structure Contract (M : Type → Type) [Monad M] where
  Holds : {β : Type} → M β → (β → Nat → Prop) → Prop
  of_pure : ∀ {β : Type} {b : β} {P : β → Nat → Prop}, P b 0 → Holds (pure b) P
  of_bind : ∀ {β γ : Type} {r : M β} {f : β → M γ} {P : β → Nat → Prop} {Q : γ → Nat → Prop},
    Holds r P → (∀ b k, P b k → Holds (f b) fun c l => Q c (k + l)) → Holds (r >>= f) Q

namespace Contract

variable {M : Type → Type} [Monad M] (C : Contract M) {ι β γ : Type}

/-- What follows a computation that is free of charge is charged alone. -/
theorem bind_free {r : M β} {f : β → M γ} {P : β → Prop} {Q : γ → Nat → Prop}
    (hr : C.Holds r fun b k => P b ∧ k = 0) (hf : ∀ b, P b → C.Holds (f b) Q) :
    C.Holds (r >>= f) Q := by
  refine C.of_bind hr fun b k hb => ?_
  obtain ⟨hb, rfl⟩ := hb
  simp only [Nat.zero_add]
  exact hf b hb

theorem ite {c : Prop} [Decidable c] {r r' : M β} {P : β → Nat → Prop} (h : c → C.Holds r P)
    (h' : ¬c → C.Holds r' P) : C.Holds (if c then r else r') P := by
  split
  · rename_i hc
    exact h hc
  · rename_i hc
    exact h' hc

/-- The charges of a list of computations add up. -/
theorem mapM [LawfulMonad M] {f : ι → M β} {l : List ι} {P : ι → Nat → Prop}
    {Q : List ι → Nat → Prop} (hnil : Q [] 0)
    (hcons : ∀ a l k n, P a k → Q l n → Q (a :: l) (k + n))
    (hf : ∀ a ∈ l, C.Holds (f a) fun _ k => P a k) :
    C.Holds (l.mapM f) fun _ k => Q l k := by
  induction l with
  | nil =>
    rw [List.mapM_nil]
    exact C.of_pure hnil
  | cons a l ih =>
    rw [List.mapM_cons]
    refine C.of_bind (hf a (by simp)) fun b k hk => ?_
    refine C.of_bind (ih fun a' ha' => hf a' (by simp [ha'])) fun bs n hn => ?_
    exact C.of_pure (hcons a l k n hk hn)

/-- What every step of a fold preserves is preserved by the fold. -/
theorem foldlM {f : γ → ι → M γ} {l : List ι} {I : γ → Prop} {t : γ} (ht : I t)
    (hf : ∀ t, I t → ∀ a ∈ l, C.Holds (f t a) fun t' _ => I t') :
    C.Holds (l.foldlM f t) fun t' _ => I t' := by
  induction l generalizing t with
  | nil => exact C.of_pure ht
  | cons a l ih =>
    rw [List.foldlM_cons]
    refine C.of_bind (hf t ht a (by simp)) fun t' _ ht' => ?_
    exact ih ht' fun t'' ht'' a' ha' => hf t'' ht'' a' (by simp [ha'])

end Contract

variable {α β γ : Type}

/-- An answer meets a condition; an error does when failing is allowed. -/
def Meets {ε : Type} (mayFail : Prop) (P : β → Nat → Prop) : Except ε β → Nat → Prop
  | .ok b, k => P b k
  | .error _, _ => mayFail

/-! ## Runs -/

namespace Runs

variable {M : Type → Type} {τ : Type} [Monad M] [Runs M τ α]

/-- From every state, and from every journal, the run has the same answer after the same number of
evaluations, and leaves the same state. Answer and number meet a condition. -/
def Meets (mayFail : Prop) (r : M β) (P : β → Nat → Prop) : Prop :=
  ∀ s, ∃ x s' k, (∀ j, (exec r s j).1 = x ∧ (exec r s j).2.1 = s' ∧
      (exec r s j).2.2.evaluations = j.evaluations + k) ∧
    FailureProbability.Meets mayFail P x k

variable {mayFail : Prop}

theorem meets_pure {b : β} {P : β → Nat → Prop} (h : P b 0) :
    Meets mayFail (pure b : M β) P := by
  refine fun s => ⟨.ok b, s, 0, fun j => ?_, h⟩
  rw [exec_pure]
  exact ⟨rfl, rfl, rfl⟩

/-- Two runs one after the other charge what both of them charge. -/
theorem meets_bind {r : M β} {f : β → M γ} {P : β → Nat → Prop} {Q : γ → Nat → Prop}
    (hr : Meets mayFail r P) (hf : ∀ b k, P b k → Meets mayFail (f b) fun c l => Q c (k + l)) :
    Meets mayFail (r >>= f) Q := by
  intro s
  obtain ⟨x, s', k, hx, hP⟩ := hr s
  cases x with
  | error e =>
    -- The rest is skipped and takes nothing.
    refine ⟨.error e, s', k, fun j => ?_, hP⟩
    obtain ⟨hans, hstate, hev⟩ := hx j
    rw [exec_bind_error (Prod.ext hans (Prod.ext hstate rfl))]
    exact ⟨rfl, rfl, hev⟩
  | ok b =>
    obtain ⟨y, s'', l, hy, hQ⟩ := hf b k hP s'
    refine ⟨y, s'', k + l, fun j => ?_, ?_⟩
    · obtain ⟨hans, hstate, hev⟩ := hx j
      rw [exec_bind_ok (Prod.ext hans (Prod.ext hstate rfl)), (hy _).2.2, hev, Nat.add_assoc]
      exact ⟨(hy _).1, (hy _).2.1, rfl⟩
    · cases y <;> exact hQ

/-- The contracts that runs meet, which fail only if they may. -/
def contract (M : Type → Type) [Monad M] [Runs M τ α] (mayFail : Prop) : Contract M :=
  ⟨Meets mayFail, meets_pure, meets_bind⟩

theorem Meets.mono {r : M β} {P Q : β → Nat → Prop} (h : Meets mayFail r P)
    (himp : ∀ b k, P b k → Q b k) : Meets mayFail r Q := by
  intro s
  obtain ⟨x, s', k, hx, hP⟩ := h s
  refine ⟨x, s', k, hx, ?_⟩
  cases x with
  | error e => exact hP
  | ok b => exact himp b k hP

theorem meets_lift {r : Run α β} {P : β → Nat → Prop} (h : Meets mayFail r P) :
    Meets mayFail (lift r : M β) P := by
  obtain ⟨x, _, k, hx, hP⟩ := h ⟨⟩
  refine fun s => ⟨x, s, k, fun j => ?_, hP⟩
  rw [exec_lift]
  exact ⟨(hx j).1, rfl, (hx j).2.2⟩

/-- The increase of the counter during a run is what the run has taken. -/
theorem meets_measured {r : M β} {g : β → Nat → γ} {P : β → Nat → Prop} {Q : γ → Nat → Prop}
    (hr : Meets mayFail r P) (hg : ∀ b k, P b k → Q (g b k) k) :
    Meets mayFail (do
      let before ← (lift Run.evaluations : M Nat)
      let b ← r
      let after ← (lift Run.evaluations : M Nat)
      return g b (after - before)) Q := by
  have hcounter : ∀ s j, exec (lift Run.evaluations : M Nat) s j = (.ok j.evaluations, s, j) :=
    exec_lift Run.evaluations
  intro s
  obtain ⟨x, s', k, hx, hP⟩ := hr s
  refine ⟨x.map fun b => g b k, s', k, fun j => ?_, ?_⟩
  · obtain ⟨hans, hstate, hev⟩ := hx j
    rw [exec_bind_ok (hcounter s j)]
    cases x with
    | error e =>
      rw [exec_bind_error (Prod.ext hans (Prod.ext hstate rfl))]
      exact ⟨rfl, rfl, hev⟩
    | ok b =>
      rw [exec_bind_ok (Prod.ext hans (Prod.ext hstate rfl)), exec_bind_ok (hcounter s' _), hev,
        Nat.add_sub_cancel_left, exec_pure]
      exact ⟨rfl, rfl, hev⟩
  · cases x with
    | error e => exact hP
    | ok b => exact hg b k hP

/-! ### Runs without a state -/

/-- A run without a state meets a condition when it has one answer and takes one number of
evaluations. -/
theorem meets_iff {r : Run α β} {P : β → Nat → Prop} :
    Meets mayFail r P ↔ ∃ x k,
      (∀ j, (r.exec j).1 = x ∧ (r.exec j).2.evaluations = j.evaluations + k) ∧
      FailureProbability.Meets mayFail P x k := by
  constructor
  · intro h
    obtain ⟨x, _, k, hx, hP⟩ := h ⟨⟩
    exact ⟨x, k, fun j => ⟨(hx j).1, (hx j).2.2⟩, hP⟩
  · rintro ⟨x, k, hx, hP⟩
    exact fun s => ⟨x, s, k, fun j => ⟨(hx j).1, rfl, (hx j).2⟩, hP⟩

/-- A plain result is free of charge. -/
theorem meets_ofExcept {x : Except (Error α) β} (hfail : (∃ b, x = .ok b) ∨ mayFail) :
    Meets mayFail (Run.ofExcept x) fun b k => x = .ok b ∧ k = 0 := by
  refine meets_iff.mpr ⟨x, 0, fun _ => ⟨rfl, rfl⟩, ?_⟩
  cases x with
  | error e =>
    rcases hfail with ⟨b, hb⟩ | hfail
    · cases hb
    · exact hfail
  | ok b => exact ⟨rfl, rfl⟩

theorem meets_throw (e : Error α) {P : β → Nat → Prop} (h : mayFail) :
    Meets mayFail (throw e : Run α β) P :=
  meets_iff.mpr ⟨.error e, 0, fun _ => ⟨rfl, rfl⟩, h⟩

/-! ### Runs with a state -/

theorem meets_get {P : τ → Nat → Prop} (h : ∀ s, P s 0) :
    Meets mayFail (get : RunWith τ α τ) P :=
  fun s => ⟨.ok s, s, 0, fun _ => ⟨rfl, rfl, rfl⟩, h s⟩

theorem meets_modify (f : τ → τ) {P : PUnit → Nat → Prop} (h : P ⟨⟩ 0) :
    Meets mayFail (modify f : RunWith τ α PUnit) P :=
  fun s => ⟨.ok ⟨⟩, f s, 0, fun _ => ⟨rfl, rfl, rfl⟩, h⟩

end Runs

/-! ## What a run asks of a model -/

namespace Model

variable {mayFail : Prop}

/-- A model without a memory answers a report the same from every journal. -/
theorem meets_report {m : Model α} (hm : m.monitor.IsStateless) (p : Progress α)
    {P : Bool → Nat → Prop} (h : ∀ stop, P stop 0) : Runs.Meets mayFail (m.report p) P := by
  refine Runs.meets_iff.mpr ⟨.ok (m.monitor [] p == .abort), 0, fun j => ⟨?_, rfl⟩, h _⟩
  rw [exec_report, answer, hm j.reports []]

variable [Scalar α]

/-- An evaluation counts once, whatever its value; it fails where there is none. -/
theorem meets_evaluate (m : Model α) (u : List α) {P : α → Nat → Prop} (h : ∀ v, P v 1) :
    Runs.Meets True (m.evaluate u) P := by
  refine Runs.meets_iff.mpr ⟨m.rawValue u, evaluationsFor (m.rawValue u), fun j => ?_, ?_⟩
  · rw [exec_evaluate]
    exact ⟨rfl, rfl⟩
  · cases m.rawValue u with
    | error e => trivial
    | ok v => exact h v

/-- A value that is found is the finite value at the point, for one evaluation. -/
theorem meets_z (m : Model α) (u : List α) (hfail : (∃ z, m.value u = .ok z) ∨ mayFail) :
    Runs.Meets mayFail (m.z u) fun z k => m.value u = .ok z ∧ k = 1 := by
  refine Runs.meets_iff.mpr ⟨m.value u, evaluationsFor (m.rawValue u), fun j => ?_, ?_⟩
  · rw [exec_z]
    exact ⟨rfl, rfl⟩
  · cases hv : m.value u with
    | error e =>
      rcases hfail with ⟨z, hz⟩ | hfail
      · rw [hv] at hz
        cases hz
      · exact hfail
    | ok z =>
      have hj := congrArg (fun r => r.2.evaluations) (exec_z_of_value hv .empty)
      rw [exec_z] at hj
      exact ⟨rfl, by simpa using hj⟩

/-- A gradient tells how many evaluations it took: one for every point of its stencil. -/
theorem meets_gradient (m : Model α) (u : List α) (du : α) :
    Runs.Meets True (m.gradient u du) fun g k => g.evaluations = k := by
  have hvalues := (Runs.contract (Run α) True).mapM (f := m.evaluate) (l := stencil u du)
    (P := fun _ k => k = 1) (Q := fun l k => k = l.length) rfl
    (fun a l k n hk hn => by rw [List.length_cons]; omega)
    fun v _ => m.meets_evaluate v fun _ => rfl
  refine Runs.meets_bind hvalues fun values k hk => ?_
  refine (Runs.meets_ofExcept (.inr trivial)).mono ?_
  rintro g _ ⟨hg, rfl⟩
  rw [evaluations_of_differences hg, Nat.add_zero, hk]

end Model

end FailureProbability
