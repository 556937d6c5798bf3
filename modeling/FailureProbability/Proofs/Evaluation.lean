import FailureProbability.Model
import FailureProbability.Proofs.Execution

/-!
# Evaluations and reports

A limit state is a function, so that what an evaluation answers depends on the point alone
(`Model.value`); the journal only grows by the evaluations that returned a value. A report changes
nothing but the journal. Two views of a monitor are used: one that hears what is reported
(`Monitor.HearsProgress`), now and before, and one without a memory (`Monitor.IsStateless`). Neither
sees how much work a report came after.

An evaluation counts when the limit state returned, be it a finite value or not; one that failed, or
that was asked at a point of another dimension, does not count. The value of a run is finite
(`Model.value`), since a value that is not is an error of the run. `Model.FiniteEverywhere` asks for
this at every point of the setup, and of draws that are just made: a limit state may ask its draw
for physical values, but there are no other draws that it will see.
-/

namespace FailureProbability

variable {α : Type}

/-! ## Monitors -/

/-- What a monitor is told by a report, and what it answered. -/
def Report.heard (r : Report α) : Progress α × Control := (r.progress, r.answer)

/-- What a monitor has been told, the latest report first. -/
def Journal.heard (j : Journal α) : List (Progress α × Control) := j.reports.map Report.heard

/-- The answers depend on what is and was reported, and not on the work that lies between. -/
def Monitor.HearsProgress (monitor : Monitor α) : Prop :=
  ∀ before before' p, before.map Report.heard = before'.map Report.heard →
    monitor before p = monitor before' p

/-- The answers depend on the present report. -/
def Monitor.IsStateless (monitor : Monitor α) : Prop :=
  ∀ before before' p, monitor before p = monitor before' p

theorem Monitor.IsStateless.hearsProgress {monitor : Monitor α} (h : monitor.IsStateless) :
    monitor.HearsProgress :=
  fun before before' p _ => h before before' p

theorem Monitor.isStateless_silent : (Monitor.silent : Monitor α).IsStateless :=
  fun _ _ _ => rfl

theorem Monitor.isStateless_of_eq_silent {monitor : Monitor α} (h : monitor = .silent) :
    monitor.IsStateless := by
  subst h
  exact isStateless_silent

theorem Monitor.isStateless_abortAt (step : Nat) :
    (Monitor.abortAt step : Monitor α).IsStateless :=
  fun _ _ _ => rfl

/-! ## Journals -/

namespace Journal

/-- So many more evaluations. -/
def spend (j : Journal α) (k : Nat) : Journal α := { j with evaluations := j.evaluations + k }

@[simp] theorem spend_zero (j : Journal α) : j.spend 0 = j := rfl

@[simp] theorem spend_spend (j : Journal α) (k l : Nat) :
    (j.spend k).spend l = j.spend (k + l) := by
  simp only [spend, Nat.add_assoc]

@[simp] theorem evaluations_spend (j : Journal α) (k : Nat) :
    (j.spend k).evaluations = j.evaluations + k := rfl

@[simp] theorem reports_spend (j : Journal α) (k : Nat) : (j.spend k).reports = j.reports := rfl

@[simp] theorem heard_record (j : Journal α) (p : Progress α) (answer : Control) :
    (j.record p answer).heard = (p, answer) :: j.heard := rfl

end Journal

/-- The evaluations that count for an answer of the limit state: one if there is a value. -/
def evaluationsFor {ε β : Type} : Except ε β → Nat
  | .ok _ => 1
  | .error _ => 0

namespace Model

variable [Scalar α]

/-! ## Values of the limit state -/

/-- The value of the limit state at a point, finite or not. -/
def rawValue (m : Model α) (u : List α) : Except (Error α) α := do
  let d ← m.draw u
  m.limitState d

/-- The finite value of the limit state at a point. -/
def value (m : Model α) (u : List α) : Except (Error α) α := do
  let z ← m.rawValue u
  checkFinite u z

/-- An evaluation is the value of the limit state and one more in the counter. -/
theorem exec_evaluate (m : Model α) (u : List α) (j : Journal α) :
    (m.evaluate u).exec j = (m.rawValue u, j.spend (evaluationsFor (m.rawValue u))) := by
  simp only [evaluate, rawValue, Run.exec_bind, Run.exec_ofExcept]
  rcases m.draw u with e | d
  · rfl
  · rcases h : m.limitState d with e | z <;> simp only [bind, Except.bind, h] <;> rfl

/-- The same with a value that must be finite; one that is not has been counted, too. -/
theorem exec_z (m : Model α) (u : List α) (j : Journal α) :
    (m.z u).exec j = (m.value u, j.spend (evaluationsFor (m.rawValue u))) := by
  simp only [z, value, Run.exec_bind, exec_evaluate]
  rcases m.rawValue u with e | v <;> rfl

theorem exec_z_of_value {m : Model α} {u : List α} {v : α} (h : m.value u = .ok v)
    (j : Journal α) : (m.z u).exec j = (.ok v, j.spend 1) := by
  obtain ⟨w, hw, -⟩ := bind_eq_ok.mp h
  rw [exec_z, h, hw]
  rfl

/-- An evaluation has answered when there is a finite value, and it is the only one spent. -/
theorem exec_z_eq_ok {m : Model α} {u : List α} {v : α} {j j' : Journal α} :
    (m.z u).exec j = (.ok v, j') ↔ m.value u = .ok v ∧ j' = j.spend 1 := by
  constructor
  · intro h
    have hv : m.value u = .ok v := by rw [exec_z] at h; exact congrArg Prod.fst h
    rw [exec_z_of_value hv] at h
    exact ⟨hv, (congrArg Prod.snd h).symm⟩
  · rintro ⟨hv, rfl⟩
    exact exec_z_of_value hv j

theorem zAll_cons (m : Model α) (u : List α) (points : List (List α)) :
    m.zAll (u :: points) = do
      let z ← m.z u
      let zs ← m.zAll points
      return z :: zs := by
  simp only [zAll, List.mapM_cons]

/-- Points that all have values are evaluated in their order, one evaluation each. -/
theorem exec_zAll_of_values {m : Model α} {points : List (List α)} {zs : List α}
    (h : points.mapM m.value = .ok zs) (j : Journal α) :
    (m.zAll points).exec j = (.ok zs, j.spend points.length) := by
  induction points generalizing zs j with
  | nil =>
    rw [List.mapM_nil] at h
    cases h
    rfl
  | cons u points ih =>
    obtain ⟨v, vs, hv, hrest, rfl⟩ := mapM_cons_eq_ok.mp h
    rw [zAll_cons, Run.exec_bind_ok (exec_z_of_value hv j), Run.exec_bind_ok (ih hrest _),
      Run.exec_pure, Journal.spend_spend, List.length_cons, Nat.add_comm]

/-- Where all points were evaluated, each of them has a finite value. -/
theorem values_of_exec_zAll {m : Model α} {points : List (List α)} {zs : List α}
    {j j' : Journal α} (h : (m.zAll points).exec j = (.ok zs, j')) :
    points.mapM m.value = .ok zs := by
  induction points generalizing zs j j' with
  | nil =>
    cases h
    rfl
  | cons u points ih =>
    rw [zAll_cons] at h
    obtain ⟨v, j₁, hv, h⟩ := Run.exec_bind_eq_ok.mp h
    obtain ⟨ws, j₂, hws, h⟩ := Run.exec_bind_eq_ok.mp h
    cases h
    exact mapM_cons_eq_ok.mpr ⟨v, ws, (exec_z_eq_ok.mp hv).1, ih hws, rfl⟩

end Model

namespace Model

/-! ## Reports -/

/-- The answer of the monitor to a report in view of a journal. -/
def answer (m : Model α) (j : Journal α) (p : Progress α) : Control := m.monitor j.reports p

theorem exec_report (m : Model α) (p : Progress α) (j : Journal α) :
    (m.report p).exec j = (.ok (m.answer j p == .abort), j.record p (m.answer j p)) := rfl

theorem answer_eq_of_heard {m : Model α} (hm : m.monitor.HearsProgress) {j j' : Journal α}
    (h : j.heard = j'.heard) (p : Progress α) : m.answer j p = m.answer j' p :=
  hm j.reports j'.reports p h

end Model

/-! ## What a run reports -/

namespace Journal

/-- From one journal to a later one there are new reports, and all of them meet a condition. -/
def Adds (P : Report α → Prop) (j j' : Journal α) : Prop :=
  ∃ reports, j'.reports = reports ++ j.reports ∧ ∀ r ∈ reports, P r

variable {P : Report α → Prop} {j j₁ j₂ : Journal α}

theorem adds_of_reports_eq (h : j₁.reports = j.reports) : Adds P j j₁ :=
  ⟨[], h, fun _ hr => absurd hr List.not_mem_nil⟩

theorem Adds.trans (h : Adds P j j₁) (h' : Adds P j₁ j₂) : Adds P j j₂ := by
  obtain ⟨rs, hrs, hP⟩ := h
  obtain ⟨rs', hrs', hP'⟩ := h'
  refine ⟨rs' ++ rs, by rw [hrs', hrs, List.append_assoc], fun r hr => ?_⟩
  exact (List.mem_append.mp hr).elim (hP' r) (hP r)

theorem adds_record {p : Progress α} {answer : Control} (h : P ⟨p, answer, j.evaluations⟩) :
    Adds P j (j.record p answer) :=
  ⟨[_], rfl, fun r hr => by rwa [List.mem_singleton.mp hr]⟩

end Journal

namespace Run

variable {β γ : Type} {P : Report α → Prop}

/-- All reports that the run makes meet a condition, also if it fails. -/
def Reports (r : Run α β) (P : Report α → Prop) : Prop :=
  ∀ j : Journal α, j.Adds P (r.exec j).2

theorem reports_pure (b : β) : Reports (pure b : Run α β) P :=
  fun _ => Journal.adds_of_reports_eq rfl

theorem reports_throw (e : Error α) : Reports (throw e : Run α β) P :=
  fun _ => Journal.adds_of_reports_eq rfl

theorem Reports.bind {r : Run α β} {f : β → Run α γ} (hr : Reports r P)
    (hf : ∀ b, Reports (f b) P) : Reports (r >>= f) P := by
  intro j
  have hfirst := hr j
  rcases hj : r.exec j with ⟨e | b, j₁⟩ <;> rw [hj] at hfirst
  · rw [exec_bind_error hj]
    exact hfirst
  · rw [exec_bind_ok hj]
    exact hfirst.trans (hf b j₁)

end Run

/-- The setup of so many independent standard-normal variables. -/
def Setup.standardNormals [Scalar α] (n : Nat) : Setup α :=
  ⟨List.replicate n .standardNormal, .identity n, List.range n⟩

namespace Model

variable [Scalar α]

/-! ## Gradients -/

theorem checkFinite_eq_ok_iff {u : List α} {z y : α} :
    checkFinite u z = .ok y ↔ Scalar.isFinite z = true ∧ y = z := by
  unfold checkFinite
  cases Scalar.isFinite z <;> simp [eq_comm]

/-- Values give a gradient when the first of them is finite and every coordinate has a
derivative. -/
theorem differences_eq_ok_iff {u values : List α} {du : α} {g : Gradient α} :
    differences u du values = .ok g ↔ Scalar.isFinite (values.getD 0 0) = true ∧
      ∃ slope, ((List.range u.length).mapM fun i => derivative du (values.getD 0 0)
          (values.getD (1 + 2 * i) 0) (values.getD (2 + 2 * i) 0) i) = .ok slope ∧
        g = ⟨values.getD 0 0, slope, 2 * u.length + 1⟩ := by
  unfold differences
  rw [bind_eq_ok]
  constructor
  · rintro ⟨center, hcenter, h⟩
    obtain ⟨hfinite, rfl⟩ := checkFinite_eq_ok_iff.mp hcenter
    obtain ⟨slope, hslope, h⟩ := bind_eq_ok.mp h
    cases h
    exact ⟨hfinite, slope, hslope, by rw [length_stencil]⟩
  · rintro ⟨hfinite, slope, hslope, rfl⟩
    refine ⟨_, checkFinite_eq_ok_iff.mpr ⟨hfinite, rfl⟩, bind_eq_ok.mpr ⟨slope, hslope, ?_⟩⟩
    rw [length_stencil]
    rfl

/-- A gradient counts the points that its values are of. -/
theorem evaluations_of_differences {u values : List α} {du : α} {g : Gradient α}
    (h : differences u du values = .ok g) : g.evaluations = (stencil u du).length := by
  obtain ⟨-, slope, -, rfl⟩ := differences_eq_ok_iff.mp h
  exact (length_stencil u du).symm

/-! ## Limit states with a finite value everywhere -/

/-- At every point of the setup the limit state has a finite value. -/
def FiniteEverywhere (setup : Setup α) (limitState : LimitState α) : Prop :=
  ∀ u, u.length = setup.dimension →
    ∃ z, limitState (Draw.start setup u) = .ok z ∧ Scalar.isFinite z = true

theorem finiteEverywhere_const (setup : Setup α) {z : α} (h : Scalar.isFinite z = true) :
    FiniteEverywhere setup fun _ => .ok z :=
  fun _ _ => ⟨z, rfl, h⟩

theorem FiniteEverywhere.value {m : Model α} (h : FiniteEverywhere m.setup m.limitState)
    {u : List α} (hu : u.length = m.dimension) : ∃ z, m.value u = .ok z := by
  obtain ⟨z, hz, hfinite⟩ := h u hu
  have hdraw : m.draw u = .ok (Draw.start m.setup u) := if_pos hu
  have hraw : m.rawValue u = .ok z := bind_eq_ok.mpr ⟨_, hdraw, hz⟩
  exact ⟨z, bind_eq_ok.mpr ⟨z, hraw, if_pos hfinite⟩⟩

theorem FiniteEverywhere.values {m : Model α} (h : FiniteEverywhere m.setup m.limitState)
    {points : List (List α)} (hpoints : ∀ u ∈ points, u.length = m.dimension) :
    ∃ zs, points.mapM m.value = .ok zs :=
  exists_mapM_iff.mpr fun u hu => h.value (hpoints u hu)

end Model

end FailureProbability
