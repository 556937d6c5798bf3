import FailureProbability.Estimate
import FailureProbability.Proofs.Contract
import FailureProbability.Proofs.Draw

/-!
# Cancellation

A monitor may answer a report with the order to stop. A run heeds its monitor when it then comes to
an end at once: it answers without another report and without another evaluation (`Runs.Heeds`). In
a sequence the order may be given in either part. If it is given in the first, the second part must
come to an end by itself (`Runs.Ends`), whatever it would have done otherwise; that is the condition
which every loop and every chain of estimators has to meet. A part without reports (`Runs.Silent`)
cannot be told to stop, and passes the condition on.

An order to stop is looked for in the journal alone, in the answer of its last report. Nothing is
assumed of the monitor: it may have a memory, and give the order at any report or never. A run that
fails before the order was given keeps its error, and one that was told to stop never fails.

## What is left out

How soon a run reports is not stated. A method that evaluates for a long time between two reports is
told to stop no earlier than at the next one, and nothing here bounds the time until then. Nor is it
said what an estimate that was cut short is worth; only that its status tells of it.
-/

namespace FailureProbability

variable {α β γ : Type}

/-! ## Journals -/

namespace Journal

/-- The order under which a journal was left since an earlier one. It is the order to stop if the
last report was answered with it, all reports before were answered with the order to go on, and
nothing has been evaluated since. -/
inductive Under : Control → Journal α → Journal α → Prop
  | proceed {j j' : Journal α} (reports : List (Report α))
      (hreports : j'.reports = reports ++ j.reports)
      (hall : ∀ r ∈ reports, r.answer = .proceed) : Under .proceed j j'
  | abort {j j' : Journal α} (last : Report α) (reports : List (Report α))
      (hreports : j'.reports = last :: reports ++ j.reports) (hlast : last.answer = .abort)
      (hall : ∀ r ∈ reports, r.answer = .proceed)
      (hevaluations : last.evaluations = j'.evaluations) : Under .abort j j'

/-- Where nothing was reported there is no order to stop. -/
theorem under_of_reports_eq {j j' : Journal α} (h : j'.reports = j.reports) :
    Under .proceed j j' :=
  .proceed [] h (by simp)

theorem under_record (j : Journal α) (p : Progress α) (answer : Control) :
    Under answer j (j.record p answer) := by
  cases answer with
  | proceed =>
    exact .proceed [⟨p, .proceed, j.evaluations⟩] rfl (by simp)
  | abort =>
    exact .abort ⟨p, .abort, j.evaluations⟩ [] rfl rfl (by simp) rfl

/-- What follows under some order after all was to go on. -/
theorem Under.trans {order : Control} {j j₁ j₂ : Journal α} (h : Under .proceed j j₁)
    (h' : Under order j₁ j₂) : Under order j j₂ := by
  cases h with
  | proceed before hbefore hproceed =>
    cases h' with
    | proceed after hafter hall =>
      refine .proceed (after ++ before) ?_ ?_
      · rw [hafter, hbefore, List.append_assoc]
      · intro r hr
        rcases List.mem_append.mp hr with hr | hr
        · exact hall r hr
        · exact hproceed r hr
    | abort last after hafter hlast hall hevaluations =>
      refine .abort last (after ++ before) ?_ hlast ?_ hevaluations
      · rw [hafter, hbefore]
        simp
      · intro r hr
        rcases List.mem_append.mp hr with hr | hr
        · exact hall r hr
        · exact hproceed r hr

end Journal

/-! ## Outcomes -/

/-- An outcome after a journal: an answer that meets a condition under the order in force, or an
error, which is possible only as long as there was no order to stop. -/
inductive Obeyed (P : Control → β → Prop) (j : Journal α) :
    Except (Error α) β → Journal α → Prop
  | ok {order : Control} {b : β} {j' : Journal α} (horder : Journal.Under order j j')
      (hb : P order b) : Obeyed P j (.ok b) j'
  | error {e : Error α} {j' : Journal α} (horder : Journal.Under .proceed j j') :
      Obeyed P j (.error e) j'

theorem Obeyed.after {P : Control → β → Prop} {j j₁ j₂ : Journal α} {x : Except (Error α) β}
    (hj : Journal.Under .proceed j j₁) (h : Obeyed P j₁ x j₂) : Obeyed P j x j₂ := by
  cases h with
  | ok horder hb => exact .ok (hj.trans horder) hb
  | error horder => exact .error (hj.trans horder)

theorem Obeyed.mono {P Q : Control → β → Prop} {j j' : Journal α} {x : Except (Error α) β}
    (h : Obeyed P j x j') (himp : ∀ order b, P order b → Q order b) : Obeyed Q j x j' := by
  cases h with
  | ok horder hb => exact .ok horder (himp _ _ hb)
  | error horder => exact .error horder

/-! ## Runs

All notions are stated of any computation that keeps a journal, with a state of its own or without
one. A run in the plain sense is the case of a trivial state; where it is easier to speak of, the
lemmas that end in `_iff` say what a notion means there. -/

namespace Runs

variable {M : Type → Type} {τ : Type} [Monad M] [Runs M τ α]

/-! ### Runs without reports -/

/-- The run makes no report, and its answers meet a condition. -/
def Silent (r : M β) (P : β → Prop) : Prop :=
  ∀ s j, (exec r s j).2.2.reports = j.reports ∧ ∀ b, (exec r s j).1 = .ok b → P b

theorem Silent.mono {r : M β} {P Q : β → Prop} (h : Silent r P) (himp : ∀ b, P b → Q b) :
    Silent r Q :=
  fun s j => ⟨(h s j).1, fun b hb => himp b ((h s j).2 b hb)⟩

theorem silent_pure {b : β} {P : β → Prop} (h : P b) : Silent (pure b : M β) P := by
  intro s j
  rw [exec_pure]
  refine ⟨rfl, fun b' hb' => ?_⟩
  cases hb'
  exact h

theorem silent_bind {r : M β} {f : β → M γ} {P : β → Prop} {Q : γ → Prop} (hr : Silent r P)
    (hf : ∀ b, P b → Silent (f b) Q) : Silent (r >>= f) Q := by
  intro s j
  obtain ⟨hreports, hP⟩ := hr s j
  rcases hj : exec r s j with ⟨e | b, s₁, j₁⟩ <;> rw [hj] at hreports hP
  · rw [exec_bind_error hj]
    exact ⟨hreports, fun c hc => by cases hc⟩
  · obtain ⟨hrest, hQ⟩ := hf b (hP b rfl) s₁ j₁
    rw [exec_bind_ok hj]
    exact ⟨hrest.trans hreports, hQ⟩

theorem silent_iff {r : Run α β} {P : β → Prop} :
    Silent r P ↔ ∀ j, (r.exec j).2.reports = j.reports ∧ ∀ b, (r.exec j).1 = .ok b → P b :=
  ⟨fun h => h ⟨⟩, fun h _ => h⟩

theorem silent_lift {r : Run α β} {P : β → Prop} (h : Silent r P) : Silent (lift r : M β) P := by
  intro s j
  rw [exec_lift]
  exact h ⟨⟩ j

/-- What makes no report, as a contract that leaves the evaluations out of account. -/
def silent (M : Type → Type) [Monad M] [Runs M τ α] : Contract M where
  Holds r P := Silent r fun b => ∃ k, P b k
  of_pure h := silent_pure ⟨0, h⟩
  of_bind hr hf := silent_bind hr fun b ⟨k, hk⟩ => (hf b k hk).mono fun _ ⟨l, hl⟩ => ⟨k + l, hl⟩

theorem silent_ofExcept (x : Except (Error α) β) :
    Silent (Run.ofExcept x) fun b => x = .ok b :=
  fun _ _ => ⟨rfl, fun _ hb => hb⟩

theorem silent_throw (e : Error α) (P : β → Prop) : Silent (throw e : Run α β) P :=
  fun _ _ => ⟨rfl, fun _ hb => by cases hb⟩

theorem silent_get : Silent (get : RunWith τ α τ) fun _ => True :=
  fun _ _ => ⟨rfl, fun _ _ => trivial⟩

theorem silent_modify (f : τ → τ) : Silent (modify f : RunWith τ α PUnit) fun _ => True :=
  fun _ _ => ⟨rfl, fun _ _ => trivial⟩

/-! ### Runs that heed a monitor -/

/-- The run heeds the monitor: from every state and journal, an order to stop is the end of all
reports and evaluations and leads to an answer, and the answer meets a condition under the order in
force. -/
def Heeds (r : M β) (P : Control → β → Prop) : Prop :=
  ∀ s j, Obeyed P j (exec r s j).1 (exec r s j).2.2

/-- The run answers without a report and without an evaluation; its state may change. -/
def Ends (r : M β) (P : β → Prop) : Prop := ∀ s j, ∃ b s', exec r s j = (.ok b, s', j) ∧ P b

theorem Heeds.mono {r : M β} {P Q : Control → β → Prop} (h : Heeds r P)
    (himp : ∀ order b, P order b → Q order b) : Heeds r Q :=
  fun s j => (h s j).mono himp

/-- Where nothing is reported there is no order to stop. -/
theorem Silent.heeds {r : M β} {P : β → Prop} (h : Silent r P) :
    Heeds r fun order b => order = .proceed ∧ P b := by
  intro s j
  obtain ⟨hreports, hP⟩ := h s j
  have hunder := Journal.under_of_reports_eq hreports
  cases hx : (exec r s j).1 with
  | error e => exact .error hunder
  | ok b => exact .ok hunder ⟨rfl, hP b hx⟩

theorem heeds_pure {P : Control → β → Prop} {b : β} (h : P .proceed b) :
    Heeds (pure b : M β) P := by
  intro s j
  rw [exec_pure]
  exact .ok (Journal.under_of_reports_eq rfl) h

/-- After an order to stop, what is left of a sequence must come to an end by itself. -/
theorem heeds_bind {r : M β} {f : β → M γ} {P : Control → β → Prop} {Q : Control → γ → Prop}
    (hr : Heeds r P) (hgo : ∀ b, P .proceed b → Heeds (f b) Q)
    (hstop : ∀ b, P .abort b → Ends (f b) (Q .abort)) : Heeds (r >>= f) Q := by
  intro s j
  have h := hr s j
  rcases hj : exec r s j with ⟨x, s₁, j₁⟩
  rw [hj] at h
  cases h with
  | error horder =>
    rw [exec_bind_error hj]
    exact .error horder
  | @ok order b _ horder hb =>
    rw [exec_bind_ok hj]
    cases order with
    | proceed => exact (hgo b hb s₁ j₁).after horder
    | abort =>
      obtain ⟨c, s₂, hc, hQ⟩ := hstop b hb s₁ j₁
      rw [hc]
      exact .ok horder hQ

theorem Silent.heeds_bind {r : M β} {f : β → M γ} {P : β → Prop} {Q : Control → γ → Prop}
    (hr : Silent r P) (hf : ∀ b, P b → Heeds (f b) Q) : Heeds (r >>= f) Q :=
  Runs.heeds_bind hr.heeds (fun b hb => hf b hb.2) fun _ hb => by cases hb.1

theorem heeds_lift {r : Run α β} {P : Control → β → Prop} (h : Heeds r P) :
    Heeds (lift r : M β) P := by
  intro s j
  rw [exec_lift]
  exact h ⟨⟩ j

theorem heeds_iff {r : Run α β} {P : Control → β → Prop} :
    Heeds r P ↔ ∀ j, Obeyed P j (r.exec j).1 (r.exec j).2 :=
  ⟨fun h => h ⟨⟩, fun h _ => h⟩

theorem heeds_throw (e : Error α) (P : Control → β → Prop) : Heeds (throw e : Run α β) P :=
  fun _ _ => .error (Journal.under_of_reports_eq rfl)

/-! ### Ends -/

theorem Ends.mono {r : M β} {P Q : β → Prop} (h : Ends r P) (himp : ∀ b, P b → Q b) :
    Ends r Q := by
  intro s j
  obtain ⟨b, s', hb, hP⟩ := h s j
  exact ⟨b, s', hb, himp b hP⟩

theorem ends_pure {P : β → Prop} {b : β} (h : P b) : Ends (pure b : M β) P :=
  fun s j => ⟨b, s, exec_pure b s j, h⟩

theorem ends_bind {r : M β} {f : β → M γ} {P : β → Prop} {Q : γ → Prop} (hr : Ends r P)
    (hf : ∀ b, P b → Ends (f b) Q) : Ends (r >>= f) Q := by
  intro s j
  obtain ⟨b, s₁, hb, hP⟩ := hr s j
  rw [exec_bind_ok hb]
  exact hf b hP s₁ j

theorem ends_lift {r : Run α β} {P : β → Prop} (h : Ends r P) : Ends (lift r : M β) P := by
  intro s j
  obtain ⟨b, _, hb, hP⟩ := h ⟨⟩ j
  have hanswer := congrArg Prod.fst hb
  have hjournal := congrArg (fun x => x.2.2) hb
  exact ⟨b, s, (exec_lift r s j).trans (Prod.ext hanswer (Prod.ext rfl hjournal)), hP⟩

theorem ends_ofExcept {x : Except (Error α) β} {P : β → Prop} (h : ∃ b, x = .ok b)
    (hP : ∀ b, x = .ok b → P b) : Ends (Run.ofExcept x) P := by
  obtain ⟨b, rfl⟩ := h
  exact fun s _ => ⟨b, s, rfl, hP b rfl⟩

theorem ends_modify (f : τ → τ) : Ends (modify f : RunWith τ α PUnit) fun _ => True :=
  fun s _ => ⟨⟨⟩, f s, rfl, trivial⟩

/-- The counter may be read on both sides of a run. -/
theorem Heeds.measured {r : M β} {g : β → Nat → γ} {P : Control → β → Prop}
    {Q : Control → γ → Prop} (h : Heeds r P) (hg : ∀ order b k, P order b → Q order (g b k)) :
    Heeds (do
      let before ← (lift Run.evaluations : M Nat)
      let b ← r
      let after ← (lift Run.evaluations : M Nat)
      return g b (after - before)) Q := by
  have hread : Silent (lift Run.evaluations : M Nat) fun _ => True :=
    silent_lift fun _ _ => ⟨rfl, fun _ _ => trivial⟩
  have hends : Ends (lift Run.evaluations : M Nat) fun _ => True :=
    ends_lift fun s j => ⟨j.evaluations, s, rfl, trivial⟩
  refine hread.heeds_bind fun before _ => ?_
  refine heeds_bind h (fun b hb => ?_) fun b hb => ?_
  · refine hread.heeds_bind fun after _ => ?_
    exact heeds_pure (hg _ _ _ hb)
  · refine ends_bind hends fun after _ => ?_
    exact ends_pure (hg _ _ _ hb)

end Runs

/-! ## What a run asks of a model

A value that was found tells that its point is one of the model. That is all that is used of values
below: it makes sure that a run has physical values for the design point with which it ends. -/

namespace Model

/-- A report is where orders come from. -/
theorem heeds_report (m : Model α) (p : Progress α) :
    Runs.Heeds (m.report p) fun order stop => stop = true ↔ order = .abort := by
  refine Runs.heeds_iff.mpr fun j => ?_
  rw [exec_report]
  refine .ok (Journal.under_record j p (m.answer j p)) ?_
  cases m.answer j p with
  | proceed => decide
  | abort => decide

variable [Scalar α]

/-- A point that has a value is one of the model. -/
theorem length_of_rawValue {m : Model α} {u : List α} {z : α} (h : m.rawValue u = .ok z) :
    u.length = m.dimension := by
  obtain ⟨d, hd, -⟩ := bind_eq_ok.mp h
  exact length_of_draw hd

theorem silent_evaluate (m : Model α) (u : List α) :
    Runs.Silent (m.evaluate u) fun _ => u.length = m.dimension := by
  refine Runs.silent_iff.mpr fun j => ?_
  rw [exec_evaluate]
  exact ⟨rfl, fun _ hz => length_of_rawValue hz⟩

theorem silent_z (m : Model α) (u : List α) :
    Runs.Silent (m.z u) fun _ => u.length = m.dimension := by
  refine Runs.silent_bind (m.silent_evaluate u) fun v hv => ?_
  exact (Runs.silent_ofExcept _).mono fun _ _ => hv

omit [Scalar α] in
/-- Evaluations of a list of points answer at points of the model only. -/
theorem silent_mapM {m : Model α} {f : List α → Run α β}
    (hf : ∀ u, Runs.Silent (f u) fun _ => u.length = m.dimension) (points : List (List α)) :
    Runs.Silent (points.mapM f) fun _ => ∀ u ∈ points, u.length = m.dimension := by
  have hall := (Runs.silent (Run α)).mapM (f := f) (l := points)
    (P := fun u _ => u.length = m.dimension)
    (Q := fun l _ => ∀ u ∈ l, u.length = m.dimension) (by simp)
    (fun u l k n hu hl v hv => by
      rcases List.mem_cons.mp hv with rfl | hv
      · exact hu
      · exact hl v hv)
    fun u _ => (hf u).mono fun _ hu => ⟨0, hu⟩
  exact hall.mono fun _ h => h.choose_spec

theorem silent_zAll (m : Model α) (points : List (List α)) :
    Runs.Silent (m.zAll points) fun _ => ∀ u ∈ points, u.length = m.dimension :=
  silent_mapM m.silent_z points

/-- A gradient is known at points of the model only. -/
theorem silent_gradient (m : Model α) (u : List α) (du : α) :
    Runs.Silent (m.gradient u du) fun _ => u.length = m.dimension := by
  refine Runs.silent_bind (silent_mapM m.silent_evaluate (stencil u du)) fun values hpoints => ?_
  exact (Runs.silent_ofExcept _).mono fun _ _ => hpoints u List.mem_cons_self

end Model

/-- An estimate tells whether there was an order to stop. -/
def Estimate.Obeys (e : Estimate α) (order : Control) : Prop :=
  e.status = .abortedByUser ↔ order = .abort

theorem Estimate.obeys_proceed {e : Estimate α} (h : e.status ≠ .abortedByUser) :
    e.Obeys .proceed := by
  simp [Obeys, h]

theorem Estimate.obeys_abort {e : Estimate α} (h : e.status = .abortedByUser) :
    e.Obeys .abort := by
  simp [Obeys, h]

end FailureProbability
