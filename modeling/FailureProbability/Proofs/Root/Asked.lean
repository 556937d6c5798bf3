import FailureProbability.Root.Ray

/-!
# What a search asks for

A search is written for any monad and sees a function only through the values that it asks for. Of a
function that is known it does the same in every monad: it asks for the values at a list of
abscissas, in their order, and then answers (`asking`). The list and the answer are those of the
function alone. So what is found where every abscissa is noted (`noted`) holds as well of a search
inside a run, whatever else its values do there.

A computation of values may do anything besides, and do it again each time (`Answers`); it may not
fail, and it may not return different values for one abscissa. What a search does where a value
fails is that of its monad, which ends it there.
-/

namespace FailureProbability.Root

variable {α β γ : Type} {M : Type → Type} [Monad M]

/-- A computation of values has those of a function, whatever else it does. -/
def Answers (f : α → M α) (g : α → α) : Prop := ∀ x, (do let _ ← f x; return g x) = f x

/-- Asks for the values at a list of abscissas, in their order, and then answers. -/
def asking (f : α → M α) : List α → β → M β
  | [], answer => return answer
  | x :: asked, answer => do
    let _ ← f x
    asking f asked answer

section

variable [LawfulMonad M] {f : α → M α} {g : α → α}

/-- What follows a value goes on with that of the function. -/
theorem Answers.bind (h : Answers f g) (x : α) (k : α → M β) :
    f x >>= k = f x >>= fun _ => k (g x) := by
  have hx : (f x >>= fun _ => pure (g x)) >>= k = f x >>= k := by rw [h x]
  rw [← hx]
  simp only [bind_assoc, pure_bind]

/-- A search after a search asks for the abscissas of both. -/
theorem asking_bind {k : β → M γ} {asked more : List α} {answer : β} {answer' : γ}
    (h : k answer = asking f more answer') :
    asking f asked answer >>= k = asking f (asked ++ more) answer' := by
  induction asked with
  | nil => simp only [asking, pure_bind, List.nil_append, h]
  | cons x asked ih => simp only [asking, bind_assoc, List.cons_append, ih]

theorem asking_return (k : β → γ) (asked : List α) (answer : β) :
    (do let b ← asking f asked answer; return k b) = asking f asked (k answer) := by
  induction asked with
  | nil => simp only [asking, pure_bind]
  | cons x asked ih => simp only [asking, bind_assoc, ih]

/-- Where values do nothing else, only the answer is left. -/
theorem asking_id (g : α → α) (asked : List α) (answer : β) :
    asking (M := Id) g asked answer = answer := by
  induction asked with
  | nil => rfl
  | cons x asked ih => exact ih

end

/-! ## Notes -/

/-- The values of a function, where every abscissa is noted. -/
def noted [MonadStateOf (List α) M] (g : α → α) (x : α) : M α := do
  modify (· ++ [x])
  return g x

/-- To note an abscissa does not change its value. -/
theorem answers_noted [LawfulMonad M] [MonadStateOf (List α) M] (g : α → α) :
    Answers (noted g : α → M α) g := by
  intro x
  simp only [noted, bind_assoc, pure_bind]

theorem run_asking_noted (g : α → α) (asked : List α) (answer : β) (before : List α) :
    (asking (noted g) asked answer : StateM (List α) β).run before = (answer, before ++ asked) := by
  induction asked generalizing before with
  | nil =>
    rw [List.append_nil]
    rfl
  | cons x asked ih =>
    rw [List.append_cons]
    exact ih (before ++ [x])

/-- The same for searches that might fail. -/
theorem run_run_asking_noted {ε : Type} (g : α → α) (asked : List α) (answer : β)
    (before : List α) :
    (asking (noted g) asked answer : ExceptT ε (StateM (List α)) β).run.run before =
      (.ok answer, before ++ asked) := by
  induction asked generalizing before with
  | nil =>
    rw [List.append_nil]
    rfl
  | cons x asked ih =>
    rw [List.append_cons]
    exact ih (before ++ [x])

end FailureProbability.Root
