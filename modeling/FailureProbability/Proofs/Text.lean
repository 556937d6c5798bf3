import FailureProbability.Text.Blank
import Mathlib

/-!
# Lines

A text whose lines are each ended by a line feed has these lines, provided that none has a line feed
of its own (`lines_flatMap`). Trimming leaves a line as it is if it has no blank at either end,
which also keeps a carriage return away from the line feed.

An empty line is a line as well; it has no ends that could be blank. Blanks in the middle are
allowed, and so is every other character: which ones are blank is a matter of `isBlank` alone.
-/

namespace FailureProbability.Text

/-- One line without a blank at its ends. -/
structure IsLine (cs : List Char) : Prop where
  unbroken : '\n' ∉ cs
  head : ∀ c ∈ cs.head?, isBlank c = false
  last : ∀ c ∈ cs.getLast?, isBlank c = false

variable {cs l : List Char} {ls : List (List Char)}

theorem isLine_of_forall (h : ∀ c ∈ cs, isBlank c = false) : IsLine cs where
  unbroken hbreak := Bool.noConfusion (h _ hbreak)
  head c hc := h c (List.mem_of_mem_head? hc)
  last c hc := h c (List.mem_of_mem_getLast? hc)

theorem isBlank_of_printable {c : Char} (h : 32 < c.toNat ∧ c.toNat < 127) : isBlank c = false := by
  unfold isBlank
  simp
  omega

/-- Characters that are printed and no spaces make a line. -/
theorem isLine_of_printable (h : ∀ c ∈ cs, 32 < c.toNat ∧ c.toNat < 127) : IsLine cs :=
  isLine_of_forall fun c hc => isBlank_of_printable (h c hc)

/-- Lines joined by a character that is not blank are a line. -/
theorem IsLine.join (hcs : IsLine cs) (hl : IsLine l) {c : Char} (hc : isBlank c = false) :
    IsLine (cs ++ c :: l) where
  unbroken := by
    have hne : '\n' ≠ c := by
      rintro rfl
      exact Bool.noConfusion hc
    simp [hcs.unbroken, hl.unbroken, hne]
  head d hd := by
    cases cs with
    | nil =>
      cases hd
      exact hc
    | cons a cs => exact hcs.head d hd
  last d hd := by
    rw [List.getLast?_append_cons] at hd
    cases l with
    | nil =>
      cases hd
      exact hc
    | cons a l => exact hl.last d hd

/-! ## Trimming -/

theorem dropWhile_isBlank (h : ∀ c ∈ cs.head?, isBlank c = false) : cs.dropWhile isBlank = cs := by
  cases cs with
  | nil => rfl
  | cons c cs => rw [List.dropWhile_cons_of_neg (by rw [h c rfl]; decide)]

theorem IsLine.trim (h : IsLine cs) : trim cs = cs := by
  unfold Text.trim
  rw [dropWhile_isBlank h.head, dropWhile_isBlank (by simpa using h.last), List.reverse_reverse]

/-! ## Splitting -/

/-- What is not a line feed belongs to the line that was begun. -/
theorem go_append (hl : '\n' ∉ l) (current rest : List Char) :
    lines.go current (l ++ rest) = lines.go (l.reverse ++ current) rest := by
  induction l generalizing current with
  | nil => rfl
  | cons c l ih =>
    rw [List.mem_cons, not_or] at hl
    have hstep : lines.go current (c :: (l ++ rest)) = lines.go (c :: current) (l ++ rest) := by
      rw [lines.go]
      · rintro rfl
        exact absurd rfl hl.1
      · rintro d ds rfl
        exact absurd rfl hl.1
    rw [List.cons_append, hstep, ih hl.2, List.reverse_cons, List.append_assoc, List.singleton_append]

theorem go_newline (current rest : List Char) :
    lines.go current ('\n' :: rest) = (lines.dropReturn current).reverse :: lines rest := by
  cases rest <;> rfl

theorem IsLine.lines_append (h : IsLine l) (rest : List Char) :
    lines (l ++ '\n' :: rest) = l :: lines rest := by
  have hreturn : lines.dropReturn l.reverse = l.reverse := by
    unfold lines.dropReturn
    split
    case h_1 hlast =>
      have hblank := h.last '\r' (by rw [← List.head?_reverse, hlast]; rfl)
      exact absurd hblank (by decide)
    case h_2 => rfl
  have hgo : lines (l ++ '\n' :: rest) = lines.go [] (l ++ '\n' :: rest) := by
    cases l <;> rfl
  rw [hgo, go_append h.unbroken, List.append_nil, go_newline, hreturn, List.reverse_reverse]

theorem lines_flatMap (h : ∀ l ∈ ls, IsLine l) : lines (ls.flatMap (· ++ ['\n'])) = ls := by
  induction ls with
  | nil => rfl
  | cons l ls ih =>
    rw [List.flatMap_cons, List.append_assoc, List.singleton_append, (h l (by simp)).lines_append,
      ih fun l hl => h l (List.mem_cons_of_mem _ hl)]

/-- Lines are read from a text as they are. -/
theorem map_trim_lines (h : ∀ l ∈ ls, IsLine l) :
    (lines (ls.flatMap (· ++ ['\n']))).map trim = ls := by
  rw [lines_flatMap h]
  exact (List.map_congr_left fun l hl => (h l hl).trim).trans (List.map_id ls)

end FailureProbability.Text
