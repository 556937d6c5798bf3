import Mathlib
import FailureProbability.Scalar.Exact

/-!
# Exact arithmetic with numbers that are not finite

A limit state may have no finite value at some points, and exact numbers are all finite. Statements
on such limit states are made of any arithmetic whose finite numbers are the real ones and are
computed with exactly (`Scalar.IsExact`); what becomes of the other numbers is left open. The exact
numbers are one such arithmetic, and the real numbers with an undefined one are another.

Left open are comparisons as well, and all functions but the four operations, since no statement
with this hypothesis depends on them. A quotient by zero is not asked to be anything, so that it may
be infinite, undefined or zero.

Doubles are no such arithmetic: their sums are rounded. `PartialReal` stands for what they have
besides, a number that is not finite and makes everything undefined that it is used in.
-/

namespace FailureProbability

/-- The finite numbers of an arithmetic are the real numbers, with their sums, differences, products
and quotients. -/
structure Scalar.IsExact {α : Type} [Scalar α] (real : ℝ → α) : Prop where
  injective : Function.Injective real
  isFinite_iff : ∀ x, Scalar.isFinite x = true ↔ ∃ a, real a = x
  ofNat : ∀ n : ℕ, Scalar.ofNat n = real n
  add : ∀ a b, real a + real b = real (a + b)
  sub : ∀ a b, real a - real b = real (a - b)
  mul : ∀ a b, real a * real b = real (a * b)
  div : ∀ a b, b ≠ 0 → real a / real b = real (a / b)

/-- A real number, or what is left of an operation without a result. -/
inductive PartialReal where
  | finite (x : ℝ)
  | undefined

namespace PartialReal

/-- A function of a number; of what is undefined nothing becomes defined. -/
def map (f : ℝ → ℝ) : PartialReal → PartialReal
  | finite x => finite (f x)
  | undefined => undefined

/-- A function of two numbers, which both have to be defined. -/
def map₂ (f : ℝ → ℝ → ℝ) : PartialReal → PartialReal → PartialReal
  | finite x, finite y => finite (f x y)
  | _, _ => undefined

/-- The number, if there is one. -/
def number? : PartialReal → Option ℝ
  | finite x => some x
  | undefined => none

/-- A comparison, which holds of nothing that is undefined. -/
def Compares (r : ℝ → ℝ → Prop) (x y : PartialReal) : Prop :=
  ∃ a ∈ x.number?, ∃ b ∈ y.number?, r a b

open Classical in
/-- Real arithmetic, where a quotient by zero is undefined. -/
noncomputable instance [SpecialFunctions] : Scalar PartialReal where
  add := map₂ (· + ·)
  sub := map₂ (· - ·)
  mul := map₂ (· * ·)
  div x y := if y = finite 0 then undefined else map₂ (· / ·) x y
  neg := map (-·)
  lt := Compares (· < ·)
  le := Compares (· ≤ ·)
  beq x y := decide (Compares (· = ·) x y)
  ofScientific m negative e := finite (OfScientific.ofScientific m negative e)
  decLt _ _ := propDecidable _
  decLe _ _ := propDecidable _
  ofNat n := finite n
  infinity := undefined
  isFinite x := x.number?.isSome
  isNaN x := x.number?.isNone
  abs := map Scalar.abs
  sqrt := map Scalar.sqrt
  exp := map Scalar.exp
  log := map Scalar.log
  log1p := map Scalar.log1p
  pow := map₂ Scalar.pow
  mulAdd x y z := map₂ (· + ·) (map₂ (· * ·) x y) z
  ceilNat x := (x.number?.map Scalar.ceilNat).getD 0
  erfc := map Scalar.erfc
  erfcInv := map Scalar.erfcInv
  gammaLower := map₂ Scalar.gammaLower
  gammaUpper := map₂ Scalar.gammaUpper

/-- The real numbers among the partial ones are exact. -/
theorem isExact_finite [SpecialFunctions] : Scalar.IsExact finite where
  injective _ _ h := by
    cases h
    rfl
  isFinite_iff x := by
    cases x with
    | finite a => exact iff_of_true rfl ⟨a, rfl⟩
    | undefined => exact iff_of_false (fun h => by cases h) fun ⟨a, h⟩ => by cases h
  ofNat _ := rfl
  add _ _ := rfl
  sub _ _ := rfl
  mul _ _ := rfl
  div a b hb := by
    have hne : finite b ≠ finite 0 := fun h => hb (by cases h; rfl)
    exact if_neg hne

end PartialReal

end FailureProbability
