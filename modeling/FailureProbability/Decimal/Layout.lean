import FailureProbability.Decimal.Digits

/-!
# Decimal text of doubles

A double is written from a figure (`Decimal.Digits`) and a layout. Two layouts have a fixed number
of digits: scientific text with so many places, and positional text with so many places. All others
write the shortest figure that reads back and differ in a `Layout` record: where positional text
ends, whether a whole number keeps its `.0`, how an exponent is written, and which of two equally
near figures is taken.

A double that is not finite has no figure and is written by name, in any layout alike. A zero keeps
its sign.
-/

namespace FailureProbability.Decimal

open Binary64

/-- How the shortest figure of a double is laid out. -/
structure Layout where
  /-- The least decimal exponent that is written positionally, if there is one. -/
  least : Option Int
  /-- The greatest decimal exponent that is written positionally, if there is one. -/
  greatest : Option Int
  /-- A whole number written positionally ends in `.0`. -/
  keepPoint : Bool
  /-- A positive exponent has a sign. -/
  signedExponent : Bool
  /-- The choice between two figures that are equally near. -/
  tie : Tie

/-- Always positional, whole numbers without a point, ties upwards. -/
def Layout.plain : Layout := ⟨none, none, false, false, .up⟩

/-- Positional from `1e-4` below `1e16`, whole numbers with a point, ties upwards. -/
def Layout.pointed : Layout := ⟨some (-4), some 15, true, false, .up⟩

/-- Positional from `1e-5` below `1e16`, whole numbers with a point, exponents signed, ties to the
even figure. -/
def Layout.interchange : Layout := ⟨some (-5), some 15, true, true, .toEven⟩

/-- The digits with a point after the first `before` of them; zeros fill the places between the
digits and the point. -/
def placePoint (ds : List Char) (before : Int) (keepPoint : Bool) : List Char :=
  if before ≤ 0 then '0' :: '.' :: List.replicate (-before).toNat '0' ++ ds
  else
    let whole := ds.take before.toNat
    let rest := ds.drop before.toNat
    let zeros := List.replicate (before.toNat - ds.length) '0'
    whole ++ zeros ++ (if rest.isEmpty then (if keepPoint then ['.', '0'] else []) else '.' :: rest)

/-- The digits with a point after the first one, if there are more, and an exponent. -/
def withExponent (ds : List Char) (power : Int) (signed : Bool) : List Char :=
  let mark :=
    if power < 0 then ['e', '-'] else if signed then ['e', '+'] else ['e']
  let figures :=
    match ds with
    | [] => []
    | [d] => [d]
    | d :: rest => d :: '.' :: rest
  figures ++ mark ++ digits power.natAbs

def Layout.magnitude (l : Layout) (significand : Nat) (exponent : Int) : List Char :=
  let f := shortest l.tie significand exponent
  let ds := digits f.units
  let power := f.power + ds.length - 1
  let positional :=
    significand = 0 || (l.least.all (· ≤ power) && l.greatest.all (power ≤ ·))
  if positional then placePoint ds (power + 1) l.keepPoint
  else withExponent ds power l.signedExponent

def signed (negative : Bool) (text : List Char) : String :=
  String.ofList (if negative then '-' :: text else text)

def nonFinite (x : Float) : String :=
  if x.isNaN then "NaN" else if x < 0 then "-inf" else "inf"

/-- The shortest text that reads back as the double, in a layout; the sign of a zero is kept. -/
def Layout.text (l : Layout) (x : Float) : String :=
  match Parts.ofFloat? x with
  | none => nonFinite x
  | some p => signed p.negative (l.magnitude p.significand p.exponent)

/-- Scientific text with so many places after the point, rounded from the exact value. -/
def scientific (places : Nat) (x : Float) : String :=
  match Parts.ofFloat? x with
  | none => nonFinite x
  | some p =>
    let f := significant places p.significand p.exponent
    let ds := if f.units = 0 then List.replicate (places + 1) '0' else digits f.units
    let power := if f.units = 0 then 0 else f.power + places
    signed p.negative (withExponent ds power false)

/-- Positional text with so many places after the point, rounded from the exact value. -/
def positional (places : Nat) (x : Float) : String :=
  match Parts.ofFloat? x with
  | none => nonFinite x
  | some p =>
    let units := fixed places p.significand p.exponent
    let fraction := digits (units % Nat.pow 10 places)
    let padded := List.replicate (places - fraction.length) '0' ++ fraction
    signed p.negative (digits (units / Nat.pow 10 places) ++ '.' :: padded)

end FailureProbability.Decimal
