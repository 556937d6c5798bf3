import FailureProbability.Decimal.Reader

/-!
# Numbers of JSON texts

A number of a JSON text is kept as it was written, cut into its parts. What it denotes depends on
who asks. A count is a number without point and exponent below `2 ^ 64`. A double is found from a
significand of at most 64 bits: further digits of the whole part count as powers of ten, further
digits of the fraction are dropped, and the significand, converted once, is multiplied or divided
once by a power of ten. A number above the largest double denotes none.

This is not the nearest double to what is written: the conversion and the scaling each round, and
long texts lose digits before that. Numbers of estimates are read by another rule
(`Decimal.Reader`), which is exact.
-/

namespace FailureProbability.Json

open Decimal

/-- A number as it was written; the digits are characters. -/
structure Number where
  negative : Bool
  whole : List Char
  /-- The digits after the point, if there is a point. -/
  fraction : Option (List Char)
  /-- The sign and the digits of the exponent, if there is one. -/
  exponent : Option (Bool × List Char)
  deriving Repr, BEq, DecidableEq

namespace Number

def significandBound : Nat := Nat.pow 2 64

/-- Digits joined to a significand, as many as it can hold, and the digits left over. -/
def gather (significand : Nat) : List Char → Nat × List Char
  | [] => (significand, [])
  | c :: rest =>
    let next := 10 * significand + (c.toNat - '0'.toNat)
    if next < significandBound then gather next rest else (significand, c :: rest)

/-- The significand of the number, and the power of ten that belongs to it before the exponent is
counted. -/
def significand (n : Number) : Nat × Int :=
  let (whole, excess) := gather 0 n.whole
  let (all, dropped) := gather whole (n.fraction.getD [])
  (all, (excess.length : Int) - ((n.fraction.getD []).length - dropped.length : Nat))

def powerOfTen (k : Nat) : Float := Binary64.ofRatio false (Nat.pow 10 k) 1

/-- A double times a power of ten, in one step if the power has at most 308 zeros; a smaller one is
reached through `1e-308`. -/
def scale : Nat → Float → Int → Option Float
  | 0, f, _ => some f
  | fuel + 1, f, power =>
    if power.natAbs ≤ 308 then
      if 0 ≤ power then
        let product := f * powerOfTen power.natAbs
        if product.isFinite then some product else none
      else some (f / powerOfTen power.natAbs)
    -- Zero stays zero, whatever the power; any other number overflows.
    else if f == 0 then some f
    else if 0 ≤ power then none
    else scale fuel (f / powerOfTen 308) (power + 308)

/-- The largest exponent that is counted; beyond it a number is zero or too large. -/
def exponentBound : Nat := Nat.pow 2 31

def magnitude? (n : Number) : Option Float :=
  let (significand, power) := n.significand
  let f := significand.toUInt64.toFloat
  match n.exponent with
  | none => scale 8 f power
  | some (negative, ds) =>
    let e := countOf ds
    if exponentBound ≤ e then
      if significand ≠ 0 && !negative then none else some 0
    else scale 8 f (if negative then power - e else power + e)

def double? (n : Number) : Option Float :=
  n.magnitude?.map fun f => if n.negative then -f else f

def count? (n : Number) : Option Nat :=
  if n.negative || n.fraction.isSome || n.exponent.isSome then none
  else
    let value := countOf n.whole
    if value < significandBound then some value else none

/-- The parts of a number that is written without fault. -/
def ofText (cs : List Char) : Number :=
  let body := if cs.head? = some '-' then cs.drop 1 else cs
  let mantissa := body.takeWhile (· ≠ 'e')
  let fraction :=
    match mantissa.dropWhile (· ≠ '.') with
    | [] => none
    | _ :: ds => some ds
  let exponent :=
    match body.dropWhile (· ≠ 'e') with
    | [] => none
    | _ :: '-' :: ds => some (true, ds)
    | _ :: '+' :: ds => some (false, ds)
    | _ :: ds => some (false, ds)
  ⟨cs.head? = some '-', mantissa.takeWhile (· ≠ '.'), fraction, exponent⟩

def text (n : Number) : List Char :=
  (if n.negative then ['-'] else []) ++ n.whole ++
    (match n.fraction with
      | none => []
      | some ds => '.' :: ds) ++
    (match n.exponent with
      | none => []
      | some (negative, ds) => 'e' :: (if negative then ['-'] else ['+']) ++ ds)

end Number

end FailureProbability.Json
