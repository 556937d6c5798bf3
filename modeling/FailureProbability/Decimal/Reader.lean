import FailureProbability.Binary64

/-!
# Reading numbers

Counts, whole numbers and doubles as decimal text. A double is the nearest one to the written
decimal, however many digits it has; beyond the largest double it reads as infinite.

A text is read as a whole: what is left over makes it no number, blanks included, which a caller has
to trim. Counts and whole numbers have a range and do not fit beyond it; a double always fits.
Neither a point without digits around it nor a mark without an exponent behind it is a number, while
a point with digits on one side only is allowed.
-/

namespace FailureProbability.Decimal

open Binary64

def digit? (c : Char) : Option Nat :=
  if '0' ≤ c && c ≤ '9' then some (c.toNat - '0'.toNat) else none

def isDigit (c : Char) : Bool := (digit? c).isSome

def countOf (ds : List Char) : Nat :=
  ds.foldl (fun n c => 10 * n + (c.toNat - '0'.toNat)) 0

def digits? (cs : List Char) : Option Nat :=
  if !cs.isEmpty && cs.all isDigit then some (countOf cs) else none

/-- A count below `2 ^ 64`: digits, perhaps after a plus sign. -/
def readCount (cs : List Char) : Option Nat :=
  let value :=
    match cs with
    | '+' :: rest => digits? rest
    | _ => digits? cs
  value.filter (· < Nat.pow 2 64)

/-- A whole number of 32 bits: digits, perhaps after a sign. -/
def readWhole (cs : List Char) : Option Int :=
  let value : Option Int :=
    match cs with
    | '+' :: rest => (digits? rest).map Int.ofNat
    | '-' :: rest => (digits? rest).map fun n : Nat => -(n : Int)
    | _ => (digits? cs).map Int.ofNat
  value.filter fun n => -Int.pow 2 31 ≤ n && n < Nat.pow 2 31

/-- The double nearest to `± significand · 10 ^ power`. Numbers whose first digit stands at a power
of ten far outside the range of doubles need no arithmetic. -/
def nearest (negative : Bool) (significand : Nat) (power : Int) : Float :=
  let first := power + (Nat.toDigits 10 significand).length
  if significand = 0 || first < -400 then ofWord negative 0
  else if 400 < first then ofWord negative infinityWord
  else ofRatio negative (significand * Nat.pow 10 power.toNat) (Nat.pow 10 (-power).toNat)

/-- An exponent after its mark: digits, perhaps after a sign. -/
def exponent? (cs : List Char) : Option Int :=
  match cs with
  | '+' :: rest => (digits? rest).map Int.ofNat
  | '-' :: rest => (digits? rest).map fun n : Nat => -(n : Int)
  | _ => (digits? cs).map Int.ofNat

/-- Digits with an optional point among them and an optional exponent after them. -/
def readMagnitude (negative : Bool) (cs : List Char) : Option Float :=
  let isMark (c : Char) := c = 'e' || c = 'E'
  let mantissa := cs.takeWhile fun c => !isMark c
  let whole := mantissa.takeWhile (· ≠ '.')
  let fraction := (mantissa.dropWhile (· ≠ '.')).drop 1
  let power : Option Int :=
    match cs.dropWhile fun c => !isMark c with
    | [] => some 0
    | _ :: rest => exponent? rest
  if (whole ++ fraction).isEmpty || !(whole ++ fraction).all isDigit then none
  else power.map fun p => nearest negative (countOf (whole ++ fraction)) (p - fraction.length)

/-- Is there a minus sign in front, and what follows the sign, if there is one? -/
def takeSign (cs : List Char) : Bool × List Char :=
  match cs with
  | '-' :: rest => (true, rest)
  | '+' :: rest => (false, rest)
  | _ => (false, cs)

/-- A double: an optional sign before a decimal, or before `inf`, `infinity` or `nan` in letters of
either case. -/
def readFloat (cs : List Char) : Option Float :=
  let (negative, body) := takeSign cs
  let word := String.ofList (body.map Char.toLower)
  if word = "inf" || word = "infinity" then some (if negative then -1 / 0 else 1 / 0)
  else if word = "nan" then some (0 / 0)
  else readMagnitude negative body

end FailureProbability.Decimal
