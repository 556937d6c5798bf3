import FailureProbability.Json.Basic

/-!
# Reading JSON

Strict JSON: one value, blanks around it, nothing else. Recursion is bounded by the length of the
text, since every value and every element consumes at least one character of it.

A text is accepted or refused, and the place of a fault is not told. What a value means is not asked
here: a number may be out of every range, a name may be repeated and a surrogate may be unpaired, as
long as the text keeps to the grammar.
-/

namespace FailureProbability.Json

open Decimal

def isSpace (c : Char) : Bool := c = ' ' || c = '\n' || c = '\t' || c = '\r'

/-- The text from its first character that is not a blank. -/
def skip (cs : List Char) : List Char := cs.dropWhile isSpace

/-! ## Texts -/

def hex? (c : Char) : Option Nat :=
  if '0' ≤ c && c ≤ '9' then some (c.toNat - 48)
  else if 'a' ≤ c && c ≤ 'f' then some (c.toNat - 87)
  else if 'A' ≤ c && c ≤ 'F' then some (c.toNat - 55)
  else none

def unit? : List Char → Option (Nat × List Char)
  | a :: b :: c :: d :: rest => do
    let a ← hex? a
    let b ← hex? b
    let c ← hex? c
    let d ← hex? d
    return (((a * 16 + b) * 16 + c) * 16 + d, rest)
  | _ => none

def escape? (c : Char) : Option Char :=
  if c = '"' || c = '\\' || c = '/' then some c
  else if c = 'b' then some '\x08'
  else if c = 'f' then some '\x0c'
  else if c = 'n' then some '\n'
  else if c = 'r' then some '\r'
  else if c = 't' then some '\t'
  else none

def isLeading (n : Nat) : Bool := 0xD800 ≤ n && n ≤ 0xDBFF

def isTrailing (n : Nat) : Bool := 0xDC00 ≤ n && n ≤ 0xDFFF

/-- The rest of a text after its opening quote. `taken` are the characters so far, last first, or
nothing once an unpaired surrogate was met. -/
def readText : Nat → Option (List Char) → List Char → Option (Option String × List Char)
  | 0, _, _ => none
  | fuel + 1, taken, cs =>
    match cs with
    | [] => none
    | '"' :: rest => some (taken.map fun t => String.ofList t.reverse, rest)
    | '\\' :: 'u' :: rest => do
      let (n, rest) ← unit? rest
      if isLeading n then
        match rest with
        | '\\' :: 'u' :: more =>
          let (m, more) ← unit? more
          if isTrailing m then
            let c := Char.ofNat (0x10000 + (n - 0xD800) * 0x400 + (m - 0xDC00))
            readText fuel (taken.map (c :: ·)) more
          else readText fuel none rest
        | _ => readText fuel none rest
      else if isTrailing n then readText fuel none rest
      else readText fuel (taken.map (Char.ofNat n :: ·)) rest
    | '\\' :: c :: rest => do
      let c ← escape? c
      readText fuel (taken.map (c :: ·)) rest
    | c :: rest => if c.toNat < 0x20 then none else readText fuel (taken.map (c :: ·)) rest

/-! ## Numbers -/

/-- An exponent with its mark and its sign, if there is one. A mark without digits behind it is an
error. -/
def readExponent (cs : List Char) : Option (Option (Bool × List Char) × List Char) :=
  match cs with
  | c :: rest =>
    if c = 'e' || c = 'E' then
      let (negative, rest) :=
        match rest with
        | '-' :: more => (true, more)
        | '+' :: more => (false, more)
        | _ => (false, rest)
      let ds := rest.takeWhile isDigit
      if ds.isEmpty then none else some (some (negative, ds), rest.dropWhile isDigit)
    else some (none, cs)
  | [] => some (none, [])

def readFraction (cs : List Char) : Option (Option (List Char) × List Char) :=
  match cs with
  | '.' :: rest =>
    let ds := rest.takeWhile isDigit
    if ds.isEmpty then none else some (some ds, rest.dropWhile isDigit)
  | _ => some (none, cs)

/-- A number. The whole part has a leading zero only if it is zero. -/
def readNumber (negative : Bool) (cs : List Char) : Option (Number × List Char) := do
  let whole := cs.takeWhile isDigit
  guard !whole.isEmpty
  guard (whole.head? != some '0' || whole.length == 1)
  let (fraction, rest) ← readFraction (cs.dropWhile isDigit)
  let (exponent, rest) ← readExponent rest
  return (⟨negative, whole, fraction, exponent⟩, rest)

/-! ## Values -/

def after? : List Char → List Char → Option (List Char)
  | [], cs => some cs
  | w :: word, c :: cs => if w = c then after? word cs else none
  | _ :: _, [] => none

mutual

/-- A value of any kind, in front of what follows it. Every call takes one unit of fuel. -/
def readValue : Nat → List Char → Option (Json × List Char)
  | 0, _ => none
  | fuel + 1, cs =>
    match skip cs with
    | '"' :: rest => (readText fuel (some []) rest).map fun r => (.text r.1, r.2)
    | '[' :: rest =>
      match skip rest with
      | ']' :: more => some (.array [], more)
      | _ => (readElements fuel rest).map fun r => (.array r.1, r.2)
    | '\x7b' :: rest =>
      match skip rest with
      | '\x7d' :: more => some (.object [], more)
      | _ => (readMembers fuel rest).map fun r => (.object r.1, r.2)
    | 'n' :: rest => (after? ['u', 'l', 'l'] rest).map fun r => (.null, r)
    | 't' :: rest => (after? ['r', 'u', 'e'] rest).map fun r => (.bool true, r)
    | 'f' :: rest => (after? ['a', 'l', 's', 'e'] rest).map fun r => (.bool false, r)
    | '-' :: rest => (readNumber true rest).map fun r => (.number r.1, r.2)
    | rest => (readNumber false rest).map fun r => (.number r.1, r.2)

def readElements : Nat → List Char → Option (List Json × List Char)
  | 0, _ => none
  | fuel + 1, cs =>
    match readValue fuel cs with
    | none => none
    | some (v, rest) =>
      match skip rest with
      | ',' :: more => (readElements fuel more).map fun r => (v :: r.1, r.2)
      | ']' :: more => some ([v], more)
      | _ => none

/-- The members of an object, behind its opening brace. Keys may come twice; all of them are
kept. -/
def readMembers : Nat → List Char → Option (List (Option String × Json) × List Char)
  | 0, _ => none
  | fuel + 1, cs =>
    match skip cs with
    | '"' :: rest =>
      match readText fuel (some []) rest with
      | none => none
      | some (name, rest) =>
        match skip rest with
        | ':' :: rest =>
          match readValue fuel rest with
          | none => none
          | some (v, rest) =>
            match skip rest with
            | ',' :: more => (readMembers fuel more).map fun r => ((name, v) :: r.1, r.2)
            | '\x7d' :: more => some ([(name, v)], more)
            | _ => none
        | _ => none
    | _ => none

end

def read (s : String) : Option Json :=
  let cs := s.toList
  match readValue (2 * cs.length + 2) cs with
  | some (v, rest) => if (skip rest).isEmpty then some v else none
  | none => none

end FailureProbability.Json
