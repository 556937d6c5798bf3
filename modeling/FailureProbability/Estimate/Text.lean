import FailureProbability.Decimal.Layout
import FailureProbability.Decimal.Reader
import FailureProbability.Error
import FailureProbability.Estimate
import FailureProbability.Scalar.Double
import FailureProbability.Text.Blank

/-!
# Estimates as text

An estimate is written one item per line: the index, the number of influence coefficients and the
coefficients, the number of physical values and the values, the names of the estimators, the code of
the status and the number of steps. Numbers have seventeen significant digits, so that they read
back. The design point and the evaluations are not written; the former follows from the direction.

Reading goes through the lines in order, trimmed of blanks. The first line that is missing or does
not fit is reported by its number, which counts from one.

What was read is not compared with the rest of the text: the coefficients need not have length one,
and their number need not be that of the physical values. Lines after the last item are not looked
at.
-/

namespace FailureProbability

namespace Estimate

/-! ## Writing -/

def numberText (x : Float) : String := Decimal.scientific 16 x

def toLines (e : Estimate Float) : List String :=
  [numberText e.direction.beta, toString e.direction.alpha.length] ++
    e.direction.alpha.map numberText ++ [toString e.x.length] ++ e.x.map numberText ++
    [e.method, toString e.status.code, toString e.steps]

/-- The text of an estimate; each line ends with a line break. -/
def toText (e : Estimate Float) : String :=
  String.join ((toLines e).map (· ++ "\n"))

/-! ## Reading -/

/-- What is left of a text: the lines, and how many there were before. -/
structure Cursor where
  lines : List (List Char)
  line : Nat

/-- Reads from a cursor, or finds a fault in a line. -/
abbrev Reader (β : Type) := StateT Cursor (Except (Error Float)) β

def nextLine (item : String) : Reader (List Char) := do
  let c ← get
  match c.lines with
  | [] => throw (.malformed (c.line + 1) (.missing item))
  | l :: rest =>
    set (Cursor.mk rest (c.line + 1))
    return l

def readItem {β : Type} (item : String) (value : List Char → Option β) : Reader β := do
  let l ← nextLine item
  match value l with
  | some v => return v
  | none => throw (.malformed (← get).line (.unexpected item (String.ofList l)))

def readItems {β : Type} (item : String) (value : List Char → Option β) : Nat → Reader (List β)
  | 0 => return []
  | n + 1 => do
    let v ← readItem item value
    return v :: (← readItems item value n)

def readStatus : Reader Status := do
  let code ← readItem "convergence code" Decimal.readWhole
  match Status.ofCode? code with
  | some s => return s
  | none => throw (.malformed (← get).line (.unknownStatus code))

def read : Reader (Estimate Float) := do
  let beta ← readItem "beta" Decimal.readFloat
  let alpha ← readItems "alpha value" Decimal.readFloat (← readItem "alpha count" Decimal.readCount)
  let x ← readItems "x value" Decimal.readFloat (← readItem "x count" Decimal.readCount)
  let method ← nextLine "method name"
  let status ← readStatus
  let steps ← readItem "step count" Decimal.readCount
  let direction : Direction Float := ⟨beta, alpha⟩
  return ⟨status, direction, x, direction.designPoint, String.ofList method, steps, 0⟩

def ofText (text : String) : Except (Error Float) (Estimate Float) :=
  (read.run ⟨(Text.lines text.toList).map Text.trim, 0⟩).map (·.1)

def ofBytes (bytes : ByteArray) : Except (Error Float) (Estimate Float) :=
  match String.fromUTF8? bytes with
  | some text => ofText text
  | none => .error .unreadable

/-! ## In one line -/

def statusName : Status → String
  | .success => "Success"
  | .noConvergence => "NoConvergence"
  | .abortedByUser => "AbortedByUser"
  | .notStarted => "NotStarted"

def summary (e : Estimate Float) : String :=
  e.method ++ "(beta=" ++ Decimal.positional 6 e.direction.beta ++ ", pf=" ++
    Decimal.scientific 6 e.failureProbability ++ ", status=" ++ statusName e.status ++
    ", steps=" ++ toString e.steps ++ ", evaluations=" ++ toString e.evaluations ++ ")"

end Estimate

end FailureProbability
