import FailureProbability.Decimal.Layout
import FailureProbability.Json.Number

/-!
# JSON values

The values of a JSON text. Numbers keep their digits and objects keep their members in order,
repeated names included, because a reader decides what they mean. A text with an unpaired surrogate
has no characters; it may stand where nothing looks at it.

Values are made from what the library writes by the functions below. A double that is not finite has
no JSON form and is written as nothing, so that it does not read back.
-/

namespace FailureProbability

inductive Json where
  | null
  | bool (value : Bool)
  | number (value : Json.Number)
  /-- A text, unless it holds an unpaired surrogate. -/
  | text (characters : Option String)
  | array (elements : List Json)
  | object (members : List (Option String × Json))

namespace Json

def ofCount (n : Nat) : Json := .number ⟨false, Decimal.digits n, none, none⟩

/-- A double as a value: its shortest text that reads back. What has no digits is nothing. -/
def ofDouble (x : Float) : Json :=
  if x.isFinite then .number (.ofText (Decimal.Layout.interchange.text x).toList) else .null

def ofString (s : String) : Json := .text (some s)

def ofMembers (members : List (String × Json)) : Json :=
  .object (members.map fun m => (some m.1, m.2))

/-- The value of a member; a repeated name counts at its last place. -/
def member? (name : String) : Json → Option Json
  | .object members => (members.reverse.find? fun m => m.1 == some name).map (·.2)
  | _ => none

end Json

end FailureProbability
