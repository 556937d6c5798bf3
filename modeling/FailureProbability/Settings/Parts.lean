import FailureProbability.Form
import FailureProbability.Json.Record

/-!
# Parts of settings in JSON

The names of choices, and the JSON forms of the choices that carry data of their own. Such a choice
is a record that tells its kind; where the kind may come after the data, the data is stored until
then and read by the rules for stored values.
-/

namespace FailureProbability

open Json

def bracketMethods : List (String × Root.Bracket.Method) :=
  [("regula_falsi", .regulaFalsi), ("anderson_bjorck", .andersonBjorck), ("bisection", .bisection)]

/-- The names of the points returned for a crossing. -/
def marchChoices : List (String × Root.March.Choice) :=
  [("last_x", .lastX), ("min_abs_z", .minAbsZ), ("interpolate", .interpolate),
    ("first_negative", .firstNegative)]

/-- The kinds of ray searches. Do they refine a bracket? -/
def rayKinds : List (String × Bool) := [("robust", true), ("linear_loop", false)]

/-- The ray search of a record with its kind and method. An array admits only the plain name of a
kind, and a method that comes before its kind is stored until the kind is known. -/
def rayMethod? (v : Json) : Option Root.Ray.Method := do
  let fs ← fields? ["kind", "method"] v
  let refines ← match v with
    | .array _ => fs.get? "kind" (name? rayKinds)
    | _ => fs.get? "kind" (choice? rayKinds)
  let stored := (fs.head?.map (·.1)) == some "method"
  let method {β : Type} (names : List (String × β)) : Option β :=
    fs.get? "method" (if stored then storedChoice? names else choice? names)
  if refines then .robust <$> method bracketMethods else .linearLoop <$> method marchChoices

def rayMethodJson (m : Root.Ray.Method) : Json :=
  let (kind, method) := match m with
    | .robust r => ("robust", nameOf bracketMethods r)
    | .linearLoop c => ("linear_loop", nameOf marchChoices c)
  ofMembers [("kind", ofString kind), ("method", ofString method)]

/-- Is nothing left of a record that has no fields? -/
def isBare : Json → Bool
  | .array vs => vs.isEmpty
  | _ => true

/-- A start point from its record. In an array all fields must be given. -/
def start? (v : Json) : Option (Start Float) := do
  let (kind, rest) ← tagged? "kind" v
  match kind with
  | "zero" => if isBare rest then some .zero else none
  | "one" => if isBare rest then some .one else none
  | "given" => do
    let fs ← fields? ["u"] rest
    return .given (← fs.get? "u" (list? double?))
  | "ray_search" => do
    let fs ← fields? ["direction", "step", "max_length"] rest
    let direction ← fs.getD "direction" (optional? (list? double?)) none
    return .raySearch direction (← fs.get? "step" double?) (← fs.get? "max_length" double?)
  | _ => none

def startJson (s : Start Float) : Json :=
  let kind (name : String) := ("kind", ofString name)
  match s with
  | .zero => ofMembers [kind "zero"]
  | .one => ofMembers [kind "one"]
  | .given u => ofMembers [kind "given", ("u", .array (u.map ofDouble))]
  | .raySearch direction step maxLength =>
    let d := match direction with
      | some d => .array (d.map ofDouble)
      | none => .null
    ofMembers [kind "ray_search", ("direction", d), ("step", ofDouble step),
      ("max_length", ofDouble maxLength)]

end FailureProbability
