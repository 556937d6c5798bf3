import FailureProbability.Json.Basic

/-!
# Records in JSON

How typed values are read from JSON values. A record is an object, whose unknown members are skipped
and whose known ones must not repeat, or an array of its fields in order. A choice among names is a
text, or an object with that one name and nothing in it. A value that comes before it is known what
it stands for is stored, and read later. Everything else that does not fit is refused without a
further cause.

A field that is given has to fit, also where there is a default for it: a default stands for a field
that is missing and not for one that is wrong. Storing asks more of a value than skipping does, as
its texts and numbers are then looked at (`isPlain`).
-/

namespace FailureProbability.Json

def count? : Json → Option Nat
  | .number n => n.count?
  | _ => none

def double? : Json → Option Float
  | .number n => n.double?
  | _ => none

def flag? : Json → Option Bool
  | .bool b => some b
  | _ => none

def string? : Json → Option String
  | .text s => s
  | _ => none

def list? {β : Type} (element : Json → Option β) : Json → Option (List β)
  | .array vs => vs.mapM element
  | _ => none

def optional? {β : Type} (value : Json → Option β) : Json → Option (Option β)
  | .null => some none
  | v => (value v).map some

def name? {β : Type} (names : List (String × β)) : Json → Option β
  | .text (some s) => names.lookup s
  | _ => none

def choice? {β : Type} (names : List (String × β)) : Json → Option β
  | .object [(some s, .null)] => names.lookup s
  | v => v.name? names

/-- One of some named values, from a stored value: there an object without members is nothing as
well. -/
def storedChoice? {β : Type} (names : List (String × β)) : Json → Option β
  | .object [(some s, .object [])] => names.lookup s
  | v => v.choice? names

/-- The name under which a value stands in a list of names. -/
def nameOf {β : Type} [BEq β] (names : List (String × β)) (value : β) : String :=
  match names.find? fun entry => entry.2 == value with
  | some entry => entry.1
  | none => ""

abbrev Fields := List (String × Json)

def distinct : List String → Bool
  | [] => true
  | name :: rest => !rest.contains name && distinct rest

def knownMembers (known : List String) : List (Option String × Json) → Option Fields
  | [] => some []
  | (none, _) :: _ => none
  | (some name, v) :: rest =>
    (knownMembers known rest).map fun fs => if known.contains name then (name, v) :: fs else fs

def fields? (known : List String) : Json → Option Fields
  | .object ms =>
    (knownMembers known ms).filter fun fs => distinct (fs.map (·.1))
  | .array vs => if vs.length ≤ known.length then some (known.zip vs) else none
  | _ => none

def Fields.getD {β : Type} (fs : Fields) (name : String) (value : Json → Option β)
    (default : β) : Option β :=
  match fs.lookup name with
  | some v => value v
  | none => some default

def Fields.get? {β : Type} (fs : Fields) (name : String) (value : Json → Option β) : Option β :=
  (fs.lookup name).bind value

/-! ## Values read before their kind is known -/

mutual

/-- Does the value hold only texts with characters and numbers within range, nested less than
`depth` deep? -/
def isPlain (depth : Nat) : Json → Bool
  | .null => true
  | .bool _ => true
  | .number n => n.count?.isSome || n.double?.isSome
  | .text s => s.isSome
  | .array vs => depth ≠ 0 && arePlain (depth - 1) vs
  | .object ms => depth ≠ 0 && memberPlain (depth - 1) ms

def arePlain (depth : Nat) : List Json → Bool
  | [] => true
  | v :: vs => isPlain depth v && arePlain depth vs

def memberPlain (depth : Nat) : List (Option String × Json) → Bool
  | [] => true
  | (name, v) :: ms => name.isSome && isPlain depth v && memberPlain depth ms

end

/-- The kind of a record, under `tag` or first in an array, and the record without it. Until the
kind is known the rest is only stored, for which it must be plain. -/
def tagged? (tag : String) (v : Json) : Option (String × Json) :=
  if !isPlain 126 v then none
  else
    match v with
    | .object ms =>
      match ms.filter fun m => m.1 == some tag with
      | [(_, .text (some kind))] => some (kind, .object (ms.filter fun m => m.1 != some tag))
      | _ => none
    | .array (.text (some kind) :: rest) => some (kind, .array rest)
    | _ => none

end FailureProbability.Json
