import FailureProbability.Json.Basic

/-!
# Writing JSON

Two layouts: one line without blanks, and one member or element per line, indented by two blanks per
level, where an empty array or object stays on its line.

Only quotes, backslashes and control characters are escaped. Members are written in the order in
which they stand, and repeated names are written as often as they occur.
-/

namespace FailureProbability.Json

def hexDigit (n : Nat) : Char := if n < 10 then Char.ofNat (48 + n) else Char.ofNat (87 + n)

def escaped (c : Char) : List Char :=
  if c = '"' then ['\\', '"']
  else if c = '\\' then ['\\', '\\']
  else if c = '\n' then ['\\', 'n']
  else if c = '\r' then ['\\', 'r']
  else if c = '\t' then ['\\', 't']
  else if c = '\x08' then ['\\', 'b']
  else if c = '\x0c' then ['\\', 'f']
  else if c.toNat < 0x20 then
    ['\\', 'u', '0', '0', hexDigit (c.toNat / 16), hexDigit (c.toNat % 16)]
  else [c]

def quoted (s : String) : String := String.ofList ('"' :: s.toList.flatMap escaped ++ ['"'])

/-- A text in quotes, an unpaired surrogate replaced. -/
def quotedText (s : Option String) : String := quoted (s.getD "\uFFFD")

mutual

def render : Json → String
  | .null => "null"
  | .bool b => if b then "true" else "false"
  | .number n => String.ofList n.text
  | .text s => quotedText s
  | .array vs => "[" ++ renderElements vs ++ "]"
  | .object ms => "\x7b" ++ renderMembers ms ++ "\x7d"

def renderElements : List Json → String
  | [] => ""
  | [v] => render v
  | v :: vs => render v ++ "," ++ renderElements vs

def renderMembers : List (Option String × Json) → String
  | [] => ""
  | [(name, v)] => quotedText name ++ ":" ++ render v
  | (name, v) :: ms => quotedText name ++ ":" ++ render v ++ "," ++ renderMembers ms

end

def newline (level : Nat) : String := "\n" ++ String.ofList (List.replicate (2 * level) ' ')

mutual

def pretty (level : Nat) : Json → String
  | .array [] => "[]"
  | .array vs => "[" ++ prettyElements (level + 1) vs ++ newline level ++ "]"
  | .object [] => "\x7b\x7d"
  | .object ms => "\x7b" ++ prettyMembers (level + 1) ms ++ newline level ++ "\x7d"
  | .null => "null"
  | .bool b => if b then "true" else "false"
  | .number n => String.ofList n.text
  | .text s => quotedText s

def prettyElements (level : Nat) : List Json → String
  | [] => ""
  | [v] => newline level ++ pretty level v
  | v :: vs => newline level ++ pretty level v ++ "," ++ prettyElements level vs

def prettyMembers (level : Nat) : List (Option String × Json) → String
  | [] => ""
  | [(name, v)] => newline level ++ quotedText name ++ ": " ++ pretty level v
  | (name, v) :: ms =>
    newline level ++ quotedText name ++ ": " ++ pretty level v ++ "," ++ prettyMembers level ms

end

end FailureProbability.Json
