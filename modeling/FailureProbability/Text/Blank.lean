/-!
# Blank characters

The characters of the Unicode property White_Space, trimming by them, and the lines of a text. Lines
are cut at line feeds only; a carriage return belongs to the line feed that follows it, and is a
blank like others anywhere else.
-/

namespace FailureProbability.Text

def isBlank (c : Char) : Bool :=
  let n := c.toNat
  (9 ≤ n && n ≤ 13) || n = 0x20 || n = 0x85 || n = 0xA0 || n = 0x1680 ||
    (0x2000 ≤ n && n ≤ 0x200A) || n = 0x2028 || n = 0x2029 || n = 0x202F || n = 0x205F ||
    n = 0x3000

def trim (cs : List Char) : List Char :=
  (((cs.dropWhile isBlank).reverse).dropWhile isBlank).reverse

/-- The lines of a text: each ends at a line feed, with or without a carriage return before it, and
the last one may also end with the text. -/
def lines (cs : List Char) : List (List Char) :=
  match cs with
  | [] => []
  | c :: rest => go [] (c :: rest)
where
  /-- The lines of the remaining text, given the characters of the current line, last first. -/
  go (current : List Char) : List Char → List (List Char)
    | [] => [current.reverse]
    | '\n' :: [] => [(dropReturn current).reverse]
    | '\n' :: c :: rest => (dropReturn current).reverse :: go [] (c :: rest)
    | c :: rest => go (c :: current) rest
  /-- A line, last character first, without the carriage return that ends it. -/
  dropReturn : List Char → List Char
    | '\r' :: rest => rest
    | line => line

end FailureProbability.Text
