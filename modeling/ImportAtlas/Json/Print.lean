import ImportAtlas.Json.Basic
import ImportAtlas.Decimal.Shortest

/-!
# Writing JSON

Values are written over several lines, with two blanks for each level and one entry or item on each
line; empty arrays and objects are written on one line. Only what must be escaped in a string is.

* `Json.quoted`: a text as a string.
* `Json.pretty`: the text of a value.
-/

namespace ImportAtlas.Json

/-- A floating-point number, by its shortest decimal text. -/
def ofFloat (x : Float) : Json :=
  .number (Decimal.shortest x)

def hexChar (n : Nat) : Char :=
  Nat.digitChar n

def escapeChar (c : Char) : List Char :=
  if c = '"' then ['\\', '"']
  else if c = '\\' then ['\\', '\\']
  else if c = '\n' then ['\\', 'n']
  else if c = '\r' then ['\\', 'r']
  else if c = '\t' then ['\\', 't']
  else if c = '\x08' then ['\\', 'b']
  else if c = '\x0c' then ['\\', 'f']
  else if c.toNat < 0x20 then
    ['\\', 'u', '0', '0', hexChar (c.toNat / 16), hexChar (c.toNat % 16)]
  else [c]

def quoted (s : String) : List Char :=
  '"' :: s.toList.flatMap escapeChar ++ ['"']

def lineStart (level : Nat) : List Char :=
  '\n' :: List.replicate (2 * level) ' '

/-- Written parts between brackets: each on a line of its own at the level below. -/
def bracketed (first last : Char) (level : Nat) (parts : List (List Char)) : List Char :=
  match parts with
  | [] => [first, last]
  | ps =>
    first :: Text.join [','] (ps.map (lineStart (level + 1) ++ ·)) ++ lineStart level ++ [last]

mutual

/-- The text of a value that begins at a level. -/
def write (level : Nat) : Json → List Char
  | null => "null".toList
  | bool b => if b then "true".toList else "false".toList
  | number s => s.toList
  | string t => quoted (t.getD "")
  | array xs => bracketed '[' ']' level (writeItems (level + 1) xs)
  | object es => bracketed '\x7b' '\x7d' level (writeEntries (level + 1) es)

def writeItems (level : Nat) : List Json → List (List Char)
  | [] => []
  | x :: xs => write level x :: writeItems level xs

def writeEntries (level : Nat) : List (Option String × Json) → List (List Char)
  | [] => []
  | (k, x) :: es => (quoted (k.getD "") ++ ':' :: ' ' :: write level x) :: writeEntries level es

end

/-- The text of a value over several lines. -/
def pretty (j : Json) : String :=
  String.ofList (write 0 j)

end ImportAtlas.Json
