import ImportAtlas.Json.Basic
import ImportAtlas.Text.Number

/-!
# Reading JSON

The bare grammar: no comments, no trailing commas, no leading zeros.

* `Json.parse?`: the value that a text spells.
-/

namespace ImportAtlas.Json

namespace Reader

def isBlank (c : Char) : Bool :=
  c == ' ' || c == '\n' || c == '\t' || c == '\r'

def skipBlanks (t : List Char) : List Char :=
  t.dropWhile isBlank

/-- The number that four hexadecimal digits spell. -/
def hex4? (a b c d : Char) : Option Nat := do
  let digits ← [a, b, c, d].mapM Text.hexDigit?
  return digits.foldl (fun n digit => n * 16 + digit) 0

/-- One unit of a string: a character, or a UTF-16 unit that an escape names. -/
inductive StringUnit where
  | char (c : Char)
  | escaped (n : Nat)

/-- The units of a string up to its closing quote, and what follows it. -/
def units? : List Char → Option (List StringUnit × List Char)
  | [] => none
  | '"' :: r => some ([], r)
  | '\\' :: 'u' :: a :: b :: c :: d :: r => do
    let n ← hex4? a b c d
    let (us, rest) ← units? r
    return (.escaped n :: us, rest)
  -- a `u` with fewer than four characters behind it comes here, and is no escape
  | '\\' :: c :: r => do
    let e ←
      match c with
      | '"' => some '"'
      | '\\' => some '\\'
      | '/' => some '/'
      | 'b' => some '\x08'
      | 'f' => some '\x0c'
      | 'n' => some '\n'
      | 'r' => some '\r'
      | 't' => some '\t'
      | _ => none
    let (us, rest) ← units? r
    return (.char e :: us, rest)
  | c :: r =>
    if c.toNat < 0x20 then none
    else do
      let (us, rest) ← units? r
      return (.char c :: us, rest)

/-- The text that units spell: escaped surrogates must come in pairs. -/
def spell? : List StringUnit → Option (List Char)
  | [] => some []
  | .char c :: r => (spell? r).map (c :: ·)
  | .escaped a :: .escaped b :: r =>
    if 0xD800 ≤ a ∧ a < 0xDC00 then
      if 0xDC00 ≤ b ∧ b < 0xE000 then
        (spell? r).map (Char.ofNat (0x10000 + (a - 0xD800) * 0x400 + (b - 0xDC00)) :: ·)
      else none
    else if 0xDC00 ≤ a ∧ a < 0xE000 then none
    -- the second escape may be the first half of a pair itself
    else (spell? (.escaped b :: r)).map (Char.ofNat a :: ·)
  | .escaped a :: r =>
    if 0xD800 ≤ a ∧ a < 0xE000 then none else (spell? r).map (Char.ofNat a :: ·)

/-- The string after an opening quote: its text, if it spells one, and what follows. -/
def string? (t : List Char) : Option (Option String × List Char) :=
  (units? t).map fun (us, rest) => ((spell? us).map String.ofList, rest)

/-- At least one digit. -/
def digits? (t : List Char) : Option (List Char × List Char) :=
  match t.takeWhile Char.isDigit with
  | [] => none
  | ds => some (ds, t.dropWhile Char.isDigit)

/-- The whole part of a number: no zero in front of other digits. -/
def whole? : List Char → Option (List Char × List Char)
  | '0' :: r => if r.head?.any Char.isDigit then none else some (['0'], r)
  | t => digits? t

/-- The point of a number and the digits after it, if there is one. -/
def fraction? : List Char → Option (List Char × List Char)
  | '.' :: r => (digits? r).map fun (ds, rest) => ('.' :: ds, rest)
  | t => some ([], t)

/-- The exponent of a number, if there is one. -/
def exponent? : List Char → Option (List Char × List Char)
  | c :: r =>
    if c = 'e' ∨ c = 'E' then
      match r with
      | '+' :: r => (digits? r).map fun (ds, rest) => (c :: '+' :: ds, rest)
      | '-' :: r => (digits? r).map fun (ds, rest) => (c :: '-' :: ds, rest)
      | r => (digits? r).map fun (ds, rest) => (c :: ds, rest)
    else some ([], c :: r)
  | [] => some ([], [])

/-- A number at the beginning of a text, as it is written. -/
def number? (t : List Char) : Option (List Char × List Char) := do
  let (sign, t) :=
    match t with
    | '-' :: r => (['-'], r)
    | t => ([], t)
  let (w, t) ← whole? t
  let (f, t) ← fraction? t
  let (e, t) ← exponent? t
  return (sign ++ w ++ f ++ e, t)

mutual

/-- A value at the beginning of a text, nested at most `n` deep, and what follows. -/
def value? : (n : Nat) → List Char → Option (Json × List Char)
  | 0, _ => none
  | n + 1, t =>
    match skipBlanks t with
    | 'n' :: 'u' :: 'l' :: 'l' :: r => some (.null, r)
    | 't' :: 'r' :: 'u' :: 'e' :: r => some (.bool true, r)
    | 'f' :: 'a' :: 'l' :: 's' :: 'e' :: r => some (.bool false, r)
    | '"' :: r => (string? r).map fun (s, rest) => (.string s, rest)
    | '[' :: r =>
      match skipBlanks r with
      | ']' :: r => some (.array [], r)
      | r => (items? n r).map fun (xs, rest) => (.array xs, rest)
    | '\x7b' :: r =>
      match skipBlanks r with
      | '\x7d' :: r => some (.object [], r)
      | r => (entries? n r).map fun (es, rest) => (.object es, rest)
    | r => (number? r).map fun (s, rest) => (.number (String.ofList s), rest)

def items? : (n : Nat) → List Char → Option (List Json × List Char)
  | 0, _ => none
  | n + 1, t => do
    let (x, t) ← value? n t
    match skipBlanks t with
    | ',' :: r =>
      let (xs, rest) ← items? n r
      return (x :: xs, rest)
    | ']' :: r => return ([x], r)
    | _ => none

def entries? : (n : Nat) → List Char → Option (List (Option String × Json) × List Char)
  | 0, _ => none
  | n + 1, t => do
    match skipBlanks t with
    | '"' :: r =>
      let (k, t) ← string? r
      match skipBlanks t with
      | ':' :: r =>
        let (x, t) ← value? n r
        match skipBlanks t with
        | ',' :: r =>
          let (es, rest) ← entries? n r
          return ((k, x) :: es, rest)
        | '\x7d' :: r => return ([(k, x)], r)
        | _ => none
      | _ => none
    | _ => none

end

end Reader

/-- The value that a text spells, with nothing but blanks around it. -/
def parse? (t : List Char) : Option Json :=
  match Reader.value? (t.length + 1) t with
  | some (j, rest) => if Reader.skipBlanks rest = [] then some j else none
  | none => none

end ImportAtlas.Json
