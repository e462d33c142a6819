import ImportAtlas.Text.Number
import ImportAtlas.Toml.Basic

/-!
# Reading TOML scalars

Each reader takes a value from the beginning of a text and gives what follows it; none is the answer
where no such value stands there, or a malformed one.

* `Toml.Reader.string?`: the four kinds of strings.
* `Toml.Reader.dateTime?`, `Toml.Reader.number?`: dates and times, integers and floats.
-/

namespace ImportAtlas.Toml.Reader

def isSpace (c : Char) : Bool :=
  c == ' ' || c == '\t'

def skipSpaces (t : List Char) : List Char :=
  t.dropWhile isSpace

/-- A character that may stand in a comment or, quotes and backslashes apart, in a string. -/
def isPlain (c : Char) : Bool :=
  c == '\t' || (0x20 ≤ c.toNat && c.toNat != 0x7F)

def newline? : List Char → Option (List Char)
  | '\n' :: r => some r
  | '\r' :: '\n' :: r => some r
  | _ => none

/-! ### Strings -/

/-- The character that hexadecimal digits name. -/
def codePoint? (digits : List Char) : Option Char := do
  if !digits.all fun d => (Text.hexDigit? d).isSome then none
  let n := Text.natOfDigits 16 digits
  if h : n.isValidChar then return Char.ofNatAux n h else none

/-- The character that an escape names, after its backslash. -/
def escape? : List Char → Option (Char × List Char)
  | 'b' :: r => some ('\x08', r)
  | 't' :: r => some ('\t', r)
  | 'n' :: r => some ('\n', r)
  | 'f' :: r => some ('\x0c', r)
  | 'r' :: r => some ('\r', r)
  | '"' :: r => some ('"', r)
  | '\\' :: r => some ('\\', r)
  | 'u' :: r => if r.length < 4 then none else (codePoint? (r.take 4)).map (·, r.drop 4)
  | 'U' :: r => if r.length < 8 then none else (codePoint? (r.take 8)).map (·, r.drop 8)
  | _ => none

/-- A string on one line, up to the quote that ends it. -/
def basic? : (n : Nat) → List Char → Option (List Char × List Char)
  | 0, _ => none
  | n + 1, t =>
    match t with
    | '"' :: r => some ([], r)
    | '\\' :: r => do
      let (c, r) ← escape? r
      let (cs, rest) ← basic? n r
      return (c :: cs, rest)
    | c :: r => if isPlain c then (basic? n r).map fun (cs, rest) => (c :: cs, rest) else none
    | [] => none

/-- A string on one line in which a backslash is one. -/
def literal? : List Char → Option (List Char × List Char)
  | '\'' :: r => some ([], r)
  | c :: r => if isPlain c then (literal? r).map fun (cs, rest) => (c :: cs, rest) else none
  | [] => none

/-- At most `n` blanks and newlines dropped. -/
def skipMargin : (n : Nat) → List Char → List Char
  | 0, t => t
  | n + 1, t =>
    match newline? (skipSpaces t) with
    | some r => skipMargin n r
    | none => skipSpaces t

/-- What follows a backslash at the end of a line, and the blanks and newlines after that. -/
def lineEnd? (t : List Char) : Option (List Char) :=
  (newline? (skipSpaces t)).map fun r => skipMargin (r.length + 1) r

/-- A string over several lines, up to the three quotes that end it; the last one or two characters
may be quotes too. With `escapes` a backslash escapes. -/
def multiline? (quote : Char) (escapes : Bool) : (n : Nat) → List Char →
    Option (List Char × List Char)
  | 0, _ => none
  | n + 1, t =>
    let three := List.replicate 3 quote
    match Text.dropStart? three t with
    | some r =>
      match r with
      | a :: b :: r' =>
        -- of up to five quotes the last three end the string
        if a = quote ∧ b = quote then some ([a, b], r')
        else if a = quote then some ([a], b :: r')
        else some ([], r)
      | [a] => if a = quote then some ([a], []) else some ([], r)
      | [] => some ([], [])
    | none =>
      match newline? t with
      | some r => (multiline? quote escapes n r).map fun (cs, rest) => ('\n' :: cs, rest)
      | none =>
        match t with
        | [] => none
        | c :: r =>
          if c = '\\' ∧ escapes then
            match lineEnd? r with
            | some r => multiline? quote escapes n r
            | none => do
              let (c, r) ← escape? r
              let (cs, rest) ← multiline? quote escapes n r
              return (c :: cs, rest)
          else if isPlain c then
            (multiline? quote escapes n r).map fun (cs, rest) => (c :: cs, rest)
          else none

/-- A text without one newline at its beginning. -/
def dropNewline (t : List Char) : List Char :=
  (newline? t).getD t

def lineString? : List Char → Option (List Char × List Char)
  | '"' :: r => basic? (r.length + 1) r
  | '\'' :: r => literal? r
  | _ => none

def string? (t : List Char) : Option (List Char × List Char) :=
  match t with
  | '"' :: '"' :: '"' :: r => multiline? '"' true (r.length + 1) (dropNewline r)
  | '\'' :: '\'' :: '\'' :: r => multiline? '\'' false (r.length + 1) (dropNewline r)
  | t => lineString? t

/-! ### Dates and times -/

/-- The number that the first `n` characters spell, which must be digits. -/
def fixed? (n : Nat) (t : List Char) : Option (Nat × List Char) :=
  let digits := t.take n
  if digits.length = n ∧ digits.all Char.isDigit then some (Text.natOfDigits 10 digits, t.drop n)
  else none

/-- Two digits that spell a number between two bounds. -/
def two? (lo hi : Nat) (t : List Char) : Option (Nat × List Char) :=
  match fixed? 2 t with
  | some (n, r) => if lo ≤ n ∧ n ≤ hi then some (n, r) else none
  | none => none

/-- A number in at least `width` digits. -/
def padded (width n : Nat) : String :=
  String.ofList (List.replicate (width - n.repr.length) '0') ++ n.repr

def daysIn (year month : Nat) : Nat :=
  if month = 2 then
    if year % 4 = 0 ∧ (year % 100 ≠ 0 ∨ year % 400 = 0) then 29 else 28
  else if [4, 6, 9, 11].contains month then 30
  else 31

def date? (t : List Char) : Option (String × List Char) := do
  let (year, t) ← fixed? 4 t
  let t ← Text.dropStart? ['-'] t
  let (month, t) ← two? 1 12 t
  let t ← Text.dropStart? ['-'] t
  let (day, t) ← two? 1 31 t
  if daysIn year month < day then none
  return (padded 4 year ++ "-" ++ padded 2 month ++ "-" ++ padded 2 day, t)

/-- The fraction of a second, if one stands here. Nine digits of it count. -/
def fraction? (t : List Char) : Option (String × List Char) :=
  match t with
  | '.' :: r =>
    let digits := r.takeWhile Char.isDigit
    if digits.isEmpty then none
    else
      let counted := Text.trimEndOf (· == '0') (digits.take 9)
      some (if counted.isEmpty then "" else "." ++ String.ofList counted, r.dropWhile Char.isDigit)
  | _ => some ("", t)

def time? (t : List Char) : Option (String × List Char) := do
  let (hour, t) ← two? 0 23 t
  let t ← Text.dropStart? [':'] t
  let (minute, t) ← two? 0 59 t
  let t ← Text.dropStart? [':'] t
  let (second, t) ← two? 0 60 t
  let (part, t) ← fraction? t
  return (padded 2 hour ++ ":" ++ padded 2 minute ++ ":" ++ padded 2 second ++ part, t)

/-- The offset of a time from universal time, if one stands here. -/
def offset? (t : List Char) : Option (String × List Char) :=
  let distance (sign : String) (r : List Char) : Option (String × List Char) := do
    let (hours, r) ← two? 0 23 r
    let r ← Text.dropStart? [':'] r
    let (minutes, r) ← two? 0 59 r
    -- minus zero is written as zero
    let sign := if hours = 0 ∧ minutes = 0 then "+" else sign
    return (sign ++ padded 2 hours ++ ":" ++ padded 2 minutes, r)
  match t with
  | 'Z' :: r => some ("Z", r)
  | 'z' :: r => some ("Z", r)
  | '+' :: r => distance "+" r
  | '-' :: r => distance "-" r
  | _ => some ("", t)

def isTimeMark (c : Char) : Bool :=
  c == 'T' || c == 't' || c == ' '

/-- A date, a time or both. -/
def dateTime? (t : List Char) : Option (String × List Char) :=
  match date? t with
  | none => time? t
  | some (date, rest) =>
    match rest with
    | [] => some (date, [])
    | c :: r =>
      if isTimeMark c then
        match time? r with
        -- a blank after a date need not begin a time
        | none => some (date, rest)
        | some (time, r) => (offset? r).map fun (offset, r) => (date ++ "T" ++ time ++ offset, r)
      else some (date, rest)

/-! ### Numbers -/

/-- Digits, with an underscore between two of them where one likes. -/
def moreDigits? (isDigit : Char → Bool) : List Char → Option (List Char × List Char)
  | [] => some ([], [])
  | ['_'] => none
  | '_' :: c :: r =>
    if isDigit c then (moreDigits? isDigit r).map fun (ds, rest) => (c :: ds, rest) else none
  | c :: r =>
    if isDigit c then (moreDigits? isDigit r).map fun (ds, rest) => (c :: ds, rest)
    else some ([], c :: r)

/-- At least one digit. -/
def digits? (isDigit : Char → Bool) : List Char → Option (List Char × List Char)
  | c :: r =>
    if isDigit c then (moreDigits? isDigit r).map fun (ds, rest) => (c :: ds, rest) else none
  | [] => none

/-- The digits of a decimal integer, which begin with a zero only when they are a single zero. -/
def whole? : List Char → Option (List Char × List Char)
  | '0' :: r => some (['0'], r)
  | t => digits? Char.isDigit t

/-- Whether `m · 10 ^ e` is too large for a double: nearer to `2 ^ 1024` than to the largest one, or
as near. -/
def overflows (m : Nat) (e : Int) : Bool :=
  let size := (m.repr.length : Int) + e
  let limit := (Nat.pow 2 54 - 1) * Nat.pow 2 970
  -- the powers are only computed where the size does not decide
  if m = 0 ∨ size < 300 then false
  else if 400 < size then true
  else if 0 ≤ e then limit ≤ m * Nat.pow 10 e.toNat
  else limit * Nat.pow 10 (-e).toNat ≤ m

/-- The exponent of a float, if one stands here. -/
def exponent? : List Char → Option (Int × List Char)
  | c :: r =>
    if c = 'e' ∨ c = 'E' then do
      let (ds, rest) ← digits? Char.isDigit (Text.dropSign r)
      let n : Int := Text.natOfDigits 10 ds
      return (if r.head? = some '-' then -n else n, rest)
    else some (0, c :: r)
  | [] => some (0, [])

/-- What follows the digits of a decimal integer, which may be the rest of a float. An integer has
at most 64 bits with its sign, and a float must not be positive and too large. -/
def decimal? (negative : Bool) (digits : List Char) (t : List Char) : Option (List Char) :=
  match t with
  | '.' :: r => do
    let (part, r) ← digits? Char.isDigit r
    let (e, r) ← exponent? r
    if !negative && overflows (Text.natOfDigits 10 (digits ++ part)) (e - part.length) then none
    return r
  | c :: r =>
    if c = 'e' ∨ c = 'E' then do
      let (e, r) ← exponent? (c :: r)
      if !negative && overflows (Text.natOfDigits 10 digits) e then none
      return r
    else integer
  | [] => integer
where
  /-- An integer, if it is not too large. -/
  integer : Option (List Char) :=
    let n := Text.natOfDigits 10 digits
    if n < Nat.pow 2 63 ∨ (negative ∧ n = Nat.pow 2 63) then some t else none

/-- What follows an integer in a base other than ten. -/
def radix? (base : Nat) (t : List Char) : Option (List Char) := do
  let (ds, rest) ← digits? (fun c => (Text.hexDigit? c).any (· < base)) t
  if Text.natOfDigits base ds < Nat.pow 2 63 then return rest else none

def number? (t : List Char) : Option (List Char) :=
  match t with
  | '0' :: 'x' :: r => radix? 16 r
  | '0' :: 'o' :: r => radix? 8 r
  | '0' :: 'b' :: r => radix? 2 r
  | t =>
    match Text.dropSign t with
    | 'i' :: 'n' :: 'f' :: r => some r
    | 'n' :: 'a' :: 'n' :: r => some r
    | u => (whole? u).bind fun (ds, rest) => decimal? (t.head? == some '-') ds rest

end ImportAtlas.Toml.Reader
