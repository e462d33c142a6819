import ImportAtlas.Text.Chars

/-!
# Texts that read as a number

* `isNumber`: the spellings of a floating-point number, which are an optional sign, then digits with
  at most one point among them and an optional exponent, or one of the words `inf`, `infinity` and
  `nan` in any case.
* `hexDigit?`, `natOfDigits`: what digits stand for.
-/

namespace ImportAtlas.Text

def hexDigit? (c : Char) : Option Nat :=
  if '0' ≤ c ∧ c ≤ '9' then some (c.toNat - '0'.toNat)
  else if 'a' ≤ c ∧ c ≤ 'f' then some (c.toNat - 'a'.toNat + 10)
  else if 'A' ≤ c ∧ c ≤ 'F' then some (c.toNat - 'A'.toNat + 10)
  else none

/-- The number that digits spell in a base of at most sixteen. -/
def natOfDigits (base : Nat) (digits : List Char) : Nat :=
  digits.foldl (fun n c => n * base + (hexDigit? c).getD 0) 0

/-- A text without one sign at its beginning. -/
def dropSign : List Char → List Char
  | '+' :: r => r
  | '-' :: r => r
  | t => t

/-- At least one digit and nothing else. -/
def isDigits (t : List Char) : Bool :=
  !t.isEmpty && t.all Char.isDigit

/-- Nothing, or `e` and an integer. -/
def isExponent : List Char → Bool
  | [] => true
  | c :: r => (c == 'e' || c == 'E') && isDigits (dropSign r)

/-- What may follow the digits in front of a point, `whole` telling whether there were any. -/
def isFraction (whole : Bool) : List Char → Bool
  | '.' :: r =>
    let digits := r.takeWhile Char.isDigit
    (whole || !digits.isEmpty) && isExponent (r.dropWhile Char.isDigit)
  | t => whole && isExponent t

def isNumber (t : List Char) : Bool :=
  let t := dropSign t
  let word := t.map Char.toLower
  word == "inf".toList || word == "infinity".toList || word == "nan".toList ||
    isFraction (!(t.takeWhile Char.isDigit).isEmpty) (t.dropWhile Char.isDigit)

end ImportAtlas.Text
