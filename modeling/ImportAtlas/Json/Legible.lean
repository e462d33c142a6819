import ImportAtlas.Json.Basic

/-!
# Legible values

A value that is kept before it is known what it stands for must be legible as a whole: every string
in it spells a text, and every number is one of the finite doubles.

* `Json.legible` decides this.
-/

namespace ImportAtlas.Json

/-- A number in the making: a significand of at most 64 bits, and the power of ten it is scaled by.
Once a digit does not fit into the significand, the later ones of its part of the number do not
count either. -/
structure Scaled where
  significand : Nat := 0
  exponent : Int := 0
  full : Bool := false

namespace Scaled

/-- Takes a digit into the significand, if it fits; `lost` and `taken` are what that adds to the
exponent when it does not and when it does. -/
def digit (lost taken : Int) (s : Scaled) (c : Char) : Scaled :=
  let next := s.significand * 10 + (c.toNat - '0'.toNat)
  if s.full || Nat.pow 2 64 ≤ next then { s with exponent := s.exponent + lost, full := true }
  else { s with significand := next, exponent := s.exponent + taken }

/-- The significand of an unsigned number and the power of ten that scales it. -/
def ofSpelling (t : List Char) : Scaled :=
  let whole := t.takeWhile Char.isDigit
  let rest := t.dropWhile Char.isDigit
  let s := whole.foldl (digit 1 0) {}
  let (s, rest) :=
    match rest with
    | '.' :: r =>
      -- what did not fit in front of the point does not stop the digits behind it
      ((r.takeWhile Char.isDigit).foldl (digit 0 (-1)) { s with full := false },
        r.dropWhile Char.isDigit)
    | r => (s, r)
  let written (r : List Char) : Int := (String.ofList r).toNat?.getD 0
  let shift :=
    match rest.drop 1 with
    | '-' :: r => -written r
    | '+' :: r => written r
    | r => written r
  { s with exponent := s.exponent + shift }

/-- The highest power of ten that is a double. -/
def maxPower : Nat := 308

/-- Whether a number is less than infinity, its significand being rounded before it is scaled. -/
def isFinite (s : Scaled) : Bool :=
  s.significand = 0 ||
    match s.exponent with
    | .ofNat e =>
      e ≤ maxPower && !(Float.ofNat s.significand * Float.ofScientific 1 false e).isInf
    | .negSucc _ => true

end Scaled

/-- Whether a number as it is written is one of the finite doubles. -/
def isFiniteNumber (spelling : String) : Bool :=
  (Scaled.ofSpelling (spelling.toList.dropWhile (· == '-'))).isFinite

/-- Whether every string of a value spells a text and every number is a finite double. -/
def legible : Json → Bool
  | number s => isFiniteNumber s
  | string t => t.isSome
  | array xs => legibleItems xs
  | object es => legibleEntries es
  | _ => true
where
  legibleItems : List Json → Bool
    | [] => true
    | x :: xs => legible x && legibleItems xs
  /-- Whether all entries are legible, their keys as well. -/
  legibleEntries : List (Option String × Json) → Bool
    | [] => true
    | (k, x) :: es => k.isSome && legible x && legibleEntries es

end ImportAtlas.Json
