import ImportAtlas.Decimal.Basic

/-!
# The shortest decimals

The shortest decimal text of a double is the one with the fewest digits among those that read back
as the same double, and of these the one nearest to it. On the grid of decimals with a given number
of digits only the two neighbours of the number need to be tried.

* `Decimal.shortestDigits`: the digits and the decimal exponent.
* `Decimal.shortest`: the text, positional from `1e-5` up to `1e16` and always with a fraction
  there.
-/

namespace ImportAtlas.Decimal

/-- A positive fraction. -/
structure Fraction where
  num : Nat
  den : Nat

def Fraction.ofBinary (n : Nat) (q : Int) : Fraction :=
  match q with
  | .ofNat e => ⟨n * Nat.pow 2 e, 1⟩
  | .negSucc e => ⟨n, Nat.pow 2 (e + 1)⟩

def Fraction.ofDecimal (n : Nat) (k : Int) : Fraction :=
  match k with
  | .ofNat e => ⟨n * Nat.pow 10 e, 1⟩
  | .negSucc e => ⟨n, Nat.pow 10 (e + 1)⟩

def Fraction.le (a b : Fraction) : Bool :=
  a.num * b.den ≤ b.num * a.den

def Fraction.lt (a b : Fraction) : Bool :=
  a.num * b.den < b.num * a.den

/-- The exponent of the greatest power of ten that is not above a positive fraction. -/
def Fraction.magnitude (a : Fraction) : Int :=
  if a.den ≤ a.num then (digitCount (a.num / a.den) : Int) - 1
  else - (digitCount ((a.den + a.num - 1) / a.num - 1) : Int)

/-- The distance of two fractions, times both denominators. -/
def Fraction.gap (a b : Fraction) : Nat :=
  (a.num * b.den - b.num * a.den) + (b.num * a.den - a.num * b.den)

/-- The multiple of `10 ^ k` that reads back as `m · 2 ^ q`, when one of its two neighbours among
these does; of two the nearer one, and the even one when both are as near. -/
def onGrid? (m : Nat) (q : Int) (lowest : Bool) (k : Int) : Option Nat :=
  -- in quarters of a unit the middle between two neighbours is a whole number
  let x := Fraction.ofBinary (4 * m) (q - 2)
  let lo := Fraction.ofBinary (4 * m - if lowest then 1 else 2) (q - 2)
  let hi := Fraction.ofBinary (4 * m + 2) (q - 2)
  let unit := Fraction.ofDecimal 1 k
  let below := x.num * unit.den / (x.den * unit.num)
  let reads (d : Nat) : Bool :=
    let y := Fraction.ofDecimal d k
    -- the middle itself is read as the even one of both neighbours
    if m % 2 = 0 then lo.le y && y.le hi else lo.lt y && y.lt hi
  let near (d : Nat) : Nat := (Fraction.ofDecimal d k).gap x
  match reads below, reads (below + 1) with
  | true, true =>
    if near below < near (below + 1) then some below
    else if near (below + 1) < near below then some (below + 1)
    else if below % 2 = 0 then some below else some (below + 1)
  | true, false => some below
  | false, true => some (below + 1)
  | false, false => none

/-- The digits of the shortest decimal of `m · 2 ^ q` as a number, and the power of ten it is
multiplied with. Seventeen digits are always enough. -/
def shortestDigits (m : Nat) (q : Int) (lowest : Bool) : Nat × Int :=
  let top := (Fraction.ofBinary m q).magnitude
  let grids := (List.range 18).map fun n : Nat => top - (n : Int)
  (grids.findSome? fun k => (onGrid? m q lowest k).map (·, k)).getD (0, 0)

/-- Digits without the zeros at their end, and how many those were. -/
def dropZeros (digits : List Char) : List Char × Nat :=
  let zeros := (digits.reverse.takeWhile (· == '0')).length
  (digits.take (digits.length - zeros), zeros)

/-- The text of `n · 10 ^ k` for positive `n`. -/
def layout (n : Nat) (k : Int) : String :=
  let (digits, zeros) := dropZeros (Nat.toDigits 10 n)
  let k := k + zeros
  let point := (digits.length : Int) + k
  if 0 ≤ k ∧ point ≤ 16 then
    String.ofList (digits ++ List.replicate k.toNat '0' ++ ['.', '0'])
  else if 0 < point ∧ point ≤ 16 then
    String.ofList (digits.take point.toNat ++ '.' :: digits.drop point.toNat)
  else if -5 < point ∧ point ≤ 0 then
    String.ofList ('0' :: '.' :: List.replicate (-point).toNat '0' ++ digits)
  else
    let exponent := point - 1
    let mark := (if exponent < 0 then "e-" else "e") ++ exponent.natAbs.repr
    match digits with
    | [d] => String.singleton d ++ mark
    | d :: ds => String.ofList (d :: '.' :: ds) ++ mark
    | [] => ""

/-- The shortest text that reads back as the number; what is not finite is written `null`. -/
def shortest (x : Float) : String :=
  match Parts.ofFloat x with
  | .finite negative 0 _ _ => if negative then "-0.0" else "0.0"
  | .finite negative m q lowest =>
    let (n, k) := shortestDigits m q lowest
    (if negative then "-" else "") ++ layout n k
  | _ => "null"

end ImportAtlas.Decimal
