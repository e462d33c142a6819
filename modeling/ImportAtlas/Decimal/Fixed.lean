import ImportAtlas.Decimal.Basic

/-!
# Decimals with a fixed number of places

A number is rounded to the nearest decimal with the given number of places, and a half goes to the
even neighbour.
-/

namespace ImportAtlas.Decimal

/-- The magnitude `m · 2 ^ q` in units of the last of `places` decimal places. -/
def scaled (m : Nat) (q : Int) (places : Nat) : Nat :=
  match q with
  | .ofNat e => m * Nat.pow 10 places * Nat.pow 2 e
  | .negSucc e => roundDiv (m * Nat.pow 10 places) (Nat.pow 2 (e + 1))

/-- A number of units of the last place, written with its point. -/
def withPoint (units places : Nat) : String :=
  let digits := Nat.toDigits 10 units
  -- at least one digit stands in front of the point
  let padded := List.replicate (places + 1 - digits.length) '0' ++ digits
  let whole := padded.take (padded.length - places)
  let part := padded.drop (padded.length - places)
  if places = 0 then String.ofList whole else String.ofList (whole ++ '.' :: part)

def fixed (x : Float) (places : Nat) : String :=
  match Parts.ofFloat x with
  | .nan => "NaN"
  | .infinite negative => if negative then "-inf" else "inf"
  | .finite negative m q _ =>
    (if negative then "-" else "") ++ withPoint (scaled m q places) places

end ImportAtlas.Decimal
