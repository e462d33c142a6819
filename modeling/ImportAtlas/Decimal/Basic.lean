/-!
# Floating-point numbers as fractions

A finite double is a sign and a magnitude `m · 2 ^ q` with natural `m`, read off its 64 bits. The
modules beside this one write such numbers in decimal notation with exact integer arithmetic.
-/

namespace ImportAtlas.Decimal

/-- A double by its parts. -/
inductive Parts where
  /-- A number of magnitude `mantissa · 2 ^ exponent`; `lowest` tells whether its neighbour below is
  half as far away as the one above. -/
  | finite (negative : Bool) (mantissa : Nat) (exponent : Int) (lowest : Bool)
  | infinite (negative : Bool)
  | nan
deriving Repr, DecidableEq

def Parts.ofBits (bits : Nat) : Parts :=
  let negative : Bool := bits / Nat.pow 2 63 % 2 == 1
  let e : Nat := bits / Nat.pow 2 52 % Nat.pow 2 11
  let f : Nat := bits % Nat.pow 2 52
  if e = 2047 then if f = 0 then infinite negative else nan
  -- only the smallest numbers have no leading bit that is left out
  else if e = 0 then finite negative f (-1074) false
  else finite negative (Nat.pow 2 52 + f) ((e : Int) - 1075) (f = 0 && e > 1)

def Parts.ofFloat (x : Float) : Parts :=
  ofBits x.toBits.toNat

/-- A quotient rounded to the nearest natural number, a half to the even neighbour. -/
def roundDiv (num den : Nat) : Nat :=
  let q := num / den
  let twice := 2 * (num % den)
  if den < twice ∨ (twice = den ∧ q % 2 = 1) then q + 1 else q

def digitCount (n : Nat) : Nat :=
  (Nat.toDigits 10 n).length

end ImportAtlas.Decimal
