/-!
# Ranges of code points

A Unicode property is kept as the ascending list of the ranges of code points that have it.
-/

namespace ImportAtlas.Text

/-- Whether a code point lies in one of the ranges, whose ends are included. -/
def inRanges (ranges : List (Nat × Nat)) (n : Nat) : Bool :=
  ranges.any fun (lo, hi) => lo ≤ n && n ≤ hi

end ImportAtlas.Text
