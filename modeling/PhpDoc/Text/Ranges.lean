/-!
# Tables of code points

Classes of characters are given as tables: ordered ranges of code points, or runs with a constant
step. A range table is searched from its lowest range on and the search stops as soon as the ranges
lie above the code point, so that the common small code points are found at once.
-/

namespace PhpDoc.Text

/-- Disjoint ranges of code points in ascending order, both ends included. -/
abbrev Ranges := List (Nat × Nat)

/-- Whether one of the ascending ranges holds the code point `n`. -/
def Ranges.contains (n : Nat) : Ranges → Bool
  | [] => false
  | (low, high) :: rest => if n < low then false else n ≤ high || Ranges.contains n rest

/-- The code points `first`, `first + step`, … up to `last`. -/
structure Run where
  first : Nat
  last : Nat
  step : Nat

/-- Whether the run holds the code point `n`. -/
def Run.contains (run : Run) (n : Nat) : Bool :=
  run.first ≤ n && n ≤ run.last && (n - run.first) % run.step == 0

end PhpDoc.Text
