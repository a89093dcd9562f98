/-!
# Decimal numbers with a fraction

A decimal is a whole number of units of a power of one tenth, as it is written with a point.
-/

namespace PhpDoc

/-- The number `units / 10 ^ places`. -/
structure Decimal where
  units : Int
  places : Nat
  deriving DecidableEq, Repr, Inhabited

/-- The digits of `n`, at least `width` of them. -/
def Decimal.paddedDigits (width n : Nat) : String :=
  let digits := toString n
  String.ofList (List.replicate (width - digits.length) '0') ++ digits

end PhpDoc
