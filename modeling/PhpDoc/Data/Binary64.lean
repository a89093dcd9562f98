import PhpDoc.Data.Decimal

/-!
# Floating-point numbers

A floating-point number is a word of 64 bits: a sign, an exponent of 11 bits and a fraction of 52.
Without the sign the words of the finite numbers and of infinity are in the order of their
magnitudes, so a magnitude is known by its code.

A decimal number is read as the floating-point number that is nearest to it, the even one of two
that are equally near. The text of a floating-point number is the shortest one that is read as that
number, and the nearest of these. Very large and very small numbers are written with a power of ten.
-/

namespace PhpDoc

/-- A number in 64 bits. -/
structure Binary64 where
  bits : BitVec 64
  deriving DecidableEq, Repr, Inhabited

namespace Binary64

/-! ## Codes of magnitudes -/

/-- The code of infinity. Smaller codes are those of finite magnitudes, larger ones of no number. -/
def infinityCode : Nat := 0x7ff0000000000000

/-- The code of the smallest magnitude with a significand of 53 bits. From there on, the code of a
power of two is followed by that of the next one after as many codes. -/
def normalCode : Nat := 0x10000000000000

/-- The bit of the sign. -/
def signBit : Nat := 0x8000000000000000

/-- The number with a sign and the code of its magnitude. -/
def ofCode (negative : Bool) (code : Nat) : Binary64 :=
  ⟨BitVec.ofNat 64 ((if negative then signBit else 0) + code)⟩

/-- Whether the number has a minus sign, which a zero may have as well. -/
def isNegative (x : Binary64) : Bool := x.bits.msb

/-- The code of the magnitude of the number. -/
def code (x : Binary64) : Nat := x.bits.toNat % signBit

/-- Whether the number is zero, with either sign. -/
def isZero (x : Binary64) : Bool := x.code == 0

/-- Infinity with a sign. -/
def infinity (negative : Bool) : Binary64 := ofCode negative infinityCode

/-- The word for no number. -/
def notANumber : Binary64 := ofCode false (infinityCode + normalCode / 2)

/-- A fraction of two whole numbers. -/
structure Ratio where
  num : Nat
  den : Nat
  deriving DecidableEq, Repr, Inhabited

/-- The fraction times a power of the base. -/
def Ratio.shift (r : Ratio) (base : Nat) (power : Int) : Ratio :=
  ⟨r.num * Nat.pow base power.toNat, r.den * Nat.pow base (-power).toNat⟩

/-- The whole number that is nearest to the fraction, the even one of two. -/
def Ratio.round (r : Ratio) : Nat :=
  let whole := r.num / r.den
  let twice := 2 * (r.num % r.den)
  if r.den < twice || (r.den == twice && whole % 2 == 1) then whole + 1 else whole

/-- The magnitude with a finite code: a significand of at most 53 bits times a power of two. -/
def magnitude (code : Nat) : Ratio :=
  let exponent : Nat := max (code / normalCode) 1
  let significand := if code < normalCode then code else normalCode + code % normalCode
  (Ratio.mk significand 1).shift 2 ((exponent : Int) - 1075)

/-- The code of the magnitude that is nearest to a fraction other than zero. -/
def nearestCode (r : Ratio) : Nat :=
  -- with this exponent the significand has 53 or 54 bits, unless it is the smallest exponent
  let low : Int := max (-1074) ((r.num.log2 : Int) - r.den.log2 - 53)
  let fits := (r.shift 2 (-low)).num / (r.shift 2 (-low)).den < 2 * normalCode
  let exponent := if fits then low else low + 1
  min infinityCode ((exponent + 1074).toNat * normalCode + (r.shift 2 (-exponent)).round)

/-! ## Reading -/

/-- The number that is nearest to `digits * 10 ^ power`, with a sign. Beyond the powers that are
tested for there are only infinity and zero. -/
def nearest (negative : Bool) (digits : Nat) (power : Int) : Binary64 :=
  if digits = 0 || power + digits.log2 < -400 then ofCode negative 0
  else if 400 < power then infinity negative
  else ofCode negative (nearestCode ((Ratio.mk digits 1).shift 10 power))

/-- The number that is nearest to a decimal number. -/
def ofDecimal (d : Decimal) : Binary64 :=
  nearest (d.units < 0) d.units.natAbs (-d.places)

/-! ## Writing -/

/-- The number of decimal digits of a whole number. -/
def width (n : Nat) : Nat := (Nat.toDigits 10 n).length

/-- The number of digits in front of the point of a fraction other than zero. For a fraction with
zeros behind the point it is their number, with a minus sign. -/
def point (r : Ratio) : Int :=
  if r.den ≤ r.num then width (r.num / r.den)
  else 1 - (width ((r.den - 1) / r.num) : Int)

/-- The whole numbers next to a fraction, the nearer one first. -/
def neighbours (r : Ratio) : List Nat :=
  let below := r.num / r.den
  if r.round = below then [below, below + 1] else [below + 1, below]

/-- The decimal number `n * 10 ^ power` with the fewest digits that is read as the magnitude with
the code, as `n` and `power`. Seventeen digits are always enough. -/
def shortest (code : Nat) : Nat × Int :=
  let r := magnitude code
  let found := (List.range' 1 17).findSome? fun (digits : Nat) =>
    let power := point r - (digits : Int)
    ((neighbours (r.shift 10 (-power))).find? fun n =>
      0 < n && nearestCode ((Ratio.mk n 1).shift 10 power) == code).map (·, power)
  found.getD (0, 0)

/-- Zeros. -/
def zeros (n : Nat) : List Char := List.replicate n '0'

/-- The digits with the point behind the first `point` of them. Where the point is too far away from
them, a power of ten says where it is. -/
def layout (digits : List Char) (point : Int) : List Char :=
  if -4 < point && point ≤ 16 then
    if point ≤ 0 then '0' :: '.' :: zeros (-point).toNat ++ digits
    else
      let whole := digits.take point.toNat
      let fraction := digits.drop point.toNat
      whole ++ zeros (point.toNat - digits.length) ++
        '.' :: if fraction.isEmpty then ['0'] else fraction
  else
    let fraction := digits.drop 1
    digits.take 1 ++ (if fraction.isEmpty then [] else '.' :: fraction) ++
      ['e', if point < 1 then '-' else '+'] ++
      (Decimal.paddedDigits 2 (point - 1).natAbs).toList

/-- The text of a finite magnitude. -/
def magnitudeText (code : Nat) : List Char :=
  if code = 0 then ['0', '.', '0']
  else
    let (n, power) := shortest code
    let digits := Nat.toDigits 10 n
    layout (digits.reverse.dropWhile (· = '0')).reverse (digits.length + power)

/-- The text of the number, with words for infinity and for no number. -/
def textWith (infinite none : String) (x : Binary64) : String :=
  let sign := if x.isNegative then "-" else ""
  if infinityCode < x.code then none
  else if x.code = infinityCode then sign ++ infinite
  else sign ++ String.ofList (magnitudeText x.code)

/-- The text of the number in messages. -/
def text (x : Binary64) : String := x.textWith "inf" "nan"

/-- Where the power of ten starts, the fewest digits, the even one of two texts that are equally
near, and numbers that are the nearest to more digits than they are written with. -/
example :
    [(1, 16), (123456789, 7), (1, -4), (1, -5), (5, -324), (8, 0), (800000000000000000001, -20),
      (112589990684262425, -2), (17976931348623157, 292), (1, 309)].map
        (fun (digits, power) => (nearest false digits power).text) =
      ["1e+16", "1234567890000000.0", "0.0001", "1e-05", "5e-324", "8.0", "8.0",
        "1125899906842624.2", "1.7976931348623157e+308", "inf"] := by
  decide +kernel

end Binary64

end PhpDoc
