import PhpDoc.Data.Value
import PhpDoc.Text.Digit
import PhpDoc.Text.Cut

/-!
# Language versions

A version is written with dots, as in `7.4`, or packed into one number of at least five digits, as
in `70400`. Only the major and the minor part count. White space around it is ignored, and the
digits of all scripts are read.
-/

namespace PhpDoc

/-- A version as it was written, with its major and minor parts. -/
structure Version where
  text : String
  major : Nat
  minor : Nat
  deriving DecidableEq, Repr, Inhabited

/-- Why a text is no version: it has another form, or its digits cannot be read as a number. -/
inductive VersionError where
  | malformed (text : String)
  | unreadable
  deriving DecidableEq, Repr, Inhabited

namespace Version

open Text

/-- The largest number of digits of a number that is read. Writing a number has no such limit. -/
def maxDigits : Nat := 4300

/-- The number written by decimal digits, at most `maxDigits` of them. -/
def number? (digits : List Char) : Option Nat :=
  if maxDigits < digits.length then none
  else (digits.mapM decimalValue?).map fun values => values.foldl (fun n d => n * 10 + d) 0

/-- The major and minor part packed into a number. -/
def unpack (packed : Nat) : Nat × Nat :=
  (packed / 10000, packed / 100 % 100)

/-- The dotted parts of a version: one to three runs of decimal digits. -/
def dotted? (cs : List Char) : Option (List (List Char)) :=
  let parts := splitOn '.' cs
  if parts.length ≤ 3 && parts.all fun part => !part.isEmpty && part.all isDecimal then some parts
  else none

/-- The major and minor part of a version text. -/
def parts (text : String) : Except VersionError (Nat × Nat) :=
  let cs := trim isSpace text.toList
  if 5 ≤ cs.length && cs.all isDigit then
    ((number? cs).map unpack).elim (.error .unreadable) .ok
  else
    match dotted? cs with
    | none => .error (.malformed text)
    | some [] => .error (.malformed text)
    | some (major :: rest) =>
        match number? major, number? (rest.headD ['0']) with
        | some a, some b => .ok (a, b)
        | _, _ => .error .unreadable

/-- The version that a text spells. -/
def parse (text : String) : Except VersionError Version :=
  (parts text).map fun (major, minor) => ⟨text, major, minor⟩

/-- Whether the version is at least `major.minor`. -/
def atLeast (v : Version) (major minor : Nat) : Bool :=
  major < v.major || (v.major == major && minor ≤ v.minor)

end Version

end PhpDoc
