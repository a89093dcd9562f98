import PhpDoc.Data.Value
import PhpDoc.Text.Cut

/-!
# Keys and scalars of TOML

A reader takes a piece off the beginning of a text and gives what it means together with the rest.
Keys are bare or quoted and may be dotted. Scalars are strings of one line, whole numbers, numbers
with a fraction or an exponent, infinities and the word for no number, and truth values.
-/

namespace PhpDoc.Toml

/-- A function that reads a piece at the beginning of a text, and gives the text behind it. -/
abbrev Reader (α : Type) := List Char → Option (α × List Char)

/-- The parts of a dotted key. -/
abbrev Key := List String

/-- The text without blanks in front. -/
def skipBlanks (cs : List Char) : List Char :=
  cs.dropWhile Text.isBlank

/-- Whether `c` is a control character, which stands nowhere but for tabs and line breaks. -/
def isControl (c : Char) : Bool :=
  c < ' ' || c = '\x7f'

/-- Whether `c` may stand inside a string or a comment. -/
def isContent (c : Char) : Bool :=
  c = '\t' || !isControl c

/-- Whether `c` may stand in a bare key. -/
def isBare (c : Char) : Bool :=
  c.isAlphanum || c = '_' || c = '-'

/-- The value of a hexadecimal digit. -/
def hexValue? (c : Char) : Option Nat :=
  if c.isDigit then some (c.toNat - '0'.toNat)
  else if 'a' ≤ c && c ≤ 'f' then some (c.toNat - 'a'.toNat + 10)
  else if 'A' ≤ c && c ≤ 'F' then some (c.toNat - 'A'.toNat + 10)
  else none

/-- The character with the code point of the hexadecimal digits. -/
def scalar? (digits : List Char) : Option Char := do
  let values ← digits.mapM hexValue?
  let n := values.foldl (fun n d => n * 16 + d) 0
  if n.isValidChar then some (Char.ofNat n) else none

/-- The character that is written by a backslash and a letter. -/
def escaped? : Char → Option Char
  | 'b' => some '\x08'
  | 't' => some '\t'
  | 'n' => some '\n'
  | 'f' => some '\x0c'
  | 'r' => some '\r'
  | '"' => some '"'
  | '\\' => some '\\'
  | _ => none

/-- A character in front of what was read. -/
def before (c : Char) (read : Option (List Char × List Char)) : Option (List Char × List Char) :=
  read.map fun (cs, rest) => (c :: cs, rest)

/-- The text of a string in double quotes, behind the opening one. -/
def basic : Reader (List Char)
  | '"' :: rest => some ([], rest)
  | '\\' :: 'u' :: a :: b :: c :: d :: rest =>
      (scalar? [a, b, c, d]).bind fun x => before x (basic rest)
  | '\\' :: 'U' :: a :: b :: c :: d :: e :: f :: g :: h :: rest =>
      (scalar? [a, b, c, d, e, f, g, h]).bind fun x => before x (basic rest)
  | '\\' :: c :: rest => (escaped? c).bind fun x => before x (basic rest)
  | c :: rest => if isContent c then before c (basic rest) else none
  | [] => none

/-- The text of a string in single quotes, behind the opening one. Nothing in it is an escape. -/
def literal : Reader (List Char)
  | '\'' :: rest => some ([], rest)
  | c :: rest => if isContent c then before c (literal rest) else none
  | [] => none

/-- One part of a key. -/
def keyPart : Reader String
  | '"' :: rest => (basic rest).map fun (cs, rest) => (String.ofList cs, rest)
  | '\'' :: rest => (literal rest).map fun (cs, rest) => (String.ofList cs, rest)
  | cs =>
      let bare := cs.takeWhile isBare
      if bare.isEmpty then none else some (String.ofList bare, cs.dropWhile isBare)

/-- The parts of a key, with dots between them. The first argument bounds their number. -/
def keyParts : Nat → Reader Key
  | 0, _ => none
  | bound + 1, cs => do
      let (part, rest) ← keyPart cs
      match skipBlanks rest with
      | '.' :: rest =>
          let (parts, rest) ← keyParts bound (skipBlanks rest)
          return (part :: parts, rest)
      | rest => return ([part], rest)

/-- A key and the blanks behind it. -/
def key : Reader Key := fun cs => keyParts cs.length cs

/-- The digits at the beginning of a text. One underscore may stand between two digits. -/
def moreDigits : List Char → List Char × List Char
  | '_' :: c :: rest =>
      if c.isDigit then
        let (cs, rest) := moreDigits rest
        (c :: cs, rest)
      else ([], '_' :: c :: rest)
  | c :: rest =>
      if c.isDigit then
        let (cs, rest) := moreDigits rest
        (c :: cs, rest)
      else ([], c :: rest)
  | [] => ([], [])

/-- The digits at the beginning of a text, at least one. -/
def digits : Reader (List Char)
  | c :: rest =>
      if c.isDigit then
        let (cs, rest) := moreDigits rest
        some (c :: cs, rest)
      else none
  | [] => none

/-- The digits of a whole number. None follow a zero in front. -/
def wholeDigits : Reader (List Char)
  | '0' :: rest => some (['0'], rest)
  | cs => digits cs

/-- The number that digits write. -/
def number (digits : List Char) : Nat :=
  digits.foldl (fun n c => n * 10 + (c.toNat - '0'.toNat)) 0

/-- A sign, if there is one. -/
def sign : List Char → Bool × List Char
  | '-' :: rest => (true, rest)
  | '+' :: rest => (false, rest)
  | cs => (false, cs)

/-- The digits behind a point, if there are any. -/
def fraction (cs : List Char) : List Char × List Char :=
  match cs with
  | '.' :: rest => (digits rest).getD ([], cs)
  | _ => ([], cs)

/-- The exponent, if there is one. -/
def exponent (cs : List Char) : Option Int × List Char :=
  match cs with
  | c :: rest =>
      if c = 'e' || c = 'E' then
        let (negative, rest) := sign rest
        match digits rest with
        | some (ds, rest) => (some (if negative then -number ds else number ds), rest)
        | none => (none, cs)
      else (none, cs)
  | [] => (none, cs)

/-- A number, whole or not. -/
def numeral : Reader Value := fun cs => do
  let (negative, rest) := sign cs
  let (whole, rest) ← wholeDigits rest
  let (places, rest) := fraction rest
  let (power, rest) := exponent rest
  let n := number (whole ++ places)
  if places.isEmpty && power.isNone then return (.int (if negative then -n else n), rest)
  else return (.float (.nearest negative n (power.getD 0 - places.length)), rest)

/-- Infinity or the word for no number, with a sign or without. -/
def specialNumber : Reader Value := fun cs =>
  match sign cs with
  | (negative, 'i' :: 'n' :: 'f' :: rest) => some (.float (.infinity negative), rest)
  | (_, 'n' :: 'a' :: 'n' :: rest) => some (.float .notANumber, rest)
  | _ => none

/-- A value without parts. -/
def scalar : Reader Value
  | '"' :: rest => (basic rest).map fun (cs, rest) => (.text (String.ofList cs), rest)
  | '\'' :: rest => (literal rest).map fun (cs, rest) => (.text (String.ofList cs), rest)
  | 't' :: 'r' :: 'u' :: 'e' :: rest => some (.bool true, rest)
  | 'f' :: 'a' :: 'l' :: 's' :: 'e' :: rest => some (.bool false, rest)
  | cs => (specialNumber cs).or (numeral cs)

end PhpDoc.Toml
