import PhpDoc.Data.Binary64
import PhpDoc.Data.Date
import PhpDoc.Text.Printable

/-!
# Data values

The values of configuration files, allowlists, reports and log records. Mappings keep the order of
their fields. `quoted` is the unambiguous written form of a value in messages: text stands in
quotes, with escapes for everything that is not printable, and dates and times are written as the
calls that make them. `plain` is the same, except that a bare text stands for itself, and a bare date
or time for its usual text. Whole numbers of any length are written.

The fields of a mapping stand in the order in which their keys were first written. Writing a key
again changes its value and not its place.
-/

namespace PhpDoc

/-- A value of a data document. -/
inductive Value where
  | null
  | bool (b : Bool)
  | int (n : Int)
  | float (x : Binary64)
  | text (s : String)
  | list (items : List Value)
  | map (fields : List (String × Value))
  | date (d : Date)
  | time (c : Clock)
  | moment (d : Date) (c : Clock)
  deriving Repr, Inhabited

namespace Quoted

open Text

/-- The lower-case hexadecimal digit of `n % 16`. -/
def hexDigit (n : Nat) : Char :=
  "0123456789abcdef".toList.getD (n % 16) '0'

/-- The last `width` hexadecimal digits of `n`. -/
def hex : Nat → Nat → List Char
  | 0, _ => []
  | width + 1, n => hex width (n / 16) ++ [hexDigit n]

/-- The written form of a character inside the quotes `quote`. -/
def escape (quote c : Char) : List Char :=
  if c = quote || c = '\\' then ['\\', c]
  else if c = '\n' then ['\\', 'n']
  else if c = '\r' then ['\\', 'r']
  else if c = '\t' then ['\\', 't']
  else if isPrintable c then [c]
  else if c.toNat < 0x100 then '\\' :: 'x' :: hex 2 c.toNat
  else if c.toNat < 0x10000 then '\\' :: 'u' :: hex 4 c.toNat
  else '\\' :: 'U' :: hex 8 c.toNat

/-- The quote around a text: a single one, unless only that one occurs in the text. -/
def quoteFor (cs : List Char) : Char :=
  if cs.contains '\'' && !cs.contains '"' then '"' else '\''

/-- The text in quotes. -/
def text (s : String) : String :=
  let quote := quoteFor s.toList
  String.ofList (quote :: s.toList.flatMap (escape quote) ++ [quote])

end Quoted

namespace Value

/-- The floating-point number nearest to a decimal number. -/
def decimal (d : Decimal) : Value := .float (.ofDecimal d)

/-- A call with its arguments. -/
def call (function : String) (arguments : List String) : String :=
  function ++ "(" ++ ", ".intercalate arguments ++ ")"

/-- The arguments of the call that makes a date. -/
def dateArguments (d : Date) : List String :=
  [toString d.year, toString d.month, toString d.day]

mutual
/-- The written form of a value in messages, text in quotes. -/
def quoted : Value → String
  | null => "None"
  | bool true => "True"
  | bool false => "False"
  | int n => toString n
  | float x => x.text
  | text s => Quoted.text s
  | list items => "[" ++ quotedItems items ++ "]"
  | map fields => "\x7b" ++ quotedFields fields ++ "\x7d"
  | date d => call "datetime.date" (dateArguments d)
  | time c => call "datetime.time" c.arguments
  | moment d c => call "datetime.datetime" (dateArguments d ++ c.arguments)

/-- The written forms of the items of a list, with commas between them. -/
def quotedItems : List Value → String
  | [] => ""
  | [v] => v.quoted
  | v :: vs => v.quoted ++ ", " ++ quotedItems vs

/-- The written forms of the fields of a mapping, with commas between them. -/
def quotedFields : List (String × Value) → String
  | [] => ""
  | [(key, v)] => Quoted.text key ++ ": " ++ v.quoted
  | (key, v) :: fields => Quoted.text key ++ ": " ++ v.quoted ++ ", " ++ quotedFields fields
end

/-- The written form of a value, where a text, a date or a time stands for itself. -/
def plain : Value → String
  | text s => s
  | date d => d.iso
  | time c => c.text
  | moment d c => d.iso ++ " " ++ c.text
  | v => v.quoted

/-- Whether the value counts as absent: nothing, false, zero, or empty. -/
def isBlank : Value → Bool
  | null => true
  | bool b => !b
  | int n => n == 0
  | float x => x.isZero
  | text s => s.isEmpty
  | list items => items.isEmpty
  | map fields => fields.isEmpty
  | date _ => false
  | time _ => false
  | moment _ _ => false

/-- The field of a mapping with the given key. -/
def field? (key : String) : Value → Option Value
  | map fields => fields.lookup key
  | _ => none

end Value

/-! ## Ordered fields -/

/-- The fields of a mapping, each key once. -/
abbrev Fields := List (String × Value)

namespace Fields

/-- Whether the fields have the key. -/
def has (fields : Fields) (key : String) : Bool :=
  (fields.lookup key).isSome

/-- The fields with a value for the key. -/
def set (key : String) (v : Value) : Fields → Fields
  | [] => [(key, v)]
  | (k, old) :: rest => if k == key then (k, v) :: rest else (k, old) :: set key v rest

/-- The fields with the values of further ones, which win. -/
def update (fields more : Fields) : Fields :=
  more.foldl (fun acc (key, v) => set key v acc) fields

/-- The fields with the values of further ones for the keys that they lack. -/
def complete (fields more : Fields) : Fields :=
  more.foldl (fun acc (key, v) => if has acc key then acc else acc ++ [(key, v)]) fields

/-- The fields of pairs, in which a key may come more than once. -/
def ofPairs (pairs : List (String × Value)) : Fields :=
  update [] pairs

end Fields

end PhpDoc
