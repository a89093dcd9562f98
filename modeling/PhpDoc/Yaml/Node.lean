import PhpDoc.Data.Value
import PhpDoc.Text.Cut

/-!
# Values of YAML nodes

A node is a scalar, a list or a mapping. A plain scalar stands for the value that its text looks
like: nothing, a truth value, a number, a date or a moment. Every other scalar stands for its text.
A text that looks like a date has to name a day of the calendar.
-/

namespace PhpDoc.Yaml

/-- A scalar, plain or in quotes. -/
structure Scalar where
  isPlain : Bool
  text : String
  deriving DecidableEq, Repr, Inhabited

/-- A node of a document. -/
inductive Node where
  | scalar (s : Scalar)
  | list (items : List Node)
  | map (entries : List (Scalar × Node))
  deriving Repr, Inhabited

/-- The value of a digit in a base up to sixteen. -/
def digitValue? (base : Nat) (c : Char) : Option Nat :=
  let d :=
    if c.isDigit then c.toNat - '0'.toNat
    else if 'a' ≤ c && c ≤ 'f' then c.toNat - 'a'.toNat + 10
    else if 'A' ≤ c && c ≤ 'F' then c.toNat - 'A'.toNat + 10
    else base
  if d < base then some d else none

/-- The number that digits write in a base. Underscores between them count for nothing. -/
def natural? (base : Nat) (cs : List Char) : Option Nat := do
  if cs.isEmpty then none
  let values ← (cs.filter (· != '_')).mapM (digitValue? base)
  return values.foldl (fun n d => n * base + d) 0

/-- The whole number of digits without a sign: binary, hexadecimal or octal behind a zero, and
decimal otherwise. -/
def unsigned? : List Char → Option Nat
  | ['0'] => some 0
  | '0' :: 'b' :: cs => natural? 2 cs
  | '0' :: 'x' :: cs => natural? 16 cs
  | '0' :: cs => natural? 8 cs
  | '_' :: _ => none
  | cs => natural? 10 cs

/-- A sign in front of a text, if there is one. -/
def sign : List Char → Bool × List Char
  | '-' :: cs => (true, cs)
  | '+' :: cs => (false, cs)
  | cs => (false, cs)

/-- The whole number that a text looks like. -/
def integer? (cs : List Char) : Option Int :=
  let (negative, rest) := sign cs
  (unsigned? rest).map fun n => if negative then -(n : Int) else n

/-- The signed exponent behind a fraction, zero when there is none. -/
def exponent? : List Char → Option Int
  | [] => some 0
  | c :: s :: cs =>
      if (c = 'e' || c = 'E') && (s = '-' || s = '+') && cs.all Char.isDigit then
        (natural? 10 cs).map fun n => if s = '-' then -(n : Int) else n
      else none
  | _ => none

/-- The number with a point that a text looks like. -/
def float? (cs : List Char) : Option Binary64 := do
  let (negative, rest) := sign cs
  let isPart (c : Char) := c.isDigit || c = '_'
  let whole := rest.takeWhile isPart
  match rest.dropWhile isPart with
  | '.' :: rest =>
      let places := (rest.takeWhile isPart).filter (· != '_')
      let digits := whole.filter (· != '_') ++ places
      let power ← exponent? (rest.dropWhile isPart)
      if whole.head? = some '_' || digits.isEmpty then none
      else return .nearest negative (← natural? 10 digits) (power - places.length)
  | _ => none

/-- The texts of infinity and of no number. -/
def specialNumbers : List (String × Binary64) :=
  [".inf", ".Inf", ".INF", "+.inf", "+.Inf", "+.INF"].map (·, .infinity false) ++
    ["-.inf", "-.Inf", "-.INF"].map (·, .infinity true) ++
    [".nan", ".NaN", ".NAN"].map (·, .notANumber)

/-- The values of fixed words. -/
def words : List (String × Value) :=
  ["", "~", "null", "Null", "NULL"].map (·, .null) ++
    ["yes", "Yes", "YES", "true", "True", "TRUE", "on", "On", "ON"].map (·, .bool true) ++
    ["no", "No", "NO", "false", "False", "FALSE", "off", "Off", "OFF"].map (·, .bool false) ++
    specialNumbers.map fun (text, x) => (text, .float x)

/-- The digits at the beginning of a text, between `low` and `high` of them, and the rest. -/
def digitRun? (low high : Nat) (cs : List Char) : Option (Nat × Nat × List Char) :=
  let run := (cs.take high).takeWhile Char.isDigit
  if run.length < low then none
  else (natural? 10 run).map fun n => (n, run.length, cs.drop run.length)

/-- The text behind a character. -/
def expect? (c : Char) : List Char → Option (List Char)
  | d :: cs => if d = c then some cs else none
  | [] => none

/-- The microseconds of a fraction of a second, if there is one, and the text behind it. Further
digits are not looked at. -/
def micros (cs : List Char) : Nat × List Char :=
  match cs with
  | '.' :: rest =>
      let digits := (rest.takeWhile Char.isDigit).take 6
      (((natural? 10 digits).getD 0) * Nat.pow 10 (6 - digits.length), rest.dropWhile Char.isDigit)
  | _ => (0, cs)

/-- The offset of the time zone that a text spells, in minutes. An empty text spells no zone. -/
def zone? (cs : List Char) : Option (Option Int) :=
  match cs.dropWhile Text.isBlank with
  | [] => if cs.isEmpty then some none else none
  | ['Z'] => some (some 0)
  | s :: cs => do
      if s ≠ '-' && s ≠ '+' then none
      let signed (minutes : Nat) : Int := if s = '-' then -(minutes : Int) else minutes
      match ← digitRun? 1 2 cs with
      | (hours, _, []) => return some (signed (60 * hours))
      | (hours, _, ':' :: cs) =>
          match ← digitRun? 2 2 cs with
          | (minutes, _, []) => return some (signed (60 * hours + minutes))
          | _ => none
      | _ => none

/-- The time of day that a text spells, with a fraction and a time zone or without. -/
def clock? (cs : List Char) : Option Clock := do
  let (hour, _, rest) ← digitRun? 1 2 cs
  let (minute, _, rest) ← digitRun? 2 2 (← expect? ':' rest)
  let (second, _, rest) ← digitRun? 2 2 (← expect? ':' rest)
  let (fraction, rest) := micros rest
  return ⟨hour, minute, second, fraction, ← zone? rest⟩

/-- The text behind what separates a date from a time of day. -/
def skipDivider? : List Char → Option (List Char)
  | 'T' :: cs => some cs
  | 't' :: cs => some cs
  | c :: cs => if Text.isBlank c then some (cs.dropWhile Text.isBlank) else none
  | [] => none

/-- The value of a date and a time of day, none when they are impossible. -/
def momentValue? (date : Option Date) (c : Clock) : Option Value :=
  if c.hour < 24 && c.minute < 60 && c.second < 60 && (c.zone.getD 0).natAbs < 24 * 60 then
    date.map (.moment · c)
  else none

/-- What a text that looks like a date or a moment stands for, if it looks like one: the inner value
is missing when the date or the time of day is impossible. -/
def timestamp? (cs : List Char) : Option (Option Value) := do
  let (year, _, rest) ← digitRun? 4 4 cs
  let (month, monthDigits, rest) ← digitRun? 1 2 (← expect? '-' rest)
  let (day, dayDigits, rest) ← digitRun? 1 2 (← expect? '-' rest)
  let date := Date.make? year month day
  if rest.isEmpty then
    if monthDigits = 2 && dayDigits = 2 then return date.map .date else none
  else
    return momentValue? date (← clock? (← skipDivider? rest))

/-- The value of a scalar. There is none for an impossible date. -/
def Scalar.value? (s : Scalar) : Option Value :=
  if !s.isPlain then some (.text s.text)
  else
    let cs := s.text.toList
    match words.lookup s.text, timestamp? cs, integer? cs, float? cs with
    | some v, _, _, _ => some v
    | _, some v, _, _ => v
    | _, _, some n, _ => some (.int n)
    | _, _, _, some x => some (.float x)
    | _, _, _, _ => some (.text s.text)

mutual
/-- The value of a node. There is none when it holds an impossible date. -/
def Node.value? : Node → Option Value
  | .scalar s => s.value?
  | .list items => (itemValues? items).map .list
  | .map entries => (entryValues? entries).map fun pairs => .map (Fields.ofPairs pairs)

/-- The values of the items of a list. -/
def itemValues? : List Node → Option (List Value)
  | [] => some []
  | item :: items => do return (← item.value?) :: (← itemValues? items)

/-- The keys and values of the entries of a mapping. A key is known by the text of its value. -/
def entryValues? : List (Scalar × Node) → Option (List (String × Value))
  | [] => some []
  | (k, v) :: entries => do return ((← k.value?).plain, ← v.value?) :: (← entryValues? entries)
end

end PhpDoc.Yaml
