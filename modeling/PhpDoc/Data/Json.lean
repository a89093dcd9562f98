import PhpDoc.Data.Value

/-!
# JSON text

The JSON text of a value, in ASCII: other characters are written as escapes of their UTF-16 units. A
style says what stands between items, between a key and its value, and how far nested lines are
indented.
-/

namespace PhpDoc.Json

/-- The layout of a JSON text. -/
structure Style where
  itemSeparator : String
  keySeparator : String
  indent : Option Nat
  deriving DecidableEq, Repr, Inhabited

/-- One line, with a space after each separator. -/
def Style.line : Style := ⟨", ", ": ", none⟩

/-- One line without any space. -/
def Style.compact : Style := ⟨",", ":", none⟩

/-- Many lines, each level indented by two spaces. -/
def Style.indented : Style := ⟨",", ": ", some 2⟩

/-- The escape of a UTF-16 unit. -/
def unit (n : Nat) : List Char :=
  '\\' :: 'u' :: Quoted.hex 4 n

/-- The written form of a character inside a JSON string. -/
def escape (c : Char) : List Char :=
  if c = '"' || c = '\\' then ['\\', c]
  else if ' ' ≤ c && c ≤ '~' then [c]
  else if c = '\n' then ['\\', 'n']
  else if c = '\r' then ['\\', 'r']
  else if c = '\t' then ['\\', 't']
  else if c = '\x08' then ['\\', 'b']
  else if c = '\x0c' then ['\\', 'f']
  else if c.toNat < 0x10000 then unit c.toNat
  else
    let n := c.toNat - 0x10000
    unit (0xd800 + n / 0x400) ++ unit (0xdc00 + n % 0x400)

/-- A text as a JSON string. -/
def string (s : String) : String :=
  String.ofList ('"' :: s.toList.flatMap escape ++ ['"'])

/-- What starts a new line at a nesting depth, nothing in a style of one line. -/
def Style.newline (style : Style) (depth : Nat) : String :=
  match style.indent with
  | none => ""
  | some width => "\n" ++ String.ofList (List.replicate (width * depth) ' ')

/-- Items between brackets, each on a line of its own when the style indents. -/
def Style.enclose (style : Style) (depth : Nat) (opener closer : String) (items : List String) :
    String :=
  if items.isEmpty then opener ++ closer
  else
    let separator := style.itemSeparator ++ style.newline (depth + 1)
    opener ++ style.newline (depth + 1) ++ separator.intercalate items ++ style.newline depth ++
      closer

mutual
/-- The JSON text of a value at a nesting depth. Whole numbers are written whatever their length; only
the reading of digits has a limit. -/
def renderAt (style : Style) (depth : Nat) : Value → String
  | .null => "null"
  | .bool true => "true"
  | .bool false => "false"
  | .int n => toString n
  | .float x => x.textWith "Infinity" "NaN"
  | .text s => string s
  | .list items => style.enclose depth "[" "]" (renderItems style (depth + 1) items)
  | .map fields => style.enclose depth "\x7b" "\x7d" (renderFields style (depth + 1) fields)
  | .date d => string d.iso
  | .time c => string c.text
  | .moment d c => string (d.iso ++ " " ++ c.text)

/-- The JSON texts of the items of a list. -/
def renderItems (style : Style) (depth : Nat) : List Value → List String
  | [] => []
  | v :: vs => renderAt style depth v :: renderItems style depth vs

/-- The JSON texts of the fields of a mapping. -/
def renderFields (style : Style) (depth : Nat) : List (String × Value) → List String
  | [] => []
  | (key, v) :: fields =>
      (string key ++ style.keySeparator ++ renderAt style depth v) ::
        renderFields style depth fields
end

/-- The JSON text of a value. -/
def render (style : Style) (v : Value) : String :=
  renderAt style 0 v

end PhpDoc.Json
