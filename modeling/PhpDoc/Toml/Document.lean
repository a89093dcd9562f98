import PhpDoc.Toml.Table

/-!
# TOML documents

A document is a sequence of statements, one on a line: a key with a value, or the header of a table.
Values are scalars, arrays, which may stretch over lines, and inline tables. Comments reach to the
end of the line.

Every reader has a bound on its steps. A document is never read in more steps than it has
characters.
-/

namespace PhpDoc.Toml

/-- The text behind a comment, if there is one. -/
def skipComment (cs : List Char) : Option (List Char) :=
  match cs with
  | '#' :: rest =>
      if (rest.takeWhile (· != '\n')).all isContent then some (rest.dropWhile (· != '\n')) else none
  | _ => some cs

/-- The text behind white space, line breaks and comments. -/
def skipFill : Nat → List Char → Option (List Char)
  | 0, _ => none
  | steps + 1, cs =>
      let rest := cs.dropWhile fun c => Text.isBlank c || c = '\n'
      match rest with
      | '#' :: _ => (skipComment rest).bind (skipFill steps)
      | _ => some rest

mutual
/-- A value. -/
def value : Nat → Reader Value
  | 0, _ => none
  | steps + 1, '[' :: rest => do
      let (vs, rest) ← items steps (← skipFill steps rest)
      return (.list vs, rest)
  | steps + 1, '\x7b' :: rest => do
      match skipBlanks rest with
      | '\x7d' :: rest => return (.map [], rest)
      | rest =>
          let (table, rest) ← inlineFields steps Table.empty rest
          return (.map table.fields, rest)
  | _ + 1, cs => scalar cs

/-- The items of an array and its closing bracket. -/
def items : Nat → Reader (List Value)
  | 0, _ => none
  | _ + 1, ']' :: rest => some ([], rest)
  | steps + 1, cs => do
      let (v, rest) ← value steps cs
      match ← skipFill steps rest with
      | ']' :: rest => return ([v], rest)
      | ',' :: rest =>
          let (vs, rest) ← items steps (← skipFill steps rest)
          return (v :: vs, rest)
      | _ => none

/-- The fields of an inline table and its closing brace. -/
def inlineFields : Nat → Table → Reader Table
  | 0, _, _ => none
  | steps + 1, table, cs => do
      let (k, v, rest) ← assignment steps cs
      let table ← table.put [] k v
      match skipBlanks rest with
      | '\x7d' :: rest => return (table, rest)
      | ',' :: rest => inlineFields steps table (skipBlanks rest)
      | _ => none

/-- A key and its value. -/
def assignment : Nat → List Char → Option (Key × Value × List Char)
  | 0, _ => none
  | steps + 1, cs => do
      let (k, rest) ← key cs
      match rest with
      | '=' :: rest =>
          let (v, rest) ← value steps (skipBlanks rest)
          return (k, v, rest)
      | _ => none
end

/-- The header of a table behind its opening bracket. -/
def header : Reader Key := fun cs => do
  match ← key (skipBlanks cs) with
  | (k, ']' :: rest) => return (k, rest)
  | _ => none

/-- The statement at the beginning of a line: the section that is open behind it, the table, and the
text behind the statement. -/
def statement (current : Key) (table : Table) (cs : List Char) :
    Option (Key × Table × List Char) :=
  match cs with
  | [] => some (current, table, [])
  | '\n' :: _ => some (current, table, cs)
  | '#' :: _ => some (current, table, cs)
  | '[' :: rest => do
      let (k, rest) ← header rest
      return (k, ← table.declare k, rest)
  | _ => do
      let (k, v, rest) ← assignment (cs.length + 1) cs
      return (current, ← table.put current k v, rest)

/-- The table of the lines of a document, from the given section on. -/
def lines : Nat → Key → Table → List Char → Option Table
  | 0, _, _, _ => none
  | steps + 1, current, table, cs => do
      let (current, table, rest) ← statement current table (skipBlanks cs)
      match ← skipComment (skipBlanks rest) with
      | [] => return table
      | '\n' :: rest => lines steps current table rest
      | _ => none

/-- The text with line feeds for the pairs of carriage return and line feed. -/
def unifyBreaks : List Char → List Char
  | '\r' :: '\n' :: rest => '\n' :: unifyBreaks rest
  | c :: rest => c :: unifyBreaks rest
  | [] => []

/-- The fields of a document, if it is well-formed. -/
def read? (text : String) : Option Fields :=
  let cs := unifyBreaks text.toList
  (lines (cs.length + 1) [] Table.empty cs).map (·.fields)

end PhpDoc.Toml
