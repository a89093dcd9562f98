import PhpDoc.Yaml.Node

/-!
# Scalars and collections in flow style

In flow style, lists stand in brackets and mappings in braces, with commas between their items, and
may stretch over lines. A quoted scalar may do so as well: a line break in it counts as a space. A
plain scalar ends before a comment and before a colon that is followed by a blank.

Readers of nested collections have a bound on their steps.
-/

namespace PhpDoc.Yaml

/-- A function that reads a piece at the beginning of a text, and gives the text behind it. -/
abbrev Reader (α : Type) := List Char → Option (α × List Char)

/-- The characters that end or begin a collection or an item in flow style. -/
def isFlowMark (c : Char) : Bool :=
  ",[]\x7b\x7d".toList.contains c

/-- The characters with which no plain scalar begins. -/
def isIndicator (c : Char) : Bool :=
  ",[]\x7b\x7d#&*!|>'\"%@`\t".toList.contains c

/-- Whether `c` is a space or a line break. -/
def isGap (c : Char) : Bool :=
  c = ' ' || c = '\n'

/-- A character behind the characters read so far, which stand in reverse. A line break takes back
the spaces before it and counts as one. -/
def addQuoted (c : Char) (done : List Char) : List Char :=
  if c = '\n' then ' ' :: done.dropWhile Text.isBlank else c :: done

/-- The text of a scalar in single quotes, behind the opening one. A quote in it is written twice.
-/
def singleQuoted (done : List Char) : Reader (List Char)
  | '\'' :: '\'' :: rest => singleQuoted ('\'' :: done) rest
  | '\'' :: rest => some (done.reverse, rest)
  | c :: rest => singleQuoted (addQuoted c done) rest
  | [] => none

/-- The characters that are written by a backslash and another character. -/
def escapes : List (Char × Char) :=
  [('0', '\x00'), ('a', '\x07'), ('b', '\x08'), ('t', '\t'), ('\t', '\t'), ('n', '\n'),
   ('v', '\x0b'), ('f', '\x0c'), ('r', '\r'), ('e', '\x1b'), (' ', ' '), ('"', '"'), ('\\', '\\'),
   ('/', '/'), ('N', '\x85'), ('_', '\xa0'), ('L', '\u2028'), ('P', '\u2029')]

/-- The character with the code point of the hexadecimal digits. -/
def codePoint? (digits : List Char) : Option Char := do
  let n ← natural? 16 digits
  if n.isValidChar && !digits.contains '_' then some (Char.ofNat n) else none

/-- The text of a scalar in double quotes, behind the opening one. -/
def doubleQuoted (done : List Char) : Reader (List Char)
  | '"' :: rest => some (done.reverse, rest)
  | '\\' :: 'x' :: a :: b :: rest =>
      (codePoint? [a, b]).bind fun x => doubleQuoted (x :: done) rest
  | '\\' :: 'u' :: a :: b :: c :: d :: rest =>
      (codePoint? [a, b, c, d]).bind fun x => doubleQuoted (x :: done) rest
  | '\\' :: 'U' :: a :: b :: c :: d :: e :: f :: g :: h :: rest =>
      (codePoint? [a, b, c, d, e, f, g, h]).bind fun x => doubleQuoted (x :: done) rest
  | '\\' :: '\n' :: rest => doubleQuoted done rest
  | '\\' :: c :: rest => (escapes.lookup c).bind fun x => doubleQuoted (x :: done) rest
  | c :: rest => doubleQuoted (addQuoted c done) rest
  | [] => none

/-- A scalar in quotes. -/
def quoted : Reader Scalar
  | '\'' :: rest => (singleQuoted [] rest).map fun (cs, rest) => (⟨false, String.ofList cs⟩, rest)
  | '"' :: rest => (doubleQuoted [] rest).map fun (cs, rest) => (⟨false, String.ofList cs⟩, rest)
  | _ => none

/-- Whether a colon in front of the text ends a plain scalar. -/
def endsKey (inFlow : Bool) : List Char → Bool
  | [] => true
  | c :: _ => isGap c || c = '\t' || (inFlow && isFlowMark c)

/-- The raw text of a plain scalar and the text behind it. The character before the text tells
whether a comment may begin. -/
def rawPlain (inFlow : Bool) (previous : Char) : List Char → List Char × List Char
  | [] => ([], [])
  | c :: rest =>
      if (c = ':' && endsKey inFlow rest) || (c = '#' && isGap previous) ||
          (inFlow && (isFlowMark c || c = '?')) then
        ([], c :: rest)
      else
        let (cs, rest) := rawPlain inFlow c rest
        (c :: cs, rest)

/-- Whether a plain scalar may begin with the text. -/
def startsPlain (inFlow : Bool) : List Char → Bool
  | [] => false
  | c :: rest =>
      if c = '-' || (!inFlow && (c = '?' || c = ':')) then !rest.isEmpty && !endsKey inFlow rest
      else if c = '?' || c = ':' then false
      else !isIndicator c && !isGap c

/-- The text of a plain scalar: its lines without spaces around them, with single spaces between. -/
def foldPlain (raw : List Char) : String :=
  let lines := (Text.splitOn '\n' raw).map fun line => String.ofList (Text.trim (· = ' ') line)
  Text.join " " (lines.filter (!·.isEmpty))

/-- A plain scalar. -/
def plain (inFlow : Bool) : Reader Scalar := fun cs =>
  if startsPlain inFlow cs then
    let (raw, rest) := rawPlain inFlow 'x' cs
    some (⟨true, foldPlain raw⟩, rest)
  else none

/-- The text behind spaces, line breaks and comments. -/
def skipGaps : Nat → List Char → List Char
  | 0, cs => cs
  | steps + 1, cs =>
      match cs.dropWhile isGap with
      | '#' :: rest => skipGaps steps (rest.dropWhile (· != '\n'))
      | rest => rest

/-- The text behind everything that may stand between two pieces. -/
def skipAllGaps (cs : List Char) : List Char :=
  skipGaps (cs.length + 1) cs

/-- A scalar in flow style. -/
def flowScalar : Reader Scalar := fun cs =>
  match cs with
  | '\'' :: _ => quoted cs
  | '"' :: _ => quoted cs
  | _ => plain true cs

/-- The node of a missing value. -/
def absent : Node := .scalar ⟨true, ""⟩

mutual
/-- A node in flow style. -/
def flowNode : Nat → Reader Node
  | 0, _ => none
  | steps + 1, '[' :: rest =>
      (flowItems steps (skipAllGaps rest)).map fun (items, rest) => (.list items, rest)
  | steps + 1, '\x7b' :: rest =>
      (flowEntries steps (skipAllGaps rest)).map fun (entries, rest) => (.map entries, rest)
  | _ + 1, cs => (flowScalar cs).map fun (s, rest) => (.scalar s, rest)

/-- The items of a list and its closing bracket. An item may be a single entry of a mapping. -/
def flowItems : Nat → Reader (List Node)
  | 0, _ => none
  | _ + 1, ']' :: rest => some ([], rest)
  | steps + 1, cs => do
      let (item, rest) ← flowNode steps cs
      let (item, rest) ← match item, skipAllGaps rest with
        | .scalar k, ':' :: rest => do
            let (v, rest) ← flowValue steps (skipAllGaps rest)
            some (Node.map [(k, v)], rest)
        | item, rest => some (item, rest)
      match skipAllGaps rest with
      | ']' :: rest => return ([item], rest)
      | ',' :: rest =>
          let (items, rest) ← flowItems steps (skipAllGaps rest)
          return (item :: items, rest)
      | _ => none

/-- The entries of a mapping and its closing brace. -/
def flowEntries : Nat → Reader (List (Scalar × Node))
  | 0, _ => none
  | _ + 1, '\x7d' :: rest => some ([], rest)
  | steps + 1, cs => do
      let (k, rest) ← flowScalar cs
      let (v, rest) ← match skipAllGaps rest with
        | ':' :: rest => flowValue steps (skipAllGaps rest)
        | rest => some (absent, rest)
      match skipAllGaps rest with
      | '\x7d' :: rest => return ([(k, v)], rest)
      | ',' :: rest =>
          let (entries, rest) ← flowEntries steps (skipAllGaps rest)
          return ((k, v) :: entries, rest)
      | _ => none

/-- The value of an entry, which may be missing. -/
def flowValue : Nat → Reader Node
  | 0, _ => none
  | steps + 1, cs =>
      match cs with
      | ',' :: _ => some (absent, cs)
      | ']' :: _ => some (absent, cs)
      | '\x7d' :: _ => some (absent, cs)
      | _ => flowNode steps cs
end

end PhpDoc.Yaml
