import PhpDoc.Yaml.Flow

/-!
# YAML documents

In block style the nesting of lists and mappings shows in the indentation of their lines. An item of
a list follows a dash, a value of a mapping follows a key with a colon, and either may stand on the
lines below. A list below a key may stand at the indentation of the key. What stands behind a dash
or a key may be in flow style and may continue on lines that are indented further.

Anchors, tags, directives, text blocks and more than one document are not read.
-/

namespace PhpDoc.Yaml

/-- A line: the number of spaces in front of it, and its text. -/
structure Line where
  indent : Nat
  text : List Char
  deriving DecidableEq, Repr, Inhabited

/-- Whether a line has nothing but spaces or a comment. -/
def Line.isVoid (l : Line) : Bool :=
  match l.text with
  | [] => true
  | c :: _ => c = '#'

/-- The line with the given characters. -/
def Line.ofChars (cs : List Char) : Line :=
  ⟨(cs.takeWhile (· = ' ')).length, cs.dropWhile (· = ' ')⟩

/-- The text with a line feed for every line break. -/
def unifyBreaks : List Char → List Char
  | '\r' :: '\n' :: rest => '\n' :: unifyBreaks rest
  | '\r' :: rest => '\n' :: unifyBreaks rest
  | c :: rest => c :: unifyBreaks rest
  | [] => []

/-- The lines of a document that hold something. A line of three dashes may start it. -/
def contentLines (cs : List Char) : List Line :=
  let all := (Text.splitOn '\n' cs).map Line.ofChars |>.filter (!·.isVoid)
  match all with
  | ⟨0, ['-', '-', '-']⟩ :: rest => rest
  | _ => all

/-- Whether a document may hold the character. -/
def isAllowed (c : Char) : Bool :=
  c = '\t' || c = '\n' || c = '\r' || (' ' ≤ c && c ≤ '~') || c = '\x85' ||
    ('\xa0' ≤ c && c ≤ '\ufffd') || 0x10000 ≤ c.toNat

/-- The text of an item behind its dash, with the number of characters before it. -/
def afterDash? : List Char → Option (Nat × List Char)
  | ['-'] => some (1, [])
  | '-' :: ' ' :: rest =>
      some ((rest.takeWhile (· = ' ')).length + 2, rest.dropWhile (· = ' '))
  | _ => none

/-- The key at the beginning of a line and the text behind its colon. -/
def afterKey? (cs : List Char) : Option (Scalar × List Char) := do
  let (k, rest) ← match cs with
    | '\'' :: _ => quoted cs
    | '"' :: _ => quoted cs
    | _ => plain false cs
  match rest.dropWhile (· = ' ') with
  | ':' :: rest => if endsKey false rest then some (k, rest.dropWhile (· = ' ')) else none
  | _ => none

/-- Whether nothing but a comment is left on a line. -/
def isLineEnd (cs : List Char) : Bool :=
  match cs.dropWhile (· = ' ') with
  | [] => true
  | '\n' :: _ => true
  | '#' :: _ => cs.head? = some ' '
  | _ => false

/-- A node read from a text that goes on in the given lines, and the lines behind it. Nothing else
may stand on its last line. -/
def across (read : Reader Node) (text : List Char) (lines : List Line) :
    Option (Node × List Line) := do
  let all := text ++ lines.flatMap fun l => '\n' :: l.text
  let (node, rest) ← read all
  if isLineEnd rest then some (node, lines.drop (all.count '\n' - rest.count '\n')) else none

/-- Whether the text of a plain scalar holds what would make a key of it. -/
def holdsKey : List Char → Bool
  | [] => false
  | c :: rest => (c = ':' && endsKey false rest) || holdsKey rest

/-- The text of a line without the comment at its end. -/
def withoutComment (previous : Char) : List Char → List Char
  | [] => []
  | c :: rest => if c = '#' && previous = ' ' then [] else c :: withoutComment c rest

/-- A plain scalar whose text goes on in the lines that are indented further than `parent`. -/
def plainNode (parent : Int) (text : List Char) (lines : List Line) :
    Option (Node × List Line) :=
  let more := lines.takeWhile fun l => parent < l.indent
  let parts := (text :: more.map (·.text)).map (withoutComment 'x')
  if startsPlain false text && !parts.any holdsKey then
    some (.scalar ⟨true, foldPlain (['\n'].intercalate parts)⟩, lines.drop more.length)
  else none

/-- The node whose text begins on a line and is in flow style or a scalar. -/
def inlineNode (parent : Int) (text : List Char) (lines : List Line) : Option (Node × List Line) :=
  match text with
  | '[' :: _ => across (fun cs => flowNode (cs.length + 1) cs) text lines
  | '\x7b' :: _ => across (fun cs => flowNode (cs.length + 1) cs) text lines
  | '\'' :: _ => across (fun cs => (quoted cs).map fun (s, rest) => (.scalar s, rest)) text lines
  | '"' :: _ => across (fun cs => (quoted cs).map fun (s, rest) => (.scalar s, rest)) text lines
  | _ => plainNode parent text lines

/-- Whether the first of the lines is an item of a list at an indentation. -/
def startsItem (indent : Nat) : List Line → Bool
  | [] => false
  | l :: _ => l.indent = indent && (afterDash? l.text).isSome

/-- Whether the first of the lines is indented further than `indent`. -/
def startsDeeper (indent : Nat) : List Line → Bool
  | [] => false
  | l :: _ => indent < l.indent

mutual
/-- The node at the beginning of the lines, below a node at the indentation `parent`. -/
def blockNode : Nat → Int → List Line → Option (Node × List Line)
  | 0, _, _ => none
  | _ + 1, _, [] => none
  | steps + 1, parent, l :: lines =>
      if (afterDash? l.text).isSome then
        (blockItems steps l.indent (l :: lines)).map fun (items, rest) => (.list items, rest)
      else if (afterKey? l.text).isSome then
        (blockEntries steps l.indent (l :: lines)).map fun (entries, rest) => (.map entries, rest)
      else inlineNode parent l.text lines

/-- The items of a list at an indentation. -/
def blockItems : Nat → Nat → List Line → Option (List Node × List Line)
  | 0, _, _ => none
  | _ + 1, _, [] => some ([], [])
  | steps + 1, indent, l :: lines =>
      match afterDash? l.text with
      | none => some ([], l :: lines)
      | some (offset, text) =>
          if l.indent ≠ indent then some ([], l :: lines)
          else do
            let (item, rest) ←
              if !isLineEnd (' ' :: text) then
                blockNode steps indent (⟨indent + offset, text⟩ :: lines)
              else if startsDeeper indent lines then blockNode steps indent lines
              else some (absent, lines)
            let (items, rest) ← blockItems steps indent rest
            return (item :: items, rest)

/-- The entries of a mapping at an indentation. -/
def blockEntries : Nat → Nat → List Line → Option (List (Scalar × Node) × List Line)
  | 0, _, _ => none
  | _ + 1, _, [] => some ([], [])
  | steps + 1, indent, l :: lines =>
      match afterKey? l.text with
      | none => some ([], l :: lines)
      | some (k, text) =>
          if l.indent ≠ indent || (afterDash? l.text).isSome then some ([], l :: lines)
          else do
            let (v, rest) ←
              if !isLineEnd (' ' :: text) then inlineNode indent text lines
              else if startsDeeper indent lines || startsItem indent lines then
                blockNode steps indent lines
              else some (absent, lines)
            let (entries, rest) ← blockEntries steps indent rest
            return ((k, v) :: entries, rest)
end

/-- Why a text is no document: it is malformed, or it holds a date that is none. -/
inductive Error where
  | malformed
  | impossibleDate
  deriving DecidableEq, Repr, Inhabited

/-- The node of a document, if it is well-formed. -/
def node? (cs : List Char) : Option Node :=
  match contentLines cs with
  | [] => some absent
  | lines =>
      match blockNode (2 * cs.length + 2) (-1) lines with
      | some (node, []) => some node
      | _ => none

/-- The value of a document. -/
def read (text : String) : Except Error Value :=
  let cs := unifyBreaks text.toList
  if !cs.all isAllowed then .error .malformed
  else match node? cs with
    | none => .error .malformed
    | some node => node.value?.elim (.error .impossibleDate) .ok

end PhpDoc.Yaml
