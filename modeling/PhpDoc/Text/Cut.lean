import PhpDoc.Text.Ranges

/-!
# Cutting text

Text is scanned as a list of characters. This module finds a piece of text inside another, trims
characters of a class off the ends, splits at a separator and cuts a text into lines that keep
their line breaks. White space is that of all scripts: the control characters that separate text,
the spaces of various widths and the line and paragraph separators.
-/

namespace PhpDoc.Text

/-- Whether the text `cs` starts with `lead`. -/
def startsWith (lead : String) (cs : List Char) : Bool :=
  lead.toList.isPrefixOf cs

/-- Whether the text `s` ends with `tail`. -/
def endsWith (tail s : String) : Bool :=
  tail.toList.isSuffixOf s.toList

/-- The offset of the first occurrence of `needle` in a text. -/
def offsetOf? (needle : List Char) : List Char → Option Nat
  | [] => if needle.isEmpty then some 0 else none
  | c :: cs =>
      if needle.isPrefixOf (c :: cs) then some 0 else (offsetOf? needle cs).map (· + 1)

/-- Whether `needle` occurs in the text `s`. -/
def contains (needle s : String) : Bool :=
  (offsetOf? needle.toList s.toList).isSome

/-- The text without the characters of the class at its end. -/
def trimEnd (p : Char → Bool) (cs : List Char) : List Char :=
  (cs.reverse.dropWhile p).reverse

/-- The text without the characters of the class at both ends. -/
def trim (p : Char → Bool) (cs : List Char) : List Char :=
  trimEnd p (cs.dropWhile p)

/-- The text without its first `n` characters. -/
def dropChars (n : Nat) (s : String) : String :=
  String.ofList (s.toList.drop n)

/-- The parts of a text between the occurrences of the separator `sep`. There is always one part
more than there are separators. -/
def splitOn (sep : Char) : List Char → List (List Char)
  | [] => [[]]
  | c :: cs =>
      if c = sep then [] :: splitOn sep cs
      else match splitOn sep cs with
        | [] => [[c]]
        | part :: parts => (c :: part) :: parts

/-- The part of a text before the first `sep`, or the whole text without one. -/
def before (sep : Char) (s : String) : String :=
  String.ofList (s.toList.takeWhile (· != sep))

/-- The text with every character `old` replaced by `new`. -/
def replaceChar (old new : Char) (s : String) : String :=
  String.ofList (s.toList.map fun c => if c = old then new else c)

/-- A text of `n` spaces. -/
def spaces (n : Nat) : String :=
  String.ofList (List.replicate n ' ')

/-- The texts joined, with `sep` between neighbours. -/
def join (sep : String) (parts : List String) : String :=
  sep.intercalate parts

/-- The lines of a text, each with the line break that ends it. A break is one character of the
class `isBreak`, and a carriage return followed by a line feed is a single break. -/
def cutLines (isBreak : Char → Bool) : List Char → List (List Char)
  | [] => []
  | '\r' :: '\n' :: cs =>
      ['\r', '\n'] :: cutLines isBreak cs
  | c :: cs =>
      if isBreak c then [c] :: cutLines isBreak cs
      else match cutLines isBreak cs with
        | [] => [[c]]
        | line :: lines => (c :: line) :: lines

/-- The line breaks of source text: line feed and carriage return. -/
def isLineBreak (c : Char) : Bool :=
  c = '\n' || c = '\r'

/-- Whether the text ends with a line feed or a carriage return. -/
def endsLine (s : String) : Bool :=
  match s.toList.getLast? with
  | some c => isLineBreak c
  | none => false

/-- The characters that separate words inside one line of source text. -/
def isBlank (c : Char) : Bool :=
  c = ' ' || c = '\t'

/-! ## White space -/

/-- The code points of white space, in order. -/
def spaceRanges : Ranges :=
  [(9, 13), (28, 32), (133, 133), (160, 160), (5760, 5760), (8192, 8202), (8232, 8233),
   (8239, 8239), (8287, 8287), (12288, 12288)]

/-- Whether `c` is white space. -/
def isSpace (c : Char) : Bool :=
  Ranges.contains c.toNat spaceRanges

/-- The text without white space at both ends. -/
def strip (s : String) : String :=
  String.ofList (trim isSpace s.toList)

end PhpDoc.Text
