import PhpDoc.Text.Word
import PhpDoc.Token.Basic

/-!
# The lexemes of a doc comment

A doc comment is the open marker, lines with their line breaks, and the close marker. A line is an
optional blank, on every line but the first an optional star with its blank, and then the content: a
tag with an optional value, or a plain string. The blank that trails a line is a lexeme of its own,
so that no string starts or ends with a space or a tab.
-/

namespace PhpDoc.Lexer

open Text

/-- The lexeme with text `cs`, or none for the empty text. -/
def lexeme? (kind : Kind) (cs : List Char) : List Lexeme :=
  if cs.isEmpty then [] else [⟨kind, String.ofList cs⟩]

/-- The characters of a tag name after its `@`. -/
def isTagPart (c : Char) : Bool :=
  isWord c || c = '\\' || c = '-'

/-- The width of the tag that starts the text, if one does: an `@` and at least one character of a
name. -/
def tagWidth? : List Char → Option Nat
  | '@' :: cs =>
      match cs.takeWhile isTagPart with
      | [] => none
      | part => some (part.length + 1)
  | _ => none

/-- The lexemes of the content of a line, which has no blank at either end. -/
def docContent (content : List Char) : List Lexeme :=
  match tagWidth? content with
  | some width =>
      let value := content.drop width
      lexeme? .docTag (content.take width) ++ lexeme? .docBlank (value.takeWhile isBlank) ++
        lexeme? .docString (value.dropWhile isBlank)
  | none => lexeme? .docString content

/-- The lexemes of the content of a line and of the blank that trails it. -/
def docRest (rest : List Char) : List Lexeme :=
  let content := trimEnd isBlank rest
  docContent content ++ lexeme? .docBlank (rest.drop content.length)

/-- The lexemes of one line of a doc comment without its line break. -/
def docLine (allowStar : Bool) (line : List Char) : List Lexeme :=
  let indent := line.takeWhile isBlank
  let content := line.dropWhile isBlank
  match allowStar, content with
  | true, '*' :: rest =>
      lexeme? .docBlank indent ++ ⟨.docStar, "*"⟩ :: lexeme? .docBlank (rest.takeWhile isBlank) ++
        docRest (rest.dropWhile isBlank)
  | _, _ => lexeme? .docBlank indent ++ docRest content

/-- The lexemes of one line of a doc comment and of the line break that ends it. -/
def docBreakLine (allowStar : Bool) (line : List Char) : List Lexeme :=
  docLine allowStar (line.takeWhile (!isLineBreak ·)) ++
    lexeme? .docBlank (line.dropWhile (!isLineBreak ·))

/-- The lexemes between the markers of a doc comment. Only the first line takes no star. -/
def docBody (body : List Char) : List Lexeme :=
  match cutLines isLineBreak body with
  | [] => []
  | first :: lines => docBreakLine false first ++ lines.flatMap (docBreakLine true)

/-- The lexemes of a doc comment with the given text between its markers. -/
def docComment (body : List Char) : List Lexeme :=
  ⟨.docOpen, "/**"⟩ :: docBody body ++ [⟨.docClose, "*/"⟩]

end PhpDoc.Lexer
