import PhpDoc.Comment.Block

/-!
# The star column

Every line of a block starts with a star in one column: that of the first star, or, in a block
without stars, the column after the first character of the open marker. The indentation in front of
a star reuses the white space that is already there, tabs included.
-/

namespace PhpDoc

/-- The white space in front of the token at index `i`, when that token is the first one on its
line. -/
def Stream.leadingWhitespace? (s : Stream) (i : Nat) : Option String :=
  match s.before? i with
  | none => some ""
  | some t =>
      if Text.endsLine t.text then some ""
      else if t.kind == .whitespace || t.kind == .docBlank then
        match s.before? t.index with
        | none => some t.text
        | some u => if Text.endsLine u.text then some t.text else none
      else none

/-- The blank in front of the token at index `i` of a comment, when that token is the first one on
its line: `none` for a token inside a line, `some none` for one without indentation. -/
def Stream.lineIndent? (s : Stream) (i : Nat) : Option (Option Token) :=
  match s.before? i with
  | none => some none
  | some t =>
      if Text.endsLine t.text then some none
      else if t.kind == .docBlank then
        match s.before? t.index with
        | none => none
        | some u => if Text.endsLine u.text then some (some t) else none
      else none

namespace Block

/-- The first star of the block. -/
def star? (s : Stream) (b : Block) : Option Token :=
  s.firstBetween (· == .docStar) (b.opener.index + 1) b.closer.index

/-- The column of the stars of the block. -/
def starColumn (s : Stream) (b : Block) : Nat :=
  match b.star? s with
  | some star => star.column
  | none => b.opener.column + 1

/-- The white space in front of the stars of the block. -/
def starIndent (s : Stream) (b : Block) : String :=
  match b.star? s with
  | some star => (s.leadingWhitespace? star.index).getD (Text.spaces (star.column - 1))
  | none =>
      match s.leadingWhitespace? b.opener.index with
      | some leading => leading ++ " "
      | none => Text.spaces b.opener.column

end Block

end PhpDoc
