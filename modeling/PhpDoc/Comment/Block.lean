import PhpDoc.Comment.Tag

/-!
# Comment blocks

A block is a doc comment taken apart: its markers, its tags in order, and, when its content starts
with a string, the short and the long description. The short description is the run of strings on
consecutive lines before the first tag. The long description starts with the content after it and
takes all strings up to the first tag.
-/

namespace PhpDoc

/-- A description: its strings in order, of which there is at least one. -/
structure Description where
  first : Token
  more : List Token
  deriving DecidableEq, Repr, Inhabited

namespace Description

/-- The strings of the description. -/
def strings (d : Description) : List Token := d.first :: d.more

/-- The last string of the description. -/
def last (d : Description) : Token := d.more.getLastD d.first

/-- The texts of the strings with single spaces between them. -/
def text (d : Description) : String :=
  Text.join " " (d.strings.map (·.text))

end Description

/-- A doc comment taken apart. -/
structure Block where
  opener : Token
  closer : Token
  tags : List Tag
  first : Option Token
  short : Option Description
  long : Option Description
  deriving DecidableEq, Repr, Inhabited

namespace Block

/-- The longest run of leading tokens of which each stands on the line after the one before it,
the first after line `line`. -/
def consecutive (line : Nat) : List Token → List Token
  | [] => []
  | t :: ts => if t.line = line + 1 then t :: consecutive t.line ts else []

/-- The strings of the stream with indices from `start` up to, but not including, `stop`. -/
def stringsBetween (s : Stream) (start stop : Nat) : List Token :=
  (s.between start stop).filter (·.kind == .docString)

/-- The short description that starts at `first`, before the tag or marker at index `stop`. -/
def shortFrom (s : Stream) (first : Token) (stop : Nat) : Description :=
  ⟨first, consecutive first.line (stringsBetween s (first.index + 1) stop)⟩

/-- The long description after the short one. It has to start with a string, and the token right
before the close marker does not start one. -/
def longAfter (s : Stream) (short : Description) (closer : Token) (stop : Nat) :
    Option Description :=
  match s.firstBetween (!·.isFiller) (short.last.index + 1) (closer.index - 1) with
  | some t =>
      if t.kind == .docString then some ⟨t, stringsBetween s (t.index + 1) stop⟩ else none
  | none => none

/-- The block of a doc comment. -/
def ofSpan (s : Stream) (span : CommentSpan) : Block :=
  let tags := tagsOf s span.closer.index span.tags
  let first := s.firstBetween (!·.isFiller) (span.opener.index + 1) span.closer.index
  let stop := (span.tags.head?.getD span.closer).index
  match first with
  | some t =>
      if t.kind == .docString then
        let short := shortFrom s t stop
        ⟨span.opener, span.closer, tags, first, some short, longAfter s short span.closer stop⟩
      else ⟨span.opener, span.closer, tags, first, none, none⟩
  | none => ⟨span.opener, span.closer, tags, none, none, none⟩

/-- The tags called `name`, in order. -/
def tagsNamed (b : Block) (name : String) : List Tag :=
  b.tags.filter (·.name == name)

end Block

end PhpDoc
