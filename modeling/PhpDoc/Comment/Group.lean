import PhpDoc.Comment.Block

/-!
# Groups of tags and their alignment

A blank line between two tags ends a group. Within a group every inline value starts in the same
column, one after the longest tag name, so that an entry needs `longest - length + 1` spaces after
it. The same rule holds for the columns inside parameter tags.
-/

namespace PhpDoc

/-- The number of spaces after an entry of the given length in a column of width `longest`. -/
def requiredPadding (longest length : Int) : Int :=
  longest - length + 1

/-- The indentation of a continuation line that moves with the padding from `found` to `required`.
It never falls below zero. -/
def shiftedIndent (indent required found : Int) : Int :=
  max (indent + required - found) 0

/-- A run of tags without a blank line between neighbours. -/
structure TagGroup where
  number : Nat
  tags : List Tag
  deriving DecidableEq, Repr, Inhabited

/-- A tag whose inline value does not start in the value column of its group. -/
structure Misalignment where
  tag : Tag
  value : Token
  expected : Int
  found : Int
  deriving DecidableEq, Repr, Inhabited

namespace TagGroup

/-- The length of the longest tag name of the group. -/
def longest (g : TagGroup) : Nat :=
  (g.tags.map (·.name.length)).foldl max 0

/-- Whether the group has a tag called `name`. -/
def has (g : TagGroup) (name : String) : Bool :=
  g.tags.any (·.name == name)

/-- The misalignment of a tag in a group whose longest name has length `longest`. A tag without an
inline value needs no padding. -/
def misalignment? (longest : Nat) (t : Tag) : Option Misalignment :=
  match t.value with
  | none => none
  | some value =>
      let found : Int := (t.padding.elim 0 (·.text.length) : Nat)
      let expected := requiredPadding longest t.name.length
      if found = expected then none else some ⟨t, value, expected, found⟩

/-- The misaligned values of the group, in order. -/
def misaligned (g : TagGroup) : List Misalignment :=
  g.tags.filterMap (misalignment? g.longest)

end TagGroup

namespace Block

/-- Whether the tag `next` stands right below the last line of the tag `prev` and its value. -/
def follows (s : Stream) (prev next : Tag) : Bool :=
  let last := (s.lastBetween (· == .docString) prev.token.index next.token.index).getD prev.token
  last.line + 1 == next.token.line

/-- The groups of the tags of the block, numbered from zero. -/
def groups (s : Stream) (b : Block) : List TagGroup :=
  (b.tags.splitBy (follows s)).zipIdx.map fun (tags, number) => ⟨number, tags⟩

end Block

end PhpDoc
