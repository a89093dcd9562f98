import PhpDoc.Check.Basic

/-!
# Checking the layout of a doc comment

The layout rules as one walk over the session: the lines of the markers, the descriptions, the tags
and their groups, and the stars, in this order. Each finding is reported where it is met.
-/

namespace PhpDoc.Check

open Layout (family paramTag)

/-- Content on the line of the open marker. -/
def contentAfterOpen (b : Block) (first : Token) : Check Unit := do
  let s ← stream
  reportWhen (first.line == b.opener.line) <|
    .fixed family "ContentAfterOpen" "The open comment tag must be the only content on the line"
      b.opener
      (((Changeset.empty.append b.opener s.eol).blank
        (s.between (b.opener.index + 1) first.index)).prepend first (b.starIndent s ++ "* "))

/-- Content on the line of the close marker. -/
def contentBeforeClose (b : Block) (last : Token) : Check Unit := do
  let s ← stream
  reportWhen (last.line == b.closer.line) <|
    .fixed family "ContentBeforeClose" "The close comment tag must be the only content on the line"
      b.closer
      ((Changeset.empty.blank (s.between (last.index + 1) b.closer.index)).prepend b.closer
        (s.eol ++ b.starIndent s))

/-- Blank lines in front of the close marker. -/
def spacingAfter (b : Block) (last : Token) : Check Unit := do
  let s ← stream
  reportWhen (last.line + 1 < b.closer.line) <|
    .fixed family "SpacingAfter" "Additional blank lines found at end of doc comment" b.closer
      (Changeset.empty.blank
        (Layout.beforeLine b.closer.line (s.between (last.index + 1) (b.closer.index + 1))))

/-- Lines between the open marker and the short description. -/
def spacingBeforeShort (b : Block) (short : Description) : Check Unit := do
  let s ← stream
  reportWhen (b.opener.line + 1 < short.first.line) <|
    .fixed family "SpacingBeforeShort" "Doc comment short description must be on the first line"
      short.first
      (Changeset.empty.blank
        ((s.between b.opener.index short.first.index).filter fun t =>
          b.opener.line < t.line && t.line < short.first.line))

/-- A short description that starts in lower case. -/
def shortNotCapital (short : Description) : Check Unit :=
  reportWhen (Text.startsLower short.text) <|
    .error family "ShortNotCapital" "Doc comment short description must start with a capital letter"
      short.first

/-- The lines between the descriptions. -/
def spacingBetween (short long : Description) : Check Unit := do
  let s ← stream
  reportWhen (long.first.line != short.last.line + 2) <|
    .fixed family "SpacingBetween"
      "There must be exactly one blank line between descriptions in a doc comment" long.first
      (Changeset.empty.blank
        ((s.between (short.last.index + 1) long.first.index).filter fun t =>
          short.last.line < t.line && t.line + 1 < long.first.line))

/-- A long description that starts in lower case. -/
def longNotCapital (long : Description) : Check Unit :=
  reportWhen (Text.startsLower long.text) <|
    .error family "LongNotCapital" "Doc comment long description must start with a capital letter"
      long.first

/-- The change that leaves exactly one blank star line between two tokens. -/
def singleBlankLine (previous following : Token) (indent : String) : Check Changeset := do
  let s ← stream
  let blanks := (s.between (previous.index + 1) following.index).filter (·.line != following.line)
  return (Changeset.empty.blank blanks).append previous (s.eol ++ indent ++ "*" ++ s.eol)

/-- The lines in front of the first tag. -/
def spacingBeforeTags (b : Block) (first : Tag) : Check Unit := do
  let s ← stream
  match s.lastBetween (!·.isFiller) b.opener.index first.token.index with
  | none => pure ()
  | some previous =>
      let fix ← singleBlankLine previous first.token (b.starIndent s)
      reportWhen (first.token.line != previous.line + 2) <|
        .fixed family "SpacingBeforeTags"
          "There must be exactly one blank line before the tags in a doc comment" first.token fix

/-- A parameter tag outside the first group with such tags. -/
def paramGroup (t : Tag) : Check Unit :=
  discard <| report <|
    .error family "ParamGroup" "Parameter tags must be grouped together in a doc comment" t.token

/-- The first group with parameter tags, where `first` was found in the groups before. The parameter
tags of all later groups are reported. -/
def paramGroups (first : Option TagGroup) : List TagGroup → Check (Option TagGroup)
  | [] => pure first
  | g :: gs =>
      if g.has paramTag then
        match first with
        | none => paramGroups (some g) gs
        | some first => do
            (g.tags.filter (·.name == paramTag)).forM paramGroup
            paramGroups (some first) gs
      else paramGroups first gs

/-- The lines between a group, of which `last` is the last tag, and the next one, which starts with
`next`. -/
def spacingAfterGroup (b : Block) (last next : Tag) : Check Unit := do
  let s ← stream
  match s.lastBetween Kind.isDocContent b.opener.index next.token.index with
  | none => pure ()
  | some previous =>
      let fix ← singleBlankLine previous next.token (b.starIndent s)
      reportWhen (next.token.line != previous.line + 2) <|
        .fixed family "SpacingAfterTagGroup" "There must be a single blank line after a tag group"
          last.token fix

/-- A misaligned value. -/
def valueIndent (m : Misalignment) : Check Unit :=
  let message := "Tag value indented incorrectly; expected " ++ toString m.expected ++
    " spaces but found " ++ toString m.found
  let padding := Text.spaces m.expected.toNat
  match m.tag.padding with
  | some blank =>
      discard <| report <|
        .fixed family "TagValueIndent" message blank (Changeset.empty.replace blank padding)
  | none =>
      discard <| report <|
        .fixed family "TagValueIndent" message m.value (Changeset.empty.prepend m.value padding)

/-- The lines between a group and the next one, if there is one. -/
def spacingBetweenGroups (b : Block) (g : TagGroup) (next : Option TagGroup) : Check Unit :=
  match g.tags.getLast?, next.bind (·.tags.head?) with
  | some last, some next => spacingAfterGroup b last next
  | _, _ => pure ()

/-- The spacing after each group and the values in it. -/
def groupSpacing (b : Block) : List TagGroup → Check Unit
  | [] => pure ()
  | g :: gs => do
      spacingBetweenGroups b g gs.head?
      g.misaligned.forM valueIndent
      groupSpacing b gs

/-- A group with parameter tags that is not the first one. -/
def paramNotFirst (first : Option TagGroup) : Check Unit :=
  match first with
  | none => pure ()
  | some g =>
      match g.tags.head? with
      | none => pure ()
      | some t =>
          reportWhen (g.number != 0) <|
            .error family "ParamNotFirst" "Parameter tags must be defined first in a doc comment"
              t.token

/-- Tags that come after an equal tag with another tag in between. `seen` holds the earlier tags,
the last one first. -/
def tagsNotGrouped (seen : List Tag) : List Tag → Check Unit
  | [] => pure ()
  | t :: ts => do
      reportWhen (seen.any (·.name == t.name) && seen.head?.map (·.name) != some t.name) <|
        .error family "TagsNotGrouped" "Tags must be grouped together in a doc comment" t.token
      tagsNotGrouped (t :: seen) ts

/-- The tags of a block. -/
def tags (b : Block) : Check Unit := do
  let s ← stream
  match b.tags with
  | [] => pure ()
  | first :: _ =>
      spacingBeforeTags b first
      let groups := b.groups s
      let params ← paramGroups none groups
      groupSpacing b groups
      paramNotFirst params
      tagsNotGrouped [] b.tags

/-- The long description, if there is one. -/
def longDescription (b : Block) (short : Description) : Check Unit :=
  match b.long with
  | none => pure ()
  | some long => do
      spacingBetween short long
      longNotCapital long

/-- The descriptions of a block, and then its tags. Without a short description there is nothing
more to check. -/
def descriptions (b : Block) : Check Unit :=
  match b.short with
  | none =>
      discard <| report <|
        .error family "MissingShort" "Missing short description in doc comment" b.opener
  | some short => do
      spacingBeforeShort b short
      shortNotCapital short
      longDescription b short
      tags b

/-- The markers, descriptions and tags of a block with content. -/
def content (b : Block) (first : Token) : Check Unit := do
  let s ← stream
  contentAfterOpen b first
  match s.lastBetween (!·.isFiller) b.opener.index b.closer.index with
  | none => pure ()
  | some last =>
      contentBeforeClose b last
      spacingAfter b last
      descriptions b

/-- A star or close marker that starts its line outside the star column. -/
def star (b : Block) (t : Token) : Check Unit := do
  let s ← stream
  match s.lineIndent? t.index with
  | none => pure ()
  | some indent =>
      let message := "Expected " ++ toString (b.starColumn s - 1) ++
        " spaces before asterisk; " ++ toString (t.column - 1) ++ " found"
      let fix := match indent with
        | some blank => Changeset.empty.replace blank (b.starIndent s)
        | none => Changeset.empty.prepend t (b.starIndent s)
      reportWhen (t.column != b.starColumn s) <| .fixed family "SpaceBeforeStar" message t fix

/-- The stars and the close marker of a block. -/
def stars (b : Block) : Check Unit := do
  let s ← stream
  ((s.between (b.opener.index + 1) (b.closer.index + 1)).filter fun t =>
    t.kind == .docStar || t.kind == .docClose).forM (star b)

/-- The layout of a block. -/
def layout (b : Block) : Check Unit :=
  match b.first with
  | none => discard <| report <| .error family "Empty" "Doc comment is empty" b.opener
  | some first => do
      content b first
      stars b

end PhpDoc.Check
