import PhpDoc.Comment.Group
import PhpDoc.Comment.Star
import PhpDoc.Rule.Violation
import PhpDoc.Text.Lowercase

/-!
# Layout of doc comments

These rules hold for every doc comment, whatever it documents: markers stand on lines of their own,
single blank lines divide the descriptions, the tags and the groups of tags, values are aligned
within their group, equal tags stand together with the parameters first, and all stars stand in one
column.
-/

namespace PhpDoc.Layout

/-- The name of the family of layout rules. -/
def family : String := "DocComment"

/-- The tag that documents a parameter. -/
def paramTag : String := "@param"

/-- Content on the line of the open marker moves to a line of its own. -/
def contentAfterOpen (s : Stream) (b : Block) (first : Token) : List Violation :=
  report (first.line == b.opener.line) <|
    .fixed family "ContentAfterOpen" "The open comment tag must be the only content on the line"
      b.opener
      (((Changeset.empty.append b.opener s.eol).blank
        (s.between (b.opener.index + 1) first.index)).prepend first (b.starIndent s ++ "* "))

/-- Content on the line of the close marker pushes the marker to a line of its own. -/
def contentBeforeClose (s : Stream) (b : Block) (last : Token) : List Violation :=
  report (last.line == b.closer.line) <|
    .fixed family "ContentBeforeClose" "The close comment tag must be the only content on the line"
      b.closer
      ((Changeset.empty.blank (s.between (last.index + 1) b.closer.index)).prepend b.closer
        (s.eol ++ b.starIndent s))

/-- The tokens up to the first one whose successor stands on the line `line`. -/
def beforeLine (line : Nat) : List Token → List Token
  | t :: next :: ts => if next.line = line then [] else t :: beforeLine line (next :: ts)
  | _ => []

/-- Blank lines in front of the close marker are removed. -/
def spacingAfter (s : Stream) (b : Block) (last : Token) : List Violation :=
  report (last.line + 1 < b.closer.line) <|
    .fixed family "SpacingAfter" "Additional blank lines found at end of doc comment" b.closer
      (Changeset.empty.blank
        (beforeLine b.closer.line (s.between (last.index + 1) (b.closer.index + 1))))

/-- The short description starts on the line after the open marker. -/
def spacingBeforeShort (s : Stream) (b : Block) (short : Description) : List Violation :=
  report (b.opener.line + 1 < short.first.line) <|
    .fixed family "SpacingBeforeShort" "Doc comment short description must be on the first line"
      short.first
      (Changeset.empty.blank
        ((s.between b.opener.index short.first.index).filter fun t =>
          b.opener.line < t.line && t.line < short.first.line))

/-- The short description starts with a capital letter. -/
def shortNotCapital (short : Description) : List Violation :=
  report (Text.startsLower short.text) <|
    .error family "ShortNotCapital" "Doc comment short description must start with a capital letter"
      short.first

/-- Exactly one blank line divides the descriptions. -/
def spacingBetween (s : Stream) (short long : Description) : List Violation :=
  report (long.first.line != short.last.line + 2) <|
    .fixed family "SpacingBetween"
      "There must be exactly one blank line between descriptions in a doc comment" long.first
      (Changeset.empty.blank
        ((s.between (short.last.index + 1) long.first.index).filter fun t =>
          short.last.line < t.line && t.line + 1 < long.first.line))

/-- The long description starts with a capital letter. -/
def longNotCapital (long : Description) : List Violation :=
  report (Text.startsLower long.text) <|
    .error family "LongNotCapital" "Doc comment long description must start with a capital letter"
      long.first

/-- The change that leaves exactly one blank star line between two tokens. -/
def singleBlankLine (s : Stream) (previous following : Token) (indent : String) : Changeset :=
  (Changeset.empty.blank
    ((s.between (previous.index + 1) following.index).filter (·.line != following.line))).append
    previous (s.eol ++ indent ++ "*" ++ s.eol)

/-- Exactly one blank line stands in front of the first tag. -/
def spacingBeforeTags (s : Stream) (b : Block) (first : Tag) : List Violation :=
  match s.lastBetween (!·.isFiller) b.opener.index first.token.index with
  | none => []
  | some previous =>
      report (first.token.line != previous.line + 2) <|
        .fixed family "SpacingBeforeTags"
          "There must be exactly one blank line before the tags in a doc comment" first.token
          (singleBlankLine s previous first.token (b.starIndent s))

/-- The groups with parameter tags, in order. -/
def paramGroups (groups : List TagGroup) : List TagGroup :=
  groups.filter (·.has paramTag)

/-- All parameter tags stand in one group. -/
def paramGroup (groups : List TagGroup) : List Violation :=
  ((paramGroups groups).drop 1).flatMap fun g =>
    (g.tags.filter (·.name == paramTag)).map fun t =>
      .error family "ParamGroup" "Parameter tags must be grouped together in a doc comment" t.token

/-- The parameter tags stand in the first group. -/
def paramNotFirst (groups : List TagGroup) : List Violation :=
  match (paramGroups groups).head? with
  | some group =>
      match group.tags.head? with
      | some t =>
          report (group.number != 0) <|
            .error family "ParamNotFirst" "Parameter tags must be defined first in a doc comment"
              t.token
      | none => []
  | none => []

/-- Exactly one blank line divides a group from the next one. -/
def spacingAfterGroup (s : Stream) (b : Block) (last next : Tag) : List Violation :=
  match s.lastBetween Kind.isDocContent b.opener.index next.token.index with
  | none => []
  | some previous =>
      report (next.token.line != previous.line + 2) <|
        .fixed family "SpacingAfterTagGroup" "There must be a single blank line after a tag group"
          last.token (singleBlankLine s previous next.token (b.starIndent s))

/-- The finding at a misaligned value. -/
def tagValueIndent (m : Misalignment) : Violation :=
  let message := "Tag value indented incorrectly; expected " ++ toString m.expected ++
    " spaces but found " ++ toString m.found
  let padding := Text.spaces m.expected.toNat
  match m.tag.padding with
  | some blank =>
      .fixed family "TagValueIndent" message blank (Changeset.empty.replace blank padding)
  | none =>
      .fixed family "TagValueIndent" message m.value (Changeset.empty.prepend m.value padding)

/-- The spacing after each group and the alignment of its values. -/
def groupSpacing (s : Stream) (b : Block) : List TagGroup → List Violation
  | [] => []
  | g :: gs =>
      (match g.tags.getLast?, gs.head?.bind (·.tags.head?) with
        | some last, some next => spacingAfterGroup s b last next
        | _, _ => []) ++
      g.misaligned.map tagValueIndent ++ groupSpacing s b gs

/-- The tags that come after an equal tag with another tag in between. `seen` holds the earlier
tags, the last one first. -/
def scattered (seen : List Tag) : List Tag → List Tag
  | [] => []
  | t :: ts =>
      let rest := scattered (t :: seen) ts
      if seen.any (·.name == t.name) && seen.head?.map (·.name) != some t.name then t :: rest
      else rest

/-- Equal tags stand together. -/
def tagsNotGrouped (b : Block) : List Violation :=
  (scattered [] b.tags).map fun t =>
    .error family "TagsNotGrouped" "Tags must be grouped together in a doc comment" t.token

/-- The findings about the tags of a block. -/
def checkTags (s : Stream) (b : Block) : List Violation :=
  match b.tags with
  | [] => []
  | first :: _ =>
      let groups := b.groups s
      spacingBeforeTags s b first ++ paramGroup groups ++ groupSpacing s b groups ++
        paramNotFirst groups ++ tagsNotGrouped b

/-- The findings about the descriptions and tags of a block. -/
def checkDescriptions (s : Stream) (b : Block) : List Violation :=
  match b.short with
  | none =>
      [.error family "MissingShort" "Missing short description in doc comment" b.opener]
  | some short =>
      spacingBeforeShort s b short ++ shortNotCapital short ++
        (match b.long with
          | some long => spacingBetween s short long ++ longNotCapital long
          | none => []) ++
        checkTags s b

/-- The findings about the markers, descriptions and tags of a block with content. -/
def checkContent (s : Stream) (b : Block) (first : Token) : List Violation :=
  contentAfterOpen s b first ++
    match s.lastBetween (!·.isFiller) b.opener.index b.closer.index with
    | none => []
    | some last => contentBeforeClose s b last ++ spacingAfter s b last ++ checkDescriptions s b

/-- The finding at a star or close marker that starts its line outside the star column. -/
def starViolation? (s : Stream) (b : Block) (t : Token) : Option Violation :=
  match s.lineIndent? t.index with
  | none => none
  | some indent =>
      if t.column = b.starColumn s then none
      else
        let message := "Expected " ++ toString (b.starColumn s - 1) ++
          " spaces before asterisk; " ++ toString (t.column - 1) ++ " found"
        let padding := b.starIndent s
        let fix := match indent with
          | some blank => Changeset.empty.replace blank padding
          | none => Changeset.empty.prepend t padding
        some (.fixed family "SpaceBeforeStar" message t fix)

/-- All stars, and the close marker, stand in the star column. -/
def spaceBeforeStar (s : Stream) (b : Block) : List Violation :=
  ((s.between (b.opener.index + 1) (b.closer.index + 1)).filter fun t =>
    t.kind == .docStar || t.kind == .docClose).filterMap (starViolation? s b)

/-- The layout findings of a block, in the order of the rules. -/
def check (s : Stream) (b : Block) : List Violation :=
  match b.first with
  | none => [.error family "Empty" "Doc comment is empty" b.opener]
  | some first => checkContent s b first ++ spaceBeforeStar s b

end PhpDoc.Layout
