import PhpDoc.Comment.Preceding
import PhpDoc.Declaration.Property
import PhpDoc.Rule.Param

/-!
# Documented member variables

The comment of a member variable holds a `@var` tag with the type, as its first tag and only once.
Apart from it only cross references are at home there.
-/

namespace PhpDoc.PropertyRule

open Text

/-- The name of the family of rules for member variables. -/
def family : String := "VariableComment"

/-- The tag that documents the type of a member variable. -/
def varTag : String := "@var"

/-- The finding at a tag other than the first `@var` tag. -/
def checkTag (t : Tag) : List Violation :=
  if t.name = varTag then
    [.error family "DuplicateVar" "Only one @var tag is allowed in a member variable comment"
      t.token]
  else if t.name = "@see" then
    report t.value.isNone <|
      .error family "EmptySees" "Content missing for @see tag in member variable comment" t.token
  else
    [.warning family "TagNotAllowed" (t.name ++ " tag is not allowed in member variable comment")
      t.token]

/-- The tags without the first `@var` tag. -/
def otherTags : List Tag → List Tag
  | [] => []
  | t :: ts => if t.name = varTag then ts else t :: otherTags ts

/-- The findings about the value of the `@var` tag, whose first word is the type. -/
def checkVarType (value : Token) : List Violation :=
  let type := before ' ' value.text
  let suggested := TypeName.normalize type
  report (suggested != type) <|
    .fixed family "IncorrectVarType"
      ("Expected \"" ++ suggested ++ "\" but found \"" ++ type ++
        "\" for @var tag in member variable comment")
      value (FunctionRule.retype value type suggested)

/-- The findings about the first `@var` tag. -/
def checkVar (b : Block) (t : Tag) : List Violation :=
  (report (b.tags.head?.map (·.name) != some varTag) <|
    .error family "VarOrder" "The @var tag must be the first tag in a member variable comment"
      t.token) ++
    match t.value with
    | none =>
        [.error family "EmptyVar" "Content missing for @var tag in member variable comment" t.token]
    | some value => checkVarType value

/-- The findings about the comment of a member variable. -/
def checkComment (s : Stream) (span : CommentSpan) : List Violation :=
  let b := Block.ofSpan s span
  (otherTags b.tags).flatMap checkTag ++
    match b.tags.find? (·.name == varTag) with
    | none =>
        [.error family "MissingVar" "Missing @var tag in member variable comment" b.closer]
    | some t => checkVar b t

/-- What may stand between a member variable and its comment: white space, modifiers and a type. -/
def isLead (t : Token) : Bool :=
  t.kind == .whitespace || t.kind == .modifier || t.kind == .varWord || Parameter.isTypePart t

end PhpDoc.PropertyRule
