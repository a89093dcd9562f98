import PhpDoc.Comment.ParamTag
import PhpDoc.Declaration.Function
import PhpDoc.Rule.Violation
import PhpDoc.TypeName

/-!
# Parameters of documented functions

Parameter tags are compared with the declared parameters by position: types are spelled in the
preferred way and agree with the declaration, names match, types and names are padded to columns,
and every description is a sentence. Declared parameters without a tag are reported at the end.
-/

namespace PhpDoc.FunctionRule

open Text

/-- The name of the family of rules for functions. -/
def family : String := "FunctionComment"

/-- The parts that a parameter tag lacks. -/
def missingParts (p : ParamTag) : List Violation :=
  match p.value with
  | none => [.error family "MissingParamType" "Missing parameter type" p.tag.token]
  | some value =>
      match value.var, value.description with
      | none, _ => [.error family "MissingParamName" "Missing parameter name" p.tag.token]
      | some _, none =>
          [.error family "MissingParamComment" "Missing parameter comment" p.tag.token]
      | some _, some _ => []

/-- The change that gives a parameter tag a new value and moves the continuation lines with the
padding. -/
def respace (s : Stream) (p : ParamTag) (content : String) (required found : Int) : Changeset :=
  match p.tag.value with
  | none => Changeset.empty
  | some value =>
      (p.more.filterMap (ParamTag.indentToken? s)).foldl
        (fun change blank =>
          change.replace blank
            (spaces (shiftedIndent blank.text.length required found).toNat))
        (Changeset.empty.replace value content)

/-- The change that puts another type in front of the rest of a value. -/
def retype (value : Token) (old new : String) : Changeset :=
  Changeset.empty.replace value (new ++ dropChars old.length value.text)

/-- The findings about the declared type of a parameter whose documented type is spelled well. -/
def checkHint (scalarHints : Bool) (f : Function) (p : ParamTag) (declared : Parameter) :
    List Violation :=
  let suggested := TypeName.hint scalarHints p.type
  let label := if p.var.isEmpty then declared.name else p.var
  if !suggested.isEmpty && declared.type.isEmpty then
    let message := "Type hint \"" ++ suggested ++ "\" missing for " ++ label
    if TypeName.scalars.contains suggested then
      [.warning family "ScalarTypeHintMissing" message f.token]
    else [.error family "TypeHintMissing" message f.token]
  else if !suggested.isEmpty && !TypeName.hintMatches declared.type suggested then
    [.error family "IncorrectTypeHint"
      ("Expected type hint \"" ++ suggested ++ "\"; found \"" ++ declared.type ++ "\" for " ++
        label) f.token]
  else if suggested.isEmpty && !declared.type.isEmpty then
    [.error family "InvalidTypeHint"
      ("Unknown type hint \"" ++ declared.type ++ "\" found for " ++ label) f.token]
  else []

/-- The findings about the type of a parameter tag. Unions are not compared with the declaration. -/
def checkType (scalarHints : Bool) (f : Function) (p : ParamTag) (declared : Option Parameter) :
    List Violation :=
  let normalized := TypeName.normalize p.type
  match p.tag.value with
  | none => []
  | some value =>
      if normalized != p.type then
        [.fixed family "IncorrectParamVarName"
          ("Expected \"" ++ normalized ++ "\" but found \"" ++ p.type ++ "\" for parameter type")
          p.tag.token (retype value p.type normalized)]
      else if contains "|" normalized then []
      else declared.elim [] (checkHint scalarHints f p)

/-- The type of a parameter tag is padded to the longest type. -/
def spacingAfterType (s : Stream) (longest : Nat) (p : ParamTag) : List Violation :=
  let required := requiredPadding longest p.type.length
  report (p.typeSpace != required) <|
    .fixed family "SpacingAfterParamType"
      ("Expected " ++ toString required ++ " spaces after parameter type; " ++
        toString p.typeSpace ++ " found") p.tag.token
      (respace s p (p.render p.type required.toNat p.varSpace) required p.typeSpace)

/-- The name in a parameter tag is the name of the parameter. -/
def checkName (p : ParamTag) (declared : Parameter) : List Violation :=
  let name := declared.documentedName
  if name = p.var then []
  else if lower name = lower p.var then
    [.error family "ParamNameNoCaseMatch"
      ("Doc comment for parameter " ++ p.var ++ " does not match case of actual variable name " ++
        name) p.tag.token]
  else
    [.error family "ParamNameNoMatch"
      ("Doc comment for parameter " ++ p.var ++ " does not match actual variable name " ++ name)
      p.tag.token]

/-- The name in a parameter tag belongs to a declared parameter. -/
def checkCounterpart (p : ParamTag) (declared : Option Parameter) : List Violation :=
  match declared with
  | some parameter => checkName p parameter
  | none =>
      report (!endsWith ",..." p.var) <|
        .error family "ExtraParamComment" "Superfluous parameter comment" p.tag.token

/-- The name in a parameter tag is padded to the longest name. -/
def spacingAfterName (s : Stream) (longest : Nat) (p : ParamTag) : List Violation :=
  let required := requiredPadding longest p.var.length
  report (p.varSpace != required) <|
    .fixed family "SpacingAfterParamName"
      ("Expected " ++ toString required ++ " spaces after parameter name; " ++
        toString p.varSpace ++ " found") p.tag.token
      (respace s p (p.render p.type p.typeSpace required.toNat) required p.varSpace)

/-- The description in a parameter tag is a sentence in its column. -/
def checkDescription (s : Stream) (longest : Nat) (p : ParamTag) : List Violation :=
  if p.comment.isEmpty then []
  else
    spacingAfterName s longest p ++
      (report (startsLower p.comment) <|
        .error family "ParamCommentNotCapital" "Parameter comment must start with a capital letter"
          p.tag.token) ++
      (report (!endsWith "." p.comment) <|
        .error family "ParamCommentFullStop" "Parameter comment must end with a full stop"
          p.tag.token)

/-- The findings at one parameter tag with its counterpart among the declared parameters. -/
def checkParam (scalarHints : Bool) (s : Stream) (f : Function) (ps : List ParamTag)
    (p : ParamTag) (declared : Option Parameter) : List Violation :=
  if p.type.isEmpty then []
  else
    checkType scalarHints f p declared ++
      if p.var.isEmpty then []
      else
        spacingAfterType s (ParamTag.longestType ps) p ++ checkCounterpart p declared ++
          checkDescription s (ParamTag.longestVar ps) p

/-- The declared parameters that no tag names, each name once. -/
def missingTags (b : Block) (f : Function) (ps : List ParamTag) : List Violation :=
  let found := (ps.filter (!·.type.isEmpty)).map (·.var) |>.filter (!·.isEmpty)
  ((f.parameters.map (·.documentedName)).filter (!found.contains ·)).eraseDups.map fun name =>
    .error family "MissingParamTag" ("Doc comment for parameter \"" ++ name ++ "\" missing")
      b.opener

/-- The findings about the parameters of a documented function. -/
def checkParams (scalarHints : Bool) (s : Stream) (b : Block) (f : Function) : List Violation :=
  let ps := b.paramTags s
  ps.flatMap missingParts ++
    (ps.zipIdx.flatMap fun (p, i) => checkParam scalarHints s f ps p f.parameters[i]?) ++
    missingTags b f ps

end PhpDoc.FunctionRule
