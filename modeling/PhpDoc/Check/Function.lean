import PhpDoc.Check.Basic

/-!
# Checking the comment of a function

The comment of a function is checked in one walk over the session: the lines behind it, the cross
references, the parameters, the returned type and the exceptions. The parameter tags are read first,
and what they lack is reported while they are read. The columns of types and names are those of all
tags, so they are known only after that.
-/

namespace PhpDoc.Check

open Text FunctionRule

/-! ## Parameters -/

/-- The parts that a parameter tag lacks. -/
def missingParts (p : ParamTag) : Check Unit :=
  match p.value with
  | none =>
      discard <| report <|
        .error family "MissingParamType" "Missing parameter type" p.tag.token
  | some value =>
      match value.var, value.description with
      | none, _ =>
          discard <| report <|
            .error family "MissingParamName" "Missing parameter name" p.tag.token
      | some _, none =>
          discard <| report <|
            .error family "MissingParamComment" "Missing parameter comment" p.tag.token
      | some _, some _ => pure ()

/-- The parameter tags that were read, and the lengths of the longest type and the longest name. -/
structure ParamTable where
  tags : List ParamTag
  longestType : Nat
  longestVar : Nat

/-- The table with one more tag. -/
def ParamTable.add (table : ParamTable) (p : ParamTag) : ParamTable :=
  ⟨table.tags ++ [p], max table.longestType p.type.length, max table.longestVar p.var.length⟩

/-- Read tags into the table. -/
def readParams (table : ParamTable) : List Tag → Check ParamTable
  | [] => pure table
  | t :: ts => do
      let s ← stream
      let p := ParamTag.ofTag s t
      missingParts p
      readParams (table.add p) ts

/-- The change that gives a parameter tag a new value and moves the lines that continue it. -/
def respace (p : ParamTag) (content : String) (required found : Int) : Check Changeset := do
  let s ← stream
  match p.tag.value with
  | none => return Changeset.empty
  | some value =>
      let blanks := p.more.filterMap (ParamTag.indentToken? s)
      return blanks.foldl
        (fun change blank =>
          change.replace blank (spaces (shiftedIndent blank.text.length required found).toNat))
        (Changeset.empty.replace value content)

/-- The declared type of a parameter whose documented type is spelled well. -/
def hint (f : Function) (p : ParamTag) (declared : Parameter) : Check Unit := do
  let config ← config
  let suggested := TypeName.hint config.scalarHints p.type
  let label := if p.var.isEmpty then declared.name else p.var
  if !suggested.isEmpty && declared.type.isEmpty then
    let message := "Type hint \"" ++ suggested ++ "\" missing for " ++ label
    if TypeName.scalars.contains suggested then
      discard <| report <| .warning family "ScalarTypeHintMissing" message f.token
    else discard <| report <| .error family "TypeHintMissing" message f.token
  else if !suggested.isEmpty && !TypeName.hintMatches declared.type suggested then
    discard <| report <|
      .error family "IncorrectTypeHint"
        ("Expected type hint \"" ++ suggested ++ "\"; found \"" ++ declared.type ++ "\" for " ++
          label) f.token
  else if suggested.isEmpty && !declared.type.isEmpty then
    discard <| report <|
      .error family "InvalidTypeHint"
        ("Unknown type hint \"" ++ declared.type ++ "\" found for " ++ label) f.token
  else pure ()

/-- The type of a parameter tag. -/
def paramType (f : Function) (p : ParamTag) (declared : Option Parameter) : Check Unit :=
  let normalized := TypeName.normalize p.type
  match p.tag.value with
  | none => pure ()
  | some value =>
      if normalized != p.type then
        discard <| report <|
          .fixed family "IncorrectParamVarName"
            ("Expected \"" ++ normalized ++ "\" but found \"" ++ p.type ++
              "\" for parameter type") p.tag.token (retype value p.type normalized)
      else if contains "|" normalized then pure ()
      else
        match declared with
        | none => pure ()
        | some declared => hint f p declared

/-- The padding behind the type of a parameter tag. -/
def spacingAfterType (longest : Nat) (p : ParamTag) : Check Unit := do
  let required := requiredPadding longest p.type.length
  let fix ← respace p (p.render p.type required.toNat p.varSpace) required p.typeSpace
  reportWhen (p.typeSpace != required) <|
    .fixed family "SpacingAfterParamType"
      ("Expected " ++ toString required ++ " spaces after parameter type; " ++
        toString p.typeSpace ++ " found") p.tag.token fix

/-- The name in a parameter tag against the declared one. -/
def name (p : ParamTag) (declared : Parameter) : Check Unit :=
  let name := declared.documentedName
  if name = p.var then pure ()
  else if lower name = lower p.var then
    discard <| report <|
      .error family "ParamNameNoCaseMatch"
        ("Doc comment for parameter " ++ p.var ++ " does not match case of actual variable name " ++
          name) p.tag.token
  else
    discard <| report <|
      .error family "ParamNameNoMatch"
        ("Doc comment for parameter " ++ p.var ++ " does not match actual variable name " ++ name)
        p.tag.token

/-- The declared parameter at the place of a parameter tag. -/
def counterpart (p : ParamTag) (declared : Option Parameter) : Check Unit :=
  match declared with
  | some parameter => name p parameter
  | none =>
      reportWhen (!endsWith ",..." p.var) <|
        .error family "ExtraParamComment" "Superfluous parameter comment" p.tag.token

/-- The padding behind the name in a parameter tag. -/
def spacingAfterName (longest : Nat) (p : ParamTag) : Check Unit := do
  let required := requiredPadding longest p.var.length
  let fix ← respace p (p.render p.type p.typeSpace required.toNat) required p.varSpace
  reportWhen (p.varSpace != required) <|
    .fixed family "SpacingAfterParamName"
      ("Expected " ++ toString required ++ " spaces after parameter name; " ++
        toString p.varSpace ++ " found") p.tag.token fix

/-- The description in a parameter tag, if it has one. -/
def paramDescription (longest : Nat) (p : ParamTag) : Check Unit :=
  if p.comment.isEmpty then pure ()
  else do
    spacingAfterName longest p
    reportWhen (startsLower p.comment) <|
      .error family "ParamCommentNotCapital" "Parameter comment must start with a capital letter"
        p.tag.token
    reportWhen (!endsWith "." p.comment) <|
      .error family "ParamCommentFullStop" "Parameter comment must end with a full stop"
        p.tag.token

/-- A parameter tag, of which `declared` is the parameter at the same place. The answer is the name
in the tag, if it has one. -/
def param (f : Function) (table : ParamTable) (p : ParamTag) (declared : Option Parameter) :
    Check (Option String) :=
  if p.type.isEmpty then pure none
  else do
    paramType f p declared
    if p.var.isEmpty then pure none
    else do
      spacingAfterType table.longestType p
      counterpart p declared
      paramDescription table.longestVar p
      pure (some p.var)

/-- The parameter tags with their places. The answer is `found` with the names in the tags. -/
def params (f : Function) (table : ParamTable) (found : List String) :
    List (ParamTag × Nat) → Check (List String)
  | [] => pure found
  | (p, place) :: ps => do
      let name ← param f table p f.parameters[place]?
      params f table (found ++ name.toList) ps

/-- The declared parameters without a tag. `named` holds the names that are in a tag or were
reported before. -/
def missingTags (b : Block) (named : List String) : List Parameter → Check Unit
  | [] => pure ()
  | parameter :: rest =>
      let name := parameter.documentedName
      if named.contains name then missingTags b named rest
      else do
        discard <| report <|
          .error family "MissingParamTag" ("Doc comment for parameter \"" ++ name ++ "\" missing")
            b.opener
        missingTags b (name :: named) rest

/-- The parameters of a documented function. -/
def parameters (b : Block) (f : Function) : Check Unit := do
  let table ← readParams ⟨[], 0, 0⟩ (b.tagsNamed "@param")
  let found ← params f table [] table.tags.zipIdx
  missingTags b found f.parameters

/-! ## What a function returns and throws -/

/-- A cross reference that names nothing. -/
def sees (b : Block) : Check Unit :=
  (b.tagsNamed "@see").forM fun t =>
    reportWhen t.value.isNone <|
      .error family "EmptySees" "Content missing for @see tag in function comment" t.token

/-- The first exit of a function with the documented return type. -/
def exit (f : Function) (t : Tag) (type : String) : Check Unit := do
  let s ← stream
  if !f.hasBody || type == "mixed" then pure ()
  else match f.firstExit s with
    | .value _ =>
        reportWhen (type == "void") <|
          .error family "InvalidReturnVoid"
            "Function return type is void, but function contains return statement" t.token
    | .none =>
        reportWhen (type != "void") <|
          .error family "InvalidNoReturn"
            "Function return type is not void, but function has no return statement" t.token
    | .bare exit =>
        reportWhen (type != "void") <|
          .error family "InvalidReturnNotVoid"
            "Function return type is not void, but function is returning void here" exit

/-- The return tag with the value `value`, whose first word is the type. -/
def returnType (f : Function) (t : Tag) (value : Token) : Check Unit := do
  let type := before ' ' value.text
  let suggested := TypeName.normalize type
  reportWhen (suggested != type && suggested != "bool") <|
    .fixed family "InvalidReturn"
      ("Expected \"" ++ suggested ++ "\" but found \"" ++ type ++ "\" for function return type")
      t.token (retype value type suggested)
  exit f t type

/-- The return tag of a function. A second one stops all further checks of it. -/
def returns (b : Block) (f : Function) : Check Unit :=
  match b.tagsNamed "@return" with
  | _ :: second :: _ =>
      discard <| report <|
        .error family "DuplicateReturn" "Only 1 @return tag is allowed in a function comment"
          second.token
  | [] =>
      if f.isSpecial then pure ()
      else
        discard <| report <|
          .error family "MissingReturn" "Missing @return tag in function comment" b.closer
  | [t] =>
      if f.isSpecial then pure ()
      else match t.value with
        | none =>
            discard <| report <|
              .error family "MissingReturnType"
                "Return type missing for @return tag in function comment" t.token
        | some value => returnType f t value

/-- A throws tag that names no exception. -/
def noException (t : Tag) : Check Unit :=
  discard <| report <|
    .error family "InvalidThrows"
      "Exception type and comment missing for @throws tag in function comment" t.token

/-- A throws tag with the value `value`. -/
def thrown (t : Tag) (value : Token) : Check Unit := do
  let s ← stream
  match thrownText? value.text with
  | none => noException t
  | some "" =>
      discard <| report <|
        .error family "EmptyThrows" "Comment missing for @throws tag in function comment" t.token
  | some text =>
      let comment := join " " (text :: (t.continuation s).map (·.text))
      reportWhen (startsLower comment) <|
        .error family "ThrowsNotCapital" "@throws tag comment must start with a capital letter"
          value
      reportWhen (!endsWith "." comment) <|
        .error family "ThrowsNoFullStop" "@throws tag comment must end with a full stop" value

/-- The throws tags of a function. -/
def throws (b : Block) : Check Unit :=
  (b.tagsNamed "@throws").forM fun t =>
    match t.value with
    | none => noException t
    | some value => thrown t value

/-! ## The whole comment -/

/-- Blank lines between a comment and its function. -/
def spacingAfterComment (closer : Token) (f : Function) : Check Unit := do
  let s ← stream
  let following :=
    (s.firstBetween (· != .whitespace) (closer.index + 1) f.token.index).getD f.token
  reportWhen (closer.line + 1 < following.line) <|
    .fixed family "SpacingAfter" "There must be no blank lines after the function comment" closer
      (Changeset.empty.blank
        ((s.between (closer.index + 1) f.token.index).filter fun t =>
          t.kind == .whitespace && closer.line < t.line && t.line < following.line))

/-- The comment of a function, which ends with the marker `closer`. -/
def functionComment (f : Function) (closer : Token) : Check Unit := do
  spacingAfterComment closer f
  let s ← stream
  match s.commentClosedAt? closer.index with
  | none => fail (.unpaired closer)
  | some span =>
      let b := Block.ofSpan s span
      sees b
      parameters b f
      returns b f
      throws b

/-- The named function at a token. -/
def function (t : Token) : Check Unit := do
  let s ← stream
  let f := Function.ofToken s t
  match Preceding.find s FunctionRule.isLead t.index with
  | .other _ =>
      discard <| report <|
        .error family "WrongStyle" "You must use \"/**\" style comments for a function comment" t
  | .none =>
      discard <| report <|
        .error family "Missing" ("Missing doc comment for function " ++ f.name ++ "()") t
  | .doc closer => functionComment f closer

end PhpDoc.Check
