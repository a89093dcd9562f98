import PhpDoc.Comment.Preceding
import PhpDoc.Rule.Param

/-!
# Documented functions

Every named function has a doc comment right in front of it. The comment is checked for its place
and its cross references, then its parameters, its return type against the first exit of the body,
and the exceptions that it announces.
-/

namespace PhpDoc.FunctionRule

open Text

/-- A cross reference names something. -/
def checkSees (b : Block) : List Violation :=
  (b.tagsNamed "@see").flatMap fun t =>
    report t.value.isNone <|
      .error family "EmptySees" "Content missing for @see tag in function comment" t.token

/-- The findings about the first exit of a function with the documented return type. -/
def checkExit (s : Stream) (f : Function) (t : Tag) (type : String) : List Violation :=
  if !f.hasBody || type == "mixed" then []
  else match f.firstExit s with
    | .value _ =>
        report (type == "void") <|
          .error family "InvalidReturnVoid"
            "Function return type is void, but function contains return statement" t.token
    | .none =>
        report (type != "void") <|
          .error family "InvalidNoReturn"
            "Function return type is not void, but function has no return statement" t.token
    | .bare exit =>
        report (type != "void") <|
          .error family "InvalidReturnNotVoid"
            "Function return type is not void, but function is returning void here" exit

/-- The findings about the return tag with the value `value`, whose first word is the type. -/
def checkReturnType (s : Stream) (f : Function) (t : Tag) (value : Token) : List Violation :=
  let type := before ' ' value.text
  let suggested := TypeName.normalize type
  (report (suggested != type && suggested != "bool") <|
    .fixed family "InvalidReturn"
      ("Expected \"" ++ suggested ++ "\" but found \"" ++ type ++ "\" for function return type")
      t.token (retype value type suggested)) ++
    checkExit s f t type

/-- The findings about the return tag of a documented function. Constructors and destructors need
none, and a second one stops all further checks. -/
def checkReturn (s : Stream) (b : Block) (f : Function) : List Violation :=
  match b.tagsNamed "@return" with
  | _ :: second :: _ =>
      [.error family "DuplicateReturn" "Only 1 @return tag is allowed in a function comment"
        second.token]
  | tags =>
      if f.isSpecial then []
      else match tags with
        | [] =>
            [.error family "MissingReturn" "Missing @return tag in function comment" b.closer]
        | t :: _ =>
            match t.value with
            | none =>
                [.error family "MissingReturnType"
                  "Return type missing for @return tag in function comment" t.token]
            | some value => checkReturnType s f t value

/-- The description after the exception in the value of a throws tag, `none` when the value does not
start with an exception. -/
def thrownText? (value : String) : Option String :=
  let cs := value.toList
  match cs.takeWhile (!isSpace ·) with
  | [] => none
  | exception =>
      some (strip (String.ofList
        (((cs.drop exception.length).dropWhile isSpace).takeWhile (· != '\n'))))

/-- The findings about a throws tag with the value `value`. -/
def checkThrown (s : Stream) (t : Tag) (value : Token) : List Violation :=
  match thrownText? value.text with
  | none =>
      [.error family "InvalidThrows"
        "Exception type and comment missing for @throws tag in function comment" t.token]
  | some "" =>
      [.error family "EmptyThrows" "Comment missing for @throws tag in function comment" t.token]
  | some text =>
      let comment := join " " (text :: (t.continuation s).map (·.text))
      (report (startsLower comment) <|
        .error family "ThrowsNotCapital" "@throws tag comment must start with a capital letter"
          value) ++
      (report (!endsWith "." comment) <|
        .error family "ThrowsNoFullStop" "@throws tag comment must end with a full stop" value)

/-- The findings about the throws tags of a documented function. -/
def checkThrows (s : Stream) (b : Block) : List Violation :=
  (b.tagsNamed "@throws").flatMap fun t =>
    match t.value with
    | none =>
        [.error family "InvalidThrows"
          "Exception type and comment missing for @throws tag in function comment" t.token]
    | some value => checkThrown s t value

/-- No blank line stands between the comment and what follows it. -/
def spacingAfterComment (s : Stream) (closer : Token) (f : Function) : List Violation :=
  let following :=
    (s.firstBetween (· != .whitespace) (closer.index + 1) f.token.index).getD f.token
  report (closer.line + 1 < following.line) <|
    .fixed family "SpacingAfter" "There must be no blank lines after the function comment" closer
      (Changeset.empty.blank
        ((s.between (closer.index + 1) f.token.index).filter fun t =>
          t.kind == .whitespace && closer.line < t.line && t.line < following.line))

/-- The findings about the comment of a function that ends with the marker `closer`. -/
def checkComment (scalarHints : Bool) (s : Stream) (f : Function) (closer : Token)
    (span : CommentSpan) : List Violation :=
  let b := Block.ofSpan s span
  spacingAfterComment s closer f ++ checkSees b ++ checkParams scalarHints s b f ++
    checkReturn s b f ++ checkThrows s b

/-- What may stand between a function and its comment: white space and modifiers. -/
def isLead (t : Token) : Bool :=
  t.kind == .whitespace || t.kind == .modifier

end PhpDoc.FunctionRule
