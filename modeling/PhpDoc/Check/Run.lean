import PhpDoc.Check.Function
import PhpDoc.Check.Layout

/-!
# Sessions over a stream

A session over a stream checks its tokens one after the other: the layout of a doc comment at its
open marker, the comment of a function at its keyword, and the comment of a member variable at the
variable. All of it works on one session.
-/

namespace PhpDoc

namespace Check

open Text

/-! ## Member variables -/

/-- The first `@var` tag of the tags, where `var` was found among the tags before. All other tags
are checked for being at home in the comment of a member variable. -/
def varTag (var : Option Tag) : List Tag → Check (Option Tag)
  | [] => pure var
  | t :: ts =>
      if t.name = PropertyRule.varTag then
        match var with
        | none => varTag (some t) ts
        | some var => do
            discard <| report <|
              .error PropertyRule.family "DuplicateVar"
                "Only one @var tag is allowed in a member variable comment" t.token
            varTag (some var) ts
      else if t.name = "@see" then do
        reportWhen t.value.isNone <|
          .error PropertyRule.family "EmptySees"
            "Content missing for @see tag in member variable comment" t.token
        varTag var ts
      else do
        discard <| report <|
          .warning PropertyRule.family "TagNotAllowed"
            (t.name ++ " tag is not allowed in member variable comment") t.token
        varTag var ts

/-- The value of the `@var` tag, whose first word is the type. -/
def varType (value : Token) : Check Unit :=
  let type := before ' ' value.text
  let suggested := TypeName.normalize type
  reportWhen (suggested != type) <|
    .fixed PropertyRule.family "IncorrectVarType"
      ("Expected \"" ++ suggested ++ "\" but found \"" ++ type ++
        "\" for @var tag in member variable comment")
      value (FunctionRule.retype value type suggested)

/-- The first `@var` tag of a block. -/
def var (b : Block) (t : Tag) : Check Unit := do
  reportWhen (b.tags.head?.map (·.name) != some PropertyRule.varTag) <|
    .error PropertyRule.family "VarOrder"
      "The @var tag must be the first tag in a member variable comment" t.token
  match t.value with
  | none =>
      discard <| report <|
        .error PropertyRule.family "EmptyVar"
          "Content missing for @var tag in member variable comment" t.token
  | some value => varType value

/-- The comment of a member variable. -/
def propertyComment (closer : Token) : Check Unit := do
  let s ← stream
  match s.commentClosedAt? closer.index with
  | none => fail (.unpaired closer)
  | some span =>
      let b := Block.ofSpan s span
      match ← varTag none b.tags with
      | none =>
          discard <| report <|
            .error PropertyRule.family "MissingVar"
              "Missing @var tag in member variable comment" b.closer
      | some t => var b t

/-- The member variable at a token. -/
def property (t : Token) : Check Unit := do
  let s ← stream
  match Preceding.find s PropertyRule.isLead t.index with
  | .other _ =>
      discard <| report <|
        .error PropertyRule.family "WrongStyle"
          "You must use \"/**\" style comments for a member variable comment" t
  | .none =>
      discard <| report <|
        .error PropertyRule.family "Missing" "Missing member variable doc comment" t
  | .doc closer => propertyComment closer

/-! ## The tokens of a stream -/

/-- The doc comment at its open marker. -/
def comment (t : Token) : Check Unit := do
  let s ← stream
  match s.commentAt? t.index with
  | none => fail (.unpaired t)
  | some span => layout (Block.ofSpan s span)

/-- What there is to check at a token. -/
def token (t : Token) : Check Unit := do
  let s ← stream
  match t.kind with
  | .docOpen => comment t
  | .function => function t
  | .variable => if s.isProperty t then property t else pure ()
  | _ => pure ()

end Check

/-- The session over all tokens of a stream, from an empty record on. -/
def Session.run (config : Config) (s : Stream) (fixer : Option Fixer) :
    Except SessionError Session :=
  ((s.tokens.toList.forM Check.token).run ⟨s, config, [], fixer⟩).map (·.2)

end PhpDoc
