import PhpDoc.Text.Cut
import PhpDoc.Token.Stream

/-!
# Parameters of a declaration

The parameter list of a function is cut at the commas outside all inner brackets. A part declares a
parameter when it has a variable before its default value.
-/

namespace PhpDoc

/-- A parameter as it is declared. -/
structure Parameter where
  name : String
  type : String
  variadic : Bool
  byReference : Bool
  default : Option String
  deriving DecidableEq, Repr, Inhabited

namespace Parameter

/-- The name under which a parameter tag documents the parameter. -/
def documentedName (p : Parameter) : String :=
  if p.variadic then "..." ++ p.name else p.name

/-- The change of bracket depth at a token of this kind. -/
def depthChange (k : Kind) : Int :=
  if k.opens?.isSome then 1 else if k.closes?.isSome then -1 else 0

/-- The parts of the tokens between the commas at depth zero, when the first token stands at the
given depth. -/
def parts (depth : Int) : List Token → List (List Token)
  | [] => [[]]
  | t :: ts =>
      if t.kind == .comma && depth == 0 then [] :: parts depth ts
      else match parts (depth + depthChange t.kind) ts with
        | [] => [[t]]
        | part :: rest => (t :: part) :: rest

/-- Whether the token belongs to a declared type: a name, a question mark or a union bar. -/
def isTypePart (t : Token) : Bool :=
  t.kind == .name || t.kind == .questionMark || t.text == "|"

/-- The default value of a part: what follows its first equals sign. -/
def default? (part : List Token) : Option String :=
  match part.dropWhile (·.kind != .equal) with
  | [] => none
  | _ :: value => some (Text.strip (Token.textOf value))

/-- The parameter that a part of a parameter list declares. Type and flags are read from the tokens
before the name. -/
def ofPart? (part : List Token) : Option Parameter :=
  let head := part.takeWhile (·.kind != .equal)
  match head.dropWhile (·.kind != .variable) with
  | [] => none
  | found :: _ =>
      let lead := head.takeWhile (·.kind != .variable)
      some
        { name := found.text
          type := Token.textOf (lead.filter isTypePart)
          variadic := lead.any (·.kind == .ellipsis)
          byReference := lead.any (·.kind == .ampersand)
          default := default? part }

end Parameter

/-- The parameters of the function or closure at index `i`, in order. -/
def Stream.parameters (s : Stream) (i : Nat) : List Parameter :=
  match (s.scope i).parenOpener, (s.scope i).parenCloser with
  | some opener, some closer =>
      (Parameter.parts 0 (s.between (opener + 1) closer)).filterMap Parameter.ofPart?
  | _, _ => []

end PhpDoc
