import PhpDoc.Token.Stream

/-!
# The comment in front of a declaration

The comment of a declaration stands in front of it with nothing between the two but white space,
modifiers, types and attribute groups.
-/

namespace PhpDoc

/-- What stands in front of a declaration: the close marker of a doc comment, another comment, or
no comment. -/
inductive Preceding where
  | doc (closer : Token)
  | other (comment : Token)
  | none
  deriving DecidableEq, Repr, Inhabited

namespace Preceding

/-- The index of the mark of the attribute group that the token closes, if it closes one. -/
def attributeStart? (s : Stream) (t : Token) : Option Nat :=
  if t.kind == .closeSquare then
    match s.partner? t.index with
    | some opener =>
        match s.before? opener with
        | some mark => if mark.kind == .attributeMark then some mark.index else Option.none
        | Option.none => Option.none
    | Option.none => Option.none
  else Option.none

/-- What a token in front of a declaration is. -/
def ofToken (t : Token) : Preceding :=
  match t.kind with
  | .docClose => .doc t
  | .comment => .other t
  | _ => .none

/-- The comment right before index `n`. Tokens with the property `skip` and attribute groups may
stand in between. -/
def find (s : Stream) (skip : Token → Bool) : Nat → Preceding
  | 0 => .none
  | n + 1 =>
      match s.get? n with
      | Option.none => .none
      | some t =>
          if skip t then find s skip n
          else match attributeStart? s t with
            | some mark => if mark ≤ n then find s skip mark else .none
            | Option.none => ofToken t
  termination_by n => n

end Preceding

end PhpDoc
