import PhpDoc.Declaration.Parameter

/-!
# Member variables

A variable declares a property of a class when it stands directly in the braces of a class,
interface or trait, outside all parentheses, and a modifier or `var` introduces it, with at most a
type in between.
-/

namespace PhpDoc

/-- Whether the token may stand between a modifier and the property that it introduces. -/
def isPropertyLead (t : Token) : Bool :=
  t.kind.isTrivia || Parameter.isTypePart t

/-- Whether the token at index `i` stands directly in the braces of a class-like declaration. -/
def Stream.inClass (s : Stream) (i : Nat) : Bool :=
  match (s.owner? i).bind s.get? with
  | some owner => owner.kind.isClassLike
  | none => false

/-- Whether the token declares a member variable. -/
def Stream.isProperty (s : Stream) (t : Token) : Bool :=
  t.kind == .variable && !s.inParentheses t.index && s.inClass t.index &&
    match (s.between 0 t.index).reverse.find? (!isPropertyLead ·) with
    | some lead => lead.kind == .modifier || lead.kind == .varWord
    | none => false

end PhpDoc
