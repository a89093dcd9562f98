import PhpDoc.Comment.Group
import PhpDoc.Text.Cut

/-!
# Parameter tags

The value of a parameter tag is a type, a variable and a description. The type ends at white space
or at the sigil of the variable, but an `array(…)` shape in it may hold anything except parentheses.
The variable is a dollar sign or an ampersand, with three dots in front of it for a variadic
parameter, and everything up to the next white space. Variable and description may be missing.
-/

namespace PhpDoc

/-- The description of a documented parameter and the width of the white space in front of it. -/
structure ParamText where
  space : Nat
  text : String
  deriving DecidableEq, Repr, Inhabited

/-- The value of a parameter tag taken apart. -/
structure ParamValue where
  type : String
  typeSpace : Nat
  var : Option String
  description : Option ParamText
  deriving DecidableEq, Repr, Inhabited

namespace ParamValue

open Text

/-- The sigils that start a variable. -/
def isSigil (c : Char) : Bool :=
  c = '$' || c = '&'

/-- The width of the `array(…)` shape that starts the text, if one does. -/
def shapeWidth? (cs : List Char) : Option Nat :=
  if startsWith "array(" cs then
    let inner := (cs.drop 6).takeWhile fun c => c != '(' && c != ')'
    if startsWith ")" (cs.drop (6 + inner.length)) then some (inner.length + 7) else none
  else none

/-- The width of the type that starts the text. -/
def typeWidth : List Char → Nat
  | [] => 0
  | c :: rest =>
      match shapeWidth? (c :: rest) with
      | some width => width + typeWidth (rest.drop (width - 1))
      | none =>
          if startsWith "..." (c :: rest) || isSpace c || isSigil c then 0 else 1 + typeWidth rest
  termination_by cs => cs.length
  decreasing_by all_goals (simp only [List.length_drop, List.length_cons]; omega)

/-- The width of the variable that starts the text, if one does. -/
def varWidth? (cs : List Char) : Option Nat :=
  let dots := if startsWith "..." cs then 3 else 0
  match cs.drop dots with
  | sigil :: rest =>
      match rest.takeWhile (!isSpace ·) with
      | [] => none
      | name => if isSigil sigil then some (dots + 1 + name.length) else none
  | [] => none

/-- The description after a variable, if white space divides it from the variable. It ends with its
line. -/
def description? (cs : List Char) : Option ParamText :=
  match cs.takeWhile isSpace with
  | [] => none
  | space =>
      some ⟨space.length, String.ofList ((cs.drop space.length).takeWhile (· != '\n'))⟩

/-- The parts of the value of a parameter tag, if it starts with a type. -/
def parse? (value : String) : Option ParamValue :=
  let cs := value.toList
  match typeWidth cs with
  | 0 => none
  | width =>
      let rest := cs.drop width
      let space := rest.takeWhile isSpace
      let tail := rest.drop space.length
      let type := String.ofList (cs.take width)
      match varWidth? tail with
      | none => some ⟨type, space.length, none, none⟩
      | some n =>
          some ⟨type, space.length, some (String.ofList (tail.take n)), description? (tail.drop n)⟩

end ParamValue

/-- A parameter tag with its parsed value and the strings that continue its description. -/
structure ParamTag where
  tag : Tag
  value : Option ParamValue
  more : List Token
  deriving DecidableEq, Repr, Inhabited

namespace ParamTag

/-- The parameter tag of a tag. Only a description is continued on later lines. -/
def ofTag (s : Stream) (t : Tag) : ParamTag :=
  match t.value.bind fun v => ParamValue.parse? v.text with
  | none => ⟨t, none, []⟩
  | some value => ⟨t, some value, if value.description.isSome then t.continuation s else []⟩

/-- The documented type, empty when it is missing. -/
def type (p : ParamTag) : String := p.value.elim "" (·.type)

/-- The width of the white space after the type. -/
def typeSpace (p : ParamTag) : Nat := p.value.elim 0 (·.typeSpace)

/-- The documented variable, empty when it is missing. -/
def var (p : ParamTag) : String := (p.value.bind (·.var)).getD ""

/-- The description that starts on the line of the tag. -/
def description (p : ParamTag) : Option ParamText := p.value.bind (·.description)

/-- The width of the white space after the variable. -/
def varSpace (p : ParamTag) : Nat := p.description.elim 0 (·.space)

/-- The first line of the description. -/
def firstLine (p : ParamTag) : String := p.description.elim "" (·.text)

/-- The whole description, its lines joined by single spaces. -/
def comment (p : ParamTag) : String :=
  p.description.elim "" fun d => Text.join " " (d.text :: p.more.map (·.text))

/-- The blank in front of a continuation line. -/
def indentToken? (s : Stream) (line : Token) : Option Token :=
  match s.before? line.index with
  | some t => if t.kind == .docBlank && !Text.endsLine t.text then some t else none
  | none => none

/-- The value of the tag with the given type and spacing. -/
def render (p : ParamTag) (type : String) (typeSpace varSpace : Nat) : String :=
  type ++ Text.spaces typeSpace ++ p.var ++ Text.spaces varSpace ++ p.firstLine

/-- The length of the longest type among the tags. -/
def longestType (ps : List ParamTag) : Nat :=
  (ps.map (·.type.length)).foldl max 0

/-- The length of the longest variable among the tags. -/
def longestVar (ps : List ParamTag) : Nat :=
  (ps.map (·.var.length)).foldl max 0

end ParamTag

/-- The parameter tags of a block, in order. -/
def Block.paramTags (s : Stream) (b : Block) : List ParamTag :=
  (b.tagsNamed "@param").map (ParamTag.ofTag s)

end PhpDoc
