/-!
# Path patterns

A pattern matches a whole path. A star matches any text, slashes included, and a question mark any
character. A set in brackets lists characters and ranges, and an exclamation mark in front negates
it; a bracket that is never closed, like every other character, matches itself. A dash makes a range
of the characters around it unless it stands at an end of the set or right behind a range. A range
whose ends are in the wrong order holds nothing, and the set is read as if it were not there.
-/

namespace PhpDoc

/-- A character or a range of characters in a set. -/
inductive SetItem where
  | single (c : Char)
  | range (low high : Char)
  deriving DecidableEq, Repr, Inhabited

/-- Whether the item holds the character `c`. -/
def SetItem.holds (c : Char) : SetItem → Bool
  | single d => c == d
  | range low high => low ≤ c && c ≤ high

/-- One part of a pattern. -/
inductive GlobPart where
  | star
  | any
  | char (c : Char)
  | set (negated : Bool) (items : List SetItem)
  deriving DecidableEq, Repr, Inhabited

namespace Glob

/-- The items of a set. -/
def items : List Char → List SetItem
  | low :: '-' :: high :: rest => .range low high :: items rest
  | c :: rest => .single c :: items rest
  | [] => []

/-- The text of a set after its opening bracket, up to the closing one, and the pattern after it. A
closing bracket in the first place belongs to the set. -/
def splitSet? (cs : List Char) : Option (List Char × List Char) :=
  let lead := match cs with
    | '!' :: ']' :: _ => 2
    | '!' :: _ => 1
    | ']' :: _ => 1
    | _ => 0
  let body := (cs.drop lead).takeWhile (· != ']')
  match cs.drop (lead + body.length) with
  | [] => none
  | _ :: rest => some (cs.take (lead + body.length), rest)

/-- The set with the given text between its brackets. An exclamation mark negates it when nothing
but ranges that hold nothing stand in front of it. -/
def setOf : List Char → GlobPart
  | '!' :: body => .set true (items body)
  | low :: '-' :: high :: rest =>
      if high < low then setOf rest else .set false (.range low high :: items rest)
  | body => .set false (items body)

/-- The pattern after a set is shorter than the text from its bracket on. -/
theorem length_splitSet?_lt {cs body rest : List Char} (h : splitSet? cs = some (body, rest)) :
    rest.length < cs.length := by
  unfold splitSet? at h
  simp only at h
  split at h
  · simp at h
  · next heq =>
      simp only [Option.some.injEq, Prod.mk.injEq] at h
      obtain ⟨-, rfl⟩ := h
      have := congrArg List.length heq
      simp only [List.length_drop, List.length_cons] at this
      omega

/-- The parts of a pattern. -/
def parse : List Char → List GlobPart
  | [] => []
  | '*' :: rest => .star :: parse rest
  | '?' :: rest => .any :: parse rest
  | '[' :: rest =>
      match h : splitSet? rest with
      | some (body, after) =>
          have := length_splitSet?_lt h
          setOf body :: parse after
      | none => .char '[' :: parse rest
  | c :: rest => .char c :: parse rest
  termination_by cs => cs.length

/-- Whether a part other than a star matches the character `c`. -/
def matchesChar (c : Char) : GlobPart → Bool
  | .star => false
  | .any => true
  | .char d => c == d
  | .set negated items => items.any (·.holds c) != negated

/-- Whether the parts match the whole text. -/
def matchesParts : List GlobPart → List Char → Bool
  | [], cs => cs.isEmpty
  | .star :: parts, [] => matchesParts parts []
  | .star :: parts, c :: cs => matchesParts parts (c :: cs) || matchesParts (.star :: parts) cs
  | _ :: _, [] => false
  | part :: parts, c :: cs => matchesChar c part && matchesParts parts cs
  termination_by parts cs => (parts.length, cs.length)

/-- Whether the pattern matches the path. -/
def accepts (pattern path : String) : Bool :=
  matchesParts (parse pattern.toList) path.toList

end Glob

end PhpDoc
