import PhpDoc.Text.Case
import PhpDoc.Text.Cut

/-!
# Names of documented types

A documented type is a union of alternatives. `suggest` gives the preferred spelling of one
alternative: short names for the built-in types, in lower case, through nullable types, arrays of a
type and `array(key => value)` shapes; class names stay as they are. `normalize` spells a whole
union and keeps the first of equal alternatives. `hint` gives the declaration that a documented type
asks for.
-/

namespace PhpDoc.TypeName

open Text

/-- The built-in types. -/
def builtins : List String :=
  ["array", "bool", "callable", "false", "float", "int", "iterable", "mixed", "never", "null",
   "object", "resource", "self", "static", "string", "true", "void"]

/-- The types of single values, which may be declared from one language version on only. -/
def scalars : List String :=
  ["string", "int", "float", "bool"]

/-- The long spellings of built-in types and the short ones. -/
def aliases : List (String × String) :=
  [("boolean", "bool"), ("integer", "int"), ("double", "float"), ("real", "float"),
   ("array()", "array")]

/-- Documented types that no declaration can express. -/
def undeclared : List String :=
  ["mixed", "resource", "object", "null", "void", "true", "false", "$this", "static", "never"]

/-- The characters of the key of an array shape. -/
def isKeyPart (c : Char) : Bool :=
  !isSpace c && c != '=' && c != '>'

/-- The text before the parenthesis that closes an array shape, if the text ends with one. A line
feed may follow it. -/
def unclosed? (cs : List Char) : Option (List Char) :=
  match cs.reverse with
  | '\n' :: ')' :: rest => some rest.reverse
  | ')' :: rest => some rest.reverse
  | _ => none

/-- The value of an array shape from the text after its arrow: everything up to the closing
parenthesis, on one line and without the white space around it. -/
def shapeValue? (cs : List Char) : Option (List Char) :=
  match unclosed? (cs.dropWhile isSpace) with
  | some rest =>
      let value := trimEnd isSpace rest
      if value.contains '\n' then none else some value
  | none => none

/-- The text after the arrow of an array shape, when the text goes on with an arrow. -/
def afterArrow? (cs : List Char) : Option (List Char) :=
  match cs.dropWhile isSpace with
  | '=' :: '>' :: rest => some rest
  | _ => none

/-- The key of an array shape without a value, whose characters up to the first separator are `run`
and whose text goes on with `after`. -/
def bareKey? (run after : List Char) : Option (List Char) :=
  if unclosed? (after.dropWhile isSpace) = some [] then some run
  else if after = [] || after = ['\n'] then unclosed? run else none

/-- The key and the value of an array shape from the text after its opening parenthesis. -/
def shape? (cs : List Char) : Option (List Char × List Char) :=
  let body := cs.dropWhile isSpace
  let run := body.takeWhile isKeyPart
  let after := body.dropWhile isKeyPart
  match (afterArrow? after).bind shapeValue? with
  | some value => some (run, value)
  | none => (bareKey? run after).map fun key => (key, [])

/-- Dropping leading characters does not make a text longer. -/
theorem length_dropWhile_le (p : Char → Bool) (cs : List Char) :
    (cs.dropWhile p).length ≤ cs.length :=
  (List.dropWhile_sublist p).length_le

/-- Keeping leading characters does not make a text longer. -/
theorem length_takeWhile_le (p : Char → Bool) (cs : List Char) :
    (cs.takeWhile p).length ≤ cs.length :=
  (List.takeWhile_sublist p).length_le

/-- Trimming the end does not make a text longer. -/
theorem length_trimEnd_le (p : Char → Bool) (cs : List Char) :
    (trimEnd p cs).length ≤ cs.length := by
  have h := length_dropWhile_le p cs.reverse
  simpa [trimEnd] using h

/-- The text before a closing parenthesis is shorter than the whole. -/
theorem length_unclosed?_le {cs rest : List Char} (h : unclosed? cs = some rest) :
    rest.length ≤ cs.length := by
  have hlen : cs.reverse.length = cs.length := List.length_reverse
  unfold unclosed? at h
  split at h
  · next heq =>
      simp only [Option.some.injEq] at h
      subst h
      rw [heq] at hlen
      simp only [List.length_reverse, List.length_cons] at hlen ⊢
      omega
  · next heq =>
      simp only [Option.some.injEq] at h
      subst h
      rw [heq] at hlen
      simp only [List.length_reverse, List.length_cons] at hlen ⊢
      omega
  · simp at h

/-- The value of an array shape is no longer than the text after its arrow. -/
theorem length_shapeValue?_le {cs value : List Char} (h : shapeValue? cs = some value) :
    value.length ≤ cs.length := by
  unfold shapeValue? at h
  split at h
  · next rest hrest =>
      have h₁ := length_unclosed?_le hrest
      have h₂ := length_dropWhile_le isSpace cs
      have h₃ := length_trimEnd_le isSpace rest
      simp only at h
      split at h
      · simp at h
      · simp only [Option.some.injEq] at h
        subst h
        omega
  · simp at h

/-- The text after the arrow is no longer than the text before it. -/
theorem length_afterArrow?_le {cs rest : List Char} (h : afterArrow? cs = some rest) :
    rest.length ≤ cs.length := by
  have hlen := length_dropWhile_le isSpace cs
  unfold afterArrow? at h
  split at h
  · next heq =>
      simp only [Option.some.injEq] at h
      subst h
      rw [heq] at hlen
      simp at hlen
      omega
  · simp at h

/-- The key of an array shape without a value is no longer than the run it is read from. -/
theorem length_bareKey?_le {run after key : List Char} (h : bareKey? run after = some key) :
    key.length ≤ run.length := by
  unfold bareKey? at h
  split at h
  · simp_all
  · split at h
    · exact length_unclosed?_le h
    · simp at h

/-- Key and value of an array shape are no longer than the text between its parentheses. -/
theorem length_shape?_le {cs key value : List Char} (h : shape? cs = some (key, value)) :
    key.length ≤ cs.length ∧ value.length ≤ cs.length := by
  have hbody := length_dropWhile_le isSpace cs
  have hrun := length_takeWhile_le isKeyPart (cs.dropWhile isSpace)
  have hafter := length_dropWhile_le isKeyPart (cs.dropWhile isSpace)
  unfold shape? at h
  simp only at h
  split at h
  · next v hv =>
      obtain ⟨rest, hrest, hval⟩ := Option.bind_eq_some_iff.1 hv
      have h₁ := length_afterArrow?_le hrest
      have h₂ := length_shapeValue?_le hval
      simp only [Option.some.injEq, Prod.mk.injEq] at h
      obtain ⟨rfl, rfl⟩ := h
      omega
  · obtain ⟨k, hk, heq⟩ := Option.map_eq_some_iff.1 h
    have h₁ := length_bareKey?_le hk
    simp only [Prod.mk.injEq] at heq
    obtain ⟨rfl, rfl⟩ := heq
    simp only [List.length_nil, Nat.zero_le, and_true]
    omega

/-- The preferred spelling of a built-in type; other names are kept. -/
def suggestPlain (cs : List Char) : List Char :=
  let lowered := lower (String.ofList cs)
  if builtins.contains lowered then lowered.toList else cs

/-- Whether the text starts an array shape. -/
def opensShape (cs : List Char) : Bool :=
  lower (String.ofList (cs.take 6)) == "array("

/-- The array shape with the given key and value, or the key alone when there is no value. -/
def writeShape (key value : List Char) : List Char :=
  if value.isEmpty then "array(".toList ++ key ++ [')']
  else "array(".toList ++ key ++ " => ".toList ++ value ++ [')']

/-- The text without a trailing pair of brackets, when there is something in front of them. -/
def elementType? (cs : List Char) : Option (List Char) :=
  match cs.reverse with
  | ']' :: '[' :: c :: rest => some (c :: rest).reverse
  | _ => none

/-- The element type of an array type is shorter than the type. -/
theorem length_elementType?_lt {cs element : List Char} (h : elementType? cs = some element) :
    element.length < cs.length := by
  have hlen : cs.reverse.length = cs.length := List.length_reverse
  unfold elementType? at h
  split at h
  · next heq =>
      simp only [Option.some.injEq] at h
      subst h
      rw [heq] at hlen
      simp only [List.length_reverse, List.length_cons] at hlen ⊢
      omega
  · simp at h

/-- The preferred spelling of one alternative of a type. -/
def suggestChars (cs : List Char) : List Char :=
  match cs with
  | '?' :: c :: rest => '?' :: suggestChars (c :: rest)
  | [] => []
  | c :: rest =>
      match hElement : elementType? (c :: rest) with
      | some element =>
          have := length_elementType?_lt hElement
          suggestChars element ++ ['[', ']']
      | none =>
          match aliases.lookup (lower (String.ofList (c :: rest))) with
          | some short => short.toList
          | none =>
              if opensShape (c :: rest) then
                match hShape : shape? (rest.drop 5) with
                | some (key, value) =>
                    have := length_shape?_le hShape
                    writeShape (suggestChars key) (suggestChars value)
                | none => "array".toList
              else suggestPlain (c :: rest)
  termination_by cs.length
  decreasing_by
    · simp only [List.length_cons]
      omega
    · simp only [List.length_cons] at *
      omega
    · have := (List.drop_sublist 5 rest).length_le
      simp only [List.length_cons]
      omega
    · have := (List.drop_sublist 5 rest).length_le
      simp only [List.length_cons]
      omega

/-- The preferred spelling of one alternative of a type. -/
def suggest (name : String) : String :=
  String.ofList (suggestChars name.toList)

/-- The preferred spelling of a union: each alternative in its own spelling, without repetitions. -/
def normalize (type : String) : String :=
  let alternatives := (splitOn '|' type.toList).map fun cs => suggest (String.ofList cs)
  join "|" alternatives.eraseDups

/-- The declaration that a documented type asks for, empty when there is none. Scalar types are
declared only when `scalarHints` says so. -/
def hint (scalarHints : Bool) (name : String) : String :=
  let lowered := lower name
  if contains "callable" lowered || contains "callback" lowered then "callable"
  else if lowered == "array" || endsWith "[]" lowered || startsWith "array(" lowered.toList then
    "array"
  else if scalars.contains lowered then if scalarHints then lowered else ""
  else if undeclared.contains lowered then ""
  else name

/-- Whether a declared type agrees with the suggested one. The question mark of a nullable type does
not count, and the declaration may be the last part of a qualified name. -/
def hintMatches (declared suggested : String) : Bool :=
  let name := match declared.toList with
    | '?' :: rest => rest
    | cs => cs
  !name.isEmpty && name.isSuffixOf suggested.toList

end PhpDoc.TypeName
