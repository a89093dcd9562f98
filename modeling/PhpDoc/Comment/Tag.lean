import PhpDoc.Token.Stream

/-!
# Tags

A tag of a doc comment reaches from its own token to the next tag, or to the close marker. Its value
is the string that follows it on the same line, and a blank between the two is the padding. The
strings after that, on later lines, continue the value.
-/

namespace PhpDoc

/-- A tag with its inline value. `stop` is the index at which the next tag, or the close marker,
stands. -/
structure Tag where
  token : Token
  padding : Option Token
  value : Option Token
  stop : Nat
  deriving DecidableEq, Repr, Inhabited

namespace Tag

/-- The name of the tag with its `@`. -/
def name (t : Tag) : String := t.token.text

/-- The text of the inline value, empty without one. -/
def valueText (t : Tag) : String := t.value.elim "" (·.text)

/-- The blank that directly follows a tag, and the tokens after it. -/
def splitPadding : List Token → Option Token × List Token
  | [] => (none, [])
  | t :: ts => if t.kind == .docBlank then (some t, ts) else (none, t :: ts)

/-- The tag of the stream at `token`, which ends at index `stop`. -/
def ofToken (s : Stream) (token : Token) (stop : Nat) : Tag :=
  let (padding, rest) := splitPadding (s.between (token.index + 1) stop)
  match rest with
  | value :: _ =>
      if value.kind == .docString && value.line == token.line then
        ⟨token, padding, some value, stop⟩
      else ⟨token, none, none, stop⟩
  | [] => ⟨token, none, none, stop⟩

/-- The strings that continue the value of the tag on later lines. -/
def continuation (s : Stream) (t : Tag) : List Token :=
  (s.between ((t.value.getD t.token).index + 1) t.stop).filter (·.kind == .docString)

end Tag

/-- The tags at the given tokens. Each ends where the next one starts, and the last at index
`stop`. -/
def tagsOf (s : Stream) (stop : Nat) : List Token → List Tag
  | [] => []
  | [t] => [Tag.ofToken s t stop]
  | t :: next :: ts => Tag.ofToken s t next.index :: tagsOf s stop (next :: ts)

end PhpDoc
