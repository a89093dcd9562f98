import PhpDoc.Token.Basic

/-!
# Changesets

A changeset gives some tokens new texts. Operations on one token compose: each works on the
text that the earlier ones left. The edits of a changeset are what it finally changes, in the order
in which the tokens were first touched.
-/

namespace PhpDoc

/-- A new text for one token, computed against the text that it has in the stream. -/
structure Edit where
  index : Nat
  oldText : String
  newText : String
  deriving DecidableEq, Repr, Inhabited

/-- The pending texts of the tokens touched so far, in the order of first touch. -/
structure Changeset where
  pending : List Edit
  deriving DecidableEq, Repr, Inhabited

namespace Changeset

/-- The changeset that touches nothing. -/
def empty : Changeset := ⟨[]⟩

/-- The text of a token after the operations so far. -/
def current (c : Changeset) (t : Token) : String :=
  ((c.pending.find? (·.index == t.index)).map (·.newText)).getD t.text

/-- The pending edits with a new text for the token `t`. -/
def write (t : Token) (text : String) : List Edit → List Edit
  | [] => [⟨t.index, t.text, text⟩]
  | e :: es => if e.index == t.index then { e with newText := text } :: es else e :: write t text es

/-- Replace the whole text of a token. -/
def replace (c : Changeset) (t : Token) (text : String) : Changeset :=
  ⟨write t text c.pending⟩

/-- Put text behind the text of a token. -/
def append (c : Changeset) (t : Token) (text : String) : Changeset :=
  c.replace t (c.current t ++ text)

/-- Put text in front of the text of a token. -/
def prepend (c : Changeset) (t : Token) (text : String) : Changeset :=
  c.replace t (text ++ c.current t)

/-- Replace the texts of the tokens by the empty text. -/
def blank (c : Changeset) (tokens : List Token) : Changeset :=
  tokens.foldl (·.replace · "") c

/-- The edits that change a text. -/
def edits (c : Changeset) : List Edit :=
  c.pending.filter fun e => e.newText != e.oldText

end Changeset

end PhpDoc
