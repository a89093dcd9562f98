import PhpDoc.Edit.Changeset
import PhpDoc.Token.Stream

/-!
# Operations on token texts

A changeset is built from operations that name tokens of a stream by their indices, counted from
zero. The text of a token is replaced, another text or the line ending of the stream is put behind
it or in front of it, or tokens are blanked. An operation on a token that does not exist builds no
changeset.
-/

namespace PhpDoc

/-- An operation on the texts of the tokens at some indices. -/
inductive Operation where
  | replace (i : Nat) (text : String)
  | append (i : Nat) (text : String)
  | prepend (i : Nat) (text : String)
  | newline (i : Nat)
  | newlineBefore (i : Nat)
  | blank (indices : List Nat)
  deriving DecidableEq, Repr, Inhabited

namespace Operation

/-- The indices of the tokens that the operation is on, in its order. -/
def indices : Operation → List Nat
  | replace i _ => [i]
  | append i _ => [i]
  | prepend i _ => [i]
  | newline i => [i]
  | newlineBefore i => [i]
  | blank is => is

/-- The changeset with the operation recorded in it. -/
def record (s : Stream) (c : Changeset) : Operation → Option Changeset
  | replace i text => (s.get? i).map (c.replace · text)
  | append i text => (s.get? i).map (c.append · text)
  | prepend i text => (s.get? i).map (c.prepend · text)
  | newline i => (s.get? i).map (c.append · s.eol)
  | newlineBefore i => (s.get? i).map (c.prepend · s.eol)
  | blank is => (is.mapM s.get?).map c.blank

end Operation

/-- The changeset of the operations over a stream. -/
def Changeset.ofOperations (s : Stream) (operations : List Operation) : Option Changeset :=
  operations.foldlM (Operation.record s) Changeset.empty

end PhpDoc
