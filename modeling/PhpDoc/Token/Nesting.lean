import PhpDoc.Token.Basic

/-!
# Brackets, comments and scopes

Brackets are paired with a stack: a closer pairs with the nearest open bracket of its shape, and the
open brackets above that one stay without a partner. A closer without an open bracket of its shape
pairs with nothing. The stack in front of a token is the nesting of that token.

Doc comments are spans from an open to a close marker with the tags between them. A function,
closure or class-like declaration owns a scope: the parentheses of its parameters and the braces of
its body.
-/

namespace PhpDoc

/-- A bracket that is open at some place. -/
structure OpenBracket where
  bracket : Bracket
  index : Nat
  deriving DecidableEq, Repr, Inhabited

/-- The brackets that are open at some place, the innermost first. -/
abbrev Nesting := List OpenBracket

namespace Nesting

/-- The innermost open bracket of shape `b` and the nesting around it. -/
def close? (b : Bracket) (n : Nesting) : Option (Nat × Nesting) :=
  match n.dropWhile (·.bracket != b) with
  | [] => none
  | opener :: outer => some (opener.index, outer)

/-- The nesting after a token and, when the token closes a bracket, the opener of that bracket. -/
def advance (n : Nesting) (t : Token) : Nesting × Option Nat :=
  match t.kind.opens?, t.kind.closes? with
  | some b, _ => (⟨b, t.index⟩ :: n, none)
  | none, some b =>
      match n.close? b with
      | some (opener, outer) => (outer, some opener)
      | none => (n, none)
  | none, none => (n, none)

/-- The index of the innermost open brace. -/
def curly? (n : Nesting) : Option Nat :=
  (n.find? (·.bracket == .curly)).map (·.index)

/-- The number of open parentheses. -/
def parentheses (n : Nesting) : Nat :=
  n.countP (·.bracket == .parenthesis)

/-- The nesting in front of each token, when the first one stands in `n`. -/
def scan (n : Nesting) : List Token → List Nesting
  | [] => []
  | t :: ts => n :: scan (n.advance t).1 ts

/-- The pairs of brackets of the tokens, opener and closer, in the order of the closers. -/
def pairs (n : Nesting) : List Token → List (Nat × Nat)
  | [] => []
  | t :: ts =>
      let (inner, opener) := n.advance t
      match opener with
      | some o => (o, t.index) :: pairs inner ts
      | none => pairs inner ts

end Nesting

/-- A doc comment: its markers and its tags. -/
structure CommentSpan where
  opener : Token
  closer : Token
  tags : List Token
  deriving DecidableEq, Repr, Inhabited

namespace CommentSpan

/-- The doc comments of the tokens. `current` is the open marker in front of them that waits for
its close marker, with the tags since then, the last one first. -/
def scan (current : Option (Token × List Token)) : List Token → List CommentSpan
  | [] => []
  | t :: ts =>
      match t.kind, current with
      | .docOpen, _ => scan (some (t, [])) ts
      | .docTag, some (opener, tags) => scan (some (opener, t :: tags)) ts
      | .docClose, some (opener, tags) => ⟨opener, t, tags.reverse⟩ :: scan none ts
      | _, _ => scan current ts

end CommentSpan

/-- The brackets that a declaration owns, as far as they were found: the parentheses of its
parameters and the braces of its body. -/
structure Scope where
  parenOpener : Option Nat
  parenCloser : Option Nat
  bodyOpener : Option Nat
  bodyCloser : Option Nat
  deriving DecidableEq, Repr, Inhabited

namespace Scope

/-- The scope of a token that owns nothing. -/
def empty : Scope := ⟨none, none, none, none⟩

/-- The first parenthesis among the tokens, unless a semicolon or a brace comes before it. -/
def parameterOpener? (tokens : List Token) : Option Nat :=
  match tokens.find? fun t => t.kind == .openParenthesis || t.kind == .semicolon ||
      t.kind == .openCurly || t.kind == .closeCurly with
  | some t => if t.kind == .openParenthesis then some t.index else none
  | none => none

/-- The first brace among the tokens from index `resume` on, unless a semicolon comes before it.
Whatever stands between paired parentheses is passed over. -/
def functionBody? (partner : Nat → Option Nat) (resume : Nat) : List Token → Option Nat
  | [] => none
  | t :: ts =>
      if t.index < resume then functionBody? partner resume ts
      else match t.kind with
        | .semicolon => none
        | .openCurly => some t.index
        | .openParenthesis => functionBody? partner ((partner t.index).elim resume (· + 1)) ts
        | _ => functionBody? partner resume ts

/-- The scope of a function or closure that is followed by the given tokens. -/
def ofFunction (partner : Nat → Option Nat) (following : List Token) : Scope :=
  match parameterOpener? following with
  | none => empty
  | some parenOpener =>
      match partner parenOpener with
      | none => empty
      | some parenCloser =>
          match functionBody? partner (parenCloser + 1) following with
          | some body => ⟨some parenOpener, some parenCloser, some body, partner body⟩
          | none => ⟨some parenOpener, some parenCloser, none, none⟩

/-- The scope of a class-like declaration that is followed by the given tokens: its body starts at
the first brace, unless a semicolon comes before it. -/
def ofClass (partner : Nat → Option Nat) (following : List Token) : Scope :=
  match following.find? fun t => t.kind == .openCurly || t.kind == .semicolon with
  | some t =>
      if t.kind == .openCurly then ⟨none, none, some t.index, partner t.index⟩ else empty
  | none => empty

/-- The scopes of the declarations among the tokens, with their indices. -/
def scan (partner : Nat → Option Nat) : List Token → List (Nat × Scope)
  | [] => []
  | t :: ts =>
      if t.kind.isFunctionLike then (t.index, ofFunction partner ts) :: scan partner ts
      else if t.kind.isClassLike then (t.index, ofClass partner ts) :: scan partner ts
      else scan partner ts

end Scope

end PhpDoc
