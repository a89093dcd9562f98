import PhpDoc.Token.Lexer
import PhpDoc.Token.Nesting

/-!
# Token streams

A stream is the tokens of a source text together with what was found out about them once: the
nesting of every token, the partners of brackets, the doc comments, and the scopes of declarations
with the braces they own. `tokenize` makes the stream of a source text.
-/

namespace PhpDoc

/-- The tokens of a source text with their pairings. -/
structure Stream where
  tokens : Array Token
  nestings : Array Nesting
  partners : Array (Option Nat)
  comments : List CommentSpan
  scopes : List (Nat × Scope)
  owners : Array (Option Nat)

namespace Stream

/-- The partner of each token of `size` tokens, from the pairs of brackets. -/
def partnersOf (size : Nat) (pairs : List (Nat × Nat)) : Array (Option Nat) :=
  pairs.foldl
    (fun partners pair =>
      (partners.setIfInBounds pair.1 (some pair.2)).setIfInBounds pair.2 (some pair.1))
    (Array.replicate size none)

/-- The declaration that owns the body opened at each token. The last of several declarations that
share a body owns it. -/
def ownersOf (size : Nat) (scopes : List (Nat × Scope)) : Array (Option Nat) :=
  scopes.foldl
    (fun owners scope =>
      match scope.2.bodyOpener with
      | some body => owners.setIfInBounds body (some scope.1)
      | none => owners)
    (Array.replicate size none)

/-- The stream of the given tokens. -/
def ofTokens (tokens : List Token) : Stream :=
  let partners := partnersOf tokens.length (Nesting.pairs [] tokens)
  let scopes := Scope.scan (fun i => (partners[i]?).join) tokens
  { tokens := tokens.toArray
    nestings := (Nesting.scan [] tokens).toArray
    partners
    comments := CommentSpan.scan none tokens
    scopes
    owners := ownersOf tokens.length scopes }

/-- The number of tokens. -/
def size (s : Stream) : Nat := s.tokens.size

/-- The token at an index. -/
def get? (s : Stream) (i : Nat) : Option Token := s.tokens[i]?

/-- The offset that an index stands for, which counts from the end when it is negative. -/
def offset (s : Stream) (i : Int) : Int :=
  if 0 ≤ i then i else i + s.size

/-- The token at an index that counts from the end when it is negative. -/
def at? (s : Stream) (i : Int) : Option Token :=
  if 0 ≤ s.offset i then s.get? (s.offset i).toNat else none

/-- The token right before index `i`. -/
def before? (s : Stream) (i : Nat) : Option Token :=
  if i = 0 then none else s.get? (i - 1)

/-- The tokens with indices from `start` up to, but not including, `stop`. -/
def between (s : Stream) (start stop : Nat) : List Token :=
  (s.tokens.extract start stop).toList

/-- The tokens between two indices that count from the end when they are negative. -/
def slice (s : Stream) (start stop : Int) : List Token :=
  s.between (s.offset start).toNat (s.offset stop).toNat

/-- The tokens from index `start` on. -/
def since (s : Stream) (start : Nat) : List Token :=
  s.between start s.size

/-- The first token from `start` up to, but not including, `stop` whose kind satisfies `p`. -/
def firstBetween (s : Stream) (p : Kind → Bool) (start stop : Nat) : Option Token :=
  (s.between start stop).find? (p ·.kind)

/-- The last token from `start` up to, but not including, `stop` whose kind satisfies `p`. -/
def lastBetween (s : Stream) (p : Kind → Bool) (start stop : Nat) : Option Token :=
  (s.between start stop).reverse.find? (p ·.kind)

/-- The index of the first token at or after `start` and before `stop` whose kind satisfies `p`.
Bounds outside the stream are moved to its ends, and without `stop` the search runs to the end. -/
def findNext? (s : Stream) (p : Kind → Bool) (start : Int) (stop : Option Int) : Option Nat :=
  (s.firstBetween p start.toNat (stop.elim s.size Int.toNat)).map (·.index)

/-- The index of the last token at or before `start` and not before `stop` whose kind satisfies
`p`. Bounds outside the stream are moved to its ends, and without `stop` the search runs to the
beginning. -/
def findPrevious? (s : Stream) (p : Kind → Bool) (start : Int) (stop : Option Int) : Option Nat :=
  (s.lastBetween p (stop.elim 0 Int.toNat) (start + 1).toNat).map (·.index)

/-- The source text. -/
def text (s : Stream) : String :=
  Token.textOf s.tokens.toList

/-- The line ending in use: the style of the first token that holds a line feed. -/
def eol (s : Stream) : String :=
  match s.tokens.toList.find? (·.text.toList.contains '\n') with
  | some t => if Text.contains "\r\n" t.text then "\r\n" else "\n"
  | none => "\n"

/-- The doc comment whose open marker has index `i`. -/
def commentAt? (s : Stream) (i : Nat) : Option CommentSpan :=
  s.comments.find? (·.opener.index == i)

/-- The doc comment whose close marker has index `i`. -/
def commentClosedAt? (s : Stream) (i : Nat) : Option CommentSpan :=
  s.comments.find? (·.closer.index == i)

/-- The partner of the bracket at index `i`. -/
def partner? (s : Stream) (i : Nat) : Option Nat :=
  (s.partners[i]?).join

/-- The scope of the declaration at index `i`; empty for any other token. -/
def scope (s : Stream) (i : Nat) : Scope :=
  (s.scopes.lookup i).getD Scope.empty

/-- The nesting in front of the token at index `i`. -/
def nesting (s : Stream) (i : Nat) : Nesting :=
  (s.nestings[i]?).getD []

/-- The declaration that owns the innermost braces around the token at index `i`. -/
def owner? (s : Stream) (i : Nat) : Option Nat :=
  (s.nesting i).curly?.bind fun curly => (s.owners[curly]?).join

/-- Whether the token at index `i` stands inside parentheses. -/
def inParentheses (s : Stream) (i : Nat) : Bool :=
  0 < (s.nesting i).parentheses

end Stream

/-- An unterminated construct and the position at which it starts. -/
structure SyntaxError where
  construct : Construct
  position : Position
  deriving DecidableEq, Repr, Inhabited

/-- The stream of a source text, or the construct in it that never ends. The place of the construct
is counted lexeme by lexeme, as the places of the tokens are. -/
def tokenize (text : String) : Except SyntaxError Stream :=
  let lexing := Lexer.lex text
  match lexing.stopped with
  | some construct =>
      .error ⟨construct,
        lexing.lexemes.foldl (fun p l => p.advance l.text.toList) Position.start⟩
  | none => .ok (Stream.ofTokens (Token.place 0 Position.start lexing.lexemes))

end PhpDoc
