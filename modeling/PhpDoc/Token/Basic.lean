import PhpDoc.Text.Cut
import PhpDoc.Token.Kind

/-!
# Tokens and their places

A lexeme is a kind with a text. A token is a lexeme at its place in the source: its index among the
tokens and the line and column at which its text starts. Places are counted from the texts of the
earlier lexemes alone: `advance` moves a position over a text, and `place` gives every lexeme its
position and index.
-/

namespace PhpDoc

/-- A kind with its text, not yet placed. -/
structure Lexeme where
  kind : Kind
  text : String
  deriving DecidableEq, Repr, Inhabited

/-- A line and a column, both counted from one. -/
structure Position where
  line : Nat
  column : Nat
  deriving DecidableEq, Repr, Inhabited

namespace Position

/-- The position of the first character of a text. -/
def start : Position := ⟨1, 1⟩

/-- The first column of the next line. -/
def nextLine (p : Position) : Position := ⟨p.line + 1, 1⟩

/-- The next column of the same line. -/
def nextColumn (p : Position) : Position := ⟨p.line, p.column + 1⟩

/-- The position after a text that starts at `p`. A carriage return followed by a line feed, a
line feed, and a carriage return are each one line break. -/
def advance (p : Position) : List Char → Position
  | [] => p
  | '\r' :: '\n' :: cs => p.nextLine.advance cs
  | c :: cs => if Text.isLineBreak c then p.nextLine.advance cs else p.nextColumn.advance cs

end Position

/-- A lexeme at its place in the source. -/
structure Token where
  kind : Kind
  text : String
  index : Nat
  line : Nat
  column : Nat
  deriving DecidableEq, Repr, Inhabited

namespace Token

/-- The position at which the token starts. -/
def position (t : Token) : Position := ⟨t.line, t.column⟩

/-- The tokens of consecutive lexemes, of which the first has index `index` and starts at `p`. -/
def place (index : Nat) (p : Position) : List Lexeme → List Token
  | [] => []
  | l :: ls =>
      ⟨l.kind, l.text, index, p.line, p.column⟩ :: place (index + 1) (p.advance l.text.toList) ls

/-- The text of consecutive tokens. -/
def textOf (tokens : List Token) : String :=
  String.join (tokens.map (·.text))

end Token

end PhpDoc
