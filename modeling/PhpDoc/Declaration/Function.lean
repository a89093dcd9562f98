import PhpDoc.Declaration.Parameter

/-!
# Functions

A function is read from the stream as its name, its parameters and the braces of its body. The first
`return` or `yield` of the body, outside nested functions and classes, tells whether the function
gives back a value.
-/

namespace PhpDoc

/-- A function, method or closure as it is declared. -/
structure Function where
  token : Token
  name : String
  parameters : List Parameter
  bodyOpener : Option Nat
  bodyCloser : Option Nat
  deriving DecidableEq, Repr, Inhabited

namespace Function

/-- The function declared by the keyword `token`. Its name is the first name before the parameter
list. -/
def ofToken (s : Stream) (token : Token) : Function :=
  let scope := s.scope token.index
  let stop := scope.parenOpener.getD s.size
  { token
    name := (s.firstBetween (· == .name) (token.index + 1) stop).elim "" (·.text)
    parameters := s.parameters token.index
    bodyOpener := scope.bodyOpener
    bodyCloser := scope.bodyCloser }

/-- Whether both braces of the body were found. -/
def hasBody (f : Function) : Bool :=
  f.bodyOpener.isSome && f.bodyCloser.isSome

/-- Whether the function is a constructor or a destructor. -/
def isSpecial (f : Function) : Bool :=
  Text.lower f.name == "__construct" || Text.lower f.name == "__destruct"

end Function

/-- How the body of a function is first left: never, without a value, or with one. -/
inductive Exit where
  | none
  | bare (token : Token)
  | value (token : Token)
  deriving DecidableEq, Repr, Inhabited

namespace Exit

/-- The exit at a `return` or `yield`, which is bare when a semicolon follows. -/
def ofToken (s : Stream) (t : Token) : Exit :=
  match s.firstBetween (!·.isTrivia) (t.index + 1) s.size with
  | some next => if next.kind == .semicolon then .bare t else .value t
  | Option.none => .value t

/-- The first exit among the tokens from index `resume` on. The bodies of nested declarations are
passed over. -/
def find (s : Stream) (resume : Nat) : List Token → Exit
  | [] => .none
  | t :: ts =>
      if t.index < resume then find s resume ts
      else if t.kind.isFunctionLike || t.kind.isClassLike then
        find s ((s.scope t.index).bodyCloser.elim resume (· + 1)) ts
      else if t.kind == .returnWord || t.kind == .yieldWord then ofToken s t
      else find s resume ts

end Exit

/-- The first exit of the body of a function. -/
def Function.firstExit (s : Stream) (f : Function) : Exit :=
  match f.bodyOpener, f.bodyCloser with
  | some opener, some closer => Exit.find s 0 (s.between (opener + 1) closer)
  | _, _ => .none

end PhpDoc
