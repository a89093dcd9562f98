import PhpDoc.Text.Cut

/-!
# Paths

A path is a list of names. It starts at the working directory, or at the root of the disk when it is
written with slashes in front, of which two are kept apart from one. Empty names and single dots are
dropped as they are read, so that a path has one written form; a pair of dots is kept.
-/

namespace PhpDoc

/-- A path: the number of slashes in front, and its names. -/
structure Path where
  slashes : Nat
  names : List String
  deriving DecidableEq, Repr, Inhabited

namespace Path

/-- The number of slashes that are kept of those in front of a text. -/
def keptSlashes (written : Nat) : Nat :=
  if written = 2 then 2 else min written 1

/-- The path that a text spells. -/
def ofText (text : String) : Path :=
  let cs := text.toList
  let names := ((Text.splitOn '/' cs).map String.ofList).filter fun name =>
    name != "" && name != "."
  ⟨keptSlashes (cs.takeWhile (· = '/')).length, names⟩

/-- The written form of a path. -/
def text (p : Path) : String :=
  if p.slashes = 0 && p.names.isEmpty then "."
  else String.ofList (List.replicate p.slashes '/') ++ Text.join "/" p.names

/-- The last name of a path, empty when there is none. -/
def name (p : Path) : String :=
  p.names.getLastD ""

/-- The path with further names behind it. -/
def append (p : Path) (names : List String) : Path :=
  { p with names := p.names ++ names }

/-- Whether the path starts at the root of the disk. -/
def isAbsolute (p : Path) : Bool :=
  0 < p.slashes

/-- The extension of a file name without its dot. A dot at either end of the name starts none. -/
def extensionOf (name : String) : String :=
  let cs := name.toList
  let tail := (cs.reverse.takeWhile (· != '.')).reverse
  if tail.isEmpty || cs.length ≤ tail.length + 1 then "" else String.ofList tail

/-- The names with every pair of dots taken back together with the name before it, which is none at
the root. The first argument holds the names so far, the last one first. -/
def collapse : List String → List String → List String
  | done, [] => done.reverse
  | done, ".." :: names => collapse (done.drop 1) names
  | done, name :: names => collapse (name :: done) names

/-- The path with the home directory for a tilde in its first place. -/
def expandHome (p home : Path) : Path :=
  match p.isAbsolute, p.names with
  | false, "~" :: names => home.append names
  | _, _ => p

end Path

end PhpDoc
