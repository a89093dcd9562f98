import PhpDoc.Text.Cut

/-!
# Comparing two texts line by line

A script tells how a list of lines becomes another one: some lines are kept, others are removed and
added. The lines that are kept come from the longest run of lines that both lists share, and from
the same search before and behind that run. A line that occurs too often in a long list is no seed:
a run has to be found without it, but may grow over it.
-/

namespace PhpDoc.Diff

/-- One piece of a script. -/
inductive Piece where
  | keep (lines : List String)
  | change (removed added : List String)
  deriving DecidableEq, Repr, Inhabited

/-- The lines that a piece takes from the old text. -/
def Piece.old : Piece → List String
  | keep lines => lines
  | change removed _ => removed

/-- The lines that a piece puts into the new text. -/
def Piece.new : Piece → List String
  | keep lines => lines
  | change _ added => added

/-- A run of lines that two lists share: where it starts in each of them, and its length. -/
structure Shared where
  oldStart : Nat
  newStart : Nat
  length : Nat
  deriving DecidableEq, Repr, Inhabited

/-- The lengths of the shared runs that end with the old line `x` and each of the new lines, from
those that end with the old line before. -/
def nextRow (isSeed : String → Bool) (x : String) (row : List Nat) (new : List String) :
    List Nat :=
  List.zipWith (fun diagonal y => if x == y && isSeed y then diagonal + 1 else 0) (0 :: row) new

/-- The first of the longest runs: `best`, or one of those that end with the old line `i` and have
the lengths `row`. -/
def better (i : Nat) (best : Shared) (row : List Nat) : Shared :=
  row.zipIdx.foldl
    (fun best (length, j) =>
      if best.length < length then ⟨i + 1 - length, j + 1 - length, length⟩ else best) best

/-- The first of the longest runs among `best` and those that end with one of the old lines. The
first of these is line `i`, and `row` belongs to the line before it. -/
def longestFrom (isSeed : String → Bool) (new : List String) (i : Nat) (row : List Nat)
    (best : Shared) : List String → Shared
  | [] => best
  | x :: old =>
      let next := nextRow isSeed x row new
      longestFrom isSeed new (i + 1) next (better i best next) old

/-- The number of lines with which both lists begin. -/
def agreement : List String → List String → Nat
  | x :: xs, y :: ys => if x == y then agreement xs ys + 1 else 0
  | _, _ => 0

/-- The run with all equal lines around it. -/
def grow (old new : List String) (run : Shared) : Shared :=
  let above := agreement (old.take run.oldStart).reverse (new.take run.newStart).reverse
  let below := agreement (old.drop (run.oldStart + run.length))
    (new.drop (run.newStart + run.length))
  ⟨run.oldStart - above, run.newStart - above, above + run.length + below⟩

/-- The run of lines that two lists are matched at first. -/
def longest (isSeed : String → Bool) (old new : List String) : Shared :=
  grow old new (longestFrom isSeed new 0 (List.replicate new.length 0) ⟨0, 0, 0⟩ old)

/-- The piece that replaces lines, if there are any. -/
def changePiece (removed added : List String) : List Piece :=
  if removed.isEmpty && added.isEmpty then [] else [.change removed added]

/-- The pieces that make the new lines of the old ones. -/
def pieces (isSeed : String → Bool) (old new : List String) : List Piece :=
  match longest isSeed old new with
  | ⟨i, j, length⟩ =>
      if _h : 0 < length ∧ i + length ≤ old.length then
        pieces isSeed (old.take i) (new.take j) ++
          .keep ((old.drop i).take length) ::
            pieces isSeed (old.drop (i + length)) (new.drop (j + length))
      else changePiece old new
  termination_by old.length
  decreasing_by
    all_goals
      simp only [List.length_take, List.length_drop]
      omega

/-- The pieces with neighbouring kept lines joined. -/
def joinKept : List Piece → List Piece
  | [] => []
  | .keep lines :: rest =>
      match joinKept rest with
      | .keep more :: others => .keep (lines ++ more) :: others
      | others => .keep lines :: others
  | .change removed added :: rest => .change removed added :: joinKept rest

/-- The lines that occur too often in a long list to be seeds. -/
def commonLines (lines : List String) : List String :=
  if lines.length < 200 then []
  else lines.eraseDups.filter fun line => lines.length / 100 + 1 < lines.count line

/-- The script that makes the new lines of the old ones. -/
def script (old new : List String) : List Piece :=
  let common := commonLines new
  joinKept (pieces (fun line => !common.contains line) old new)

end PhpDoc.Diff
