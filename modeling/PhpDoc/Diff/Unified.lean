import PhpDoc.Diff.Script

/-!
# Unified diffs

A unified diff shows the changes between two texts in hunks. A hunk has up to three unchanged lines
before and behind its changes, and changes with at most six unchanged lines between them stand in
one hunk. Its header gives the range of the hunk in both texts. Equal texts have no diff.
-/

namespace PhpDoc.Diff

/-- The characters that end a line of a compared text. -/
def isBreak (c : Char) : Bool :=
  "\n\r\x0b\x0c\x1c\x1d\x1e\x85\u2028\u2029".toList.contains c

/-- The lines of a text, each with its line break. -/
def lines (text : String) : List String :=
  (Text.cutLines isBreak text.toList).map String.ofList

/-- Changes that are shown together: the lines before them in both texts, and their pieces. -/
structure Hunk where
  oldStart : Nat
  newStart : Nat
  pieces : List Piece
  deriving DecidableEq, Repr, Inhabited

/-- The hunk with one more piece. -/
def Hunk.push (h : Hunk) (piece : Piece) : Hunk :=
  { h with pieces := h.pieces ++ [piece] }

/-- The number of unchanged lines that are shown before and behind a change. -/
def context : Nat := 3

/-- The hunks from `current` on, where `old` and `new` lines of the texts come before the pieces. -/
def hunksFrom (current : Hunk) (old new : Nat) : List Piece → List Hunk
  | [] => [current]
  | [.keep kept] => [current.push (.keep (kept.take context))]
  | .keep kept :: rest =>
      let oldNext := old + kept.length
      let newNext := new + kept.length
      if kept.length ≤ 2 * context then hunksFrom (current.push (.keep kept)) oldNext newNext rest
      else
        current.push (.keep (kept.take context)) ::
          hunksFrom
            ⟨oldNext - context, newNext - context, [.keep (kept.drop (kept.length - context))]⟩
            oldNext newNext rest
  | .change removed added :: rest =>
      hunksFrom (current.push (.change removed added)) (old + removed.length)
        (new + added.length) rest

/-- The hunks of a script. -/
def hunks : List Piece → List Hunk
  | [] => []
  | [.keep _] => []
  | .keep kept :: rest =>
      let skipped := kept.length - context
      hunksFrom ⟨skipped, skipped, [.keep (kept.drop skipped)]⟩ kept.length kept.length rest
  | script => hunksFrom ⟨0, 0, []⟩ 0 0 script

/-- The written form of the range of `length` lines behind the first `start` lines. -/
def range (start length : Nat) : String :=
  if length = 1 then toString (start + 1)
  else toString (if length = 0 then start else start + 1) ++ "," ++ toString length

/-- The lines of a piece with their marks. -/
def Piece.marked : Piece → List String
  | keep kept => kept.map (" " ++ ·)
  | change removed added => removed.map ("-" ++ ·) ++ added.map ("+" ++ ·)

/-- The text of a hunk. -/
def Hunk.text (h : Hunk) : String :=
  let oldRange := range h.oldStart (h.pieces.flatMap (·.old)).length
  let newRange := range h.newStart (h.pieces.flatMap (·.new)).length
  "@@ -" ++ oldRange ++ " +" ++ newRange ++ " @@\n" ++ String.join (h.pieces.flatMap (·.marked))

/-- The unified diff between two texts of the file `path`. -/
def unified (path before after : String) : String :=
  match hunks (script (lines before) (lines after)) with
  | [] => ""
  | shown =>
      "--- a/" ++ path ++ "\n+++ b/" ++ path ++ "\n" ++ String.join (shown.map (·.text))

end PhpDoc.Diff
