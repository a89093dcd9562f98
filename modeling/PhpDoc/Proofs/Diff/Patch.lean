import PhpDoc.Diff.Unified
import PhpDoc.Proofs.Diff.Script
import PhpDoc.Proofs.Text.Digit
import PhpDoc.Proofs.Text.Feed

/-!
# Diffs as patches

Outside its hunks two texts are the same, and each hunk has the lines of both at its place
(`covers_changes`). A diff is written line by line, each with a mark in front (`toList_unified`),
but nothing is written behind a line: it ends as it ends in its text. So the lines of a diff can be
told apart again exactly when all of them but the last end with a line feed
(`cutLines_unified_iff`), and then the new text can be rebuilt from the old one and the diff
(`patch?_unified`). That is so for texts in which every line ends with a line feed
(`unified_of_feeds`).
-/

namespace PhpDoc.Diff

/-! ## Hunks -/

namespace Hunk

/-- The lines that a hunk takes from the old text. -/
def old (h : Hunk) : List String :=
  h.pieces.flatMap Piece.old

/-- The lines that a hunk puts into the new text. -/
def new (h : Hunk) : List String :=
  h.pieces.flatMap Piece.new

/-- The old lines of a hunk are those of its pieces. -/
@[simp] theorem old_mk (i j : Nat) (ps : List Piece) : (mk i j ps).old = ps.flatMap Piece.old := rfl

/-- The new lines of a hunk are those of its pieces. -/
@[simp] theorem new_mk (i j : Nat) (ps : List Piece) : (mk i j ps).new = ps.flatMap Piece.new := rfl

/-- A further piece does not move the place of the hunk in the old text. -/
@[simp] theorem oldStart_push (h : Hunk) (piece : Piece) :
    (h.push piece).oldStart = h.oldStart := rfl

/-- A further piece does not move the place of the hunk in the new text. -/
@[simp] theorem newStart_push (h : Hunk) (piece : Piece) :
    (h.push piece).newStart = h.newStart := rfl

/-- A further piece puts its old lines behind those of the hunk. -/
@[simp] theorem old_push (h : Hunk) (piece : Piece) : (h.push piece).old = h.old ++ piece.old := by
  simp [old, push]

/-- A further piece puts its new lines behind those of the hunk. -/
@[simp] theorem new_push (h : Hunk) (piece : Piece) : (h.push piece).new = h.new ++ piece.new := by
  simp [new, push]

end Hunk

variable {old new skipped : List String} {i j : Nat} {h : Hunk} {hs : List Hunk}
variable {path before after : String}

/-- Behind the first `i` old and `j` new lines, two texts go on with `old` and `new`, and these are
the same outside the hunks. -/
inductive Covers : Nat → Nat → List String → List String → List Hunk → Prop
  | same (i j : Nat) (rest : List String) : Covers i j rest rest []
  | hunk {i j : Nat} (skipped : List String) {h : Hunk} {old new : List String} {hs : List Hunk} :
      h.oldStart = i + skipped.length → h.newStart = j + skipped.length →
      Covers (h.oldStart + h.old.length) (h.newStart + h.new.length) old new hs →
      Covers i j (skipped ++ (h.old ++ old)) (skipped ++ (h.new ++ new)) (h :: hs)

namespace Covers

variable {i' j' : Nat}

/-- More lines that are the same stand in front. -/
theorem skip (hcovers : Covers i' j' old new hs) (skipped : List String)
    (hi : i' = i + skipped.length) (hj : j' = j + skipped.length) :
    Covers i j (skipped ++ old) (skipped ++ new) hs := by
  subst hi hj
  cases hcovers with
  | same => exact .same i j _
  | hunk more hold hnew hcovers =>
      simp only [← List.append_assoc skipped]
      refine .hunk (skipped ++ more) ?_ ?_ hcovers
      · rw [hold, List.length_append, Nat.add_assoc]
      · rw [hnew, List.length_append, Nat.add_assoc]

/-- A hunk stands in front. -/
theorem cons (hcovers : Covers i' j' old new hs) (h : Hunk) (hi : i' = h.oldStart + h.old.length)
    (hj : j' = h.newStart + h.new.length) :
    Covers h.oldStart h.newStart (h.old ++ old) (h.new ++ new) (h :: hs) := by
  subst hi hj
  exact .hunk [] rfl rfl hcovers

end Covers

/-- What is left of a long piece without the lines at its ends that are shown. -/
theorem exists_hidden {kept : List String} (hlong : 2 * context < kept.length) :
    ∃ hidden, kept = kept.take context ++ (hidden ++ kept.drop (kept.length - context)) ∧
      hidden.length = kept.length - 2 * context := by
  refine ⟨(kept.drop context).take (kept.length - 2 * context), ?_, ?_⟩
  · have hdrop : kept.drop (kept.length - context) =
        (kept.drop context).drop (kept.length - 2 * context) := by
      rw [List.drop_drop]
      congr 1
      omega
    rw [hdrop, List.take_append_drop, List.take_append_drop]
  · rw [List.length_take, List.length_drop]
    omega

/-- The hunk that is being filled comes first, and all that follows is covered. -/
theorem covers_hunksFrom (current : Hunk) (i j : Nat) (ps : List Piece)
    (hi : i = current.oldStart + current.old.length)
    (hj : j = current.newStart + current.new.length) :
    Covers current.oldStart current.newStart (current.old ++ ps.flatMap Piece.old)
      (current.new ++ ps.flatMap Piece.new) (hunksFrom current i j ps) := by
  fun_induction hunksFrom current i j ps with
  | case1 current i j => exact (Covers.same i j []).cons current hi hj
  | case2 current i j kept =>
      have hrest := Covers.same (i + (kept.take context).length) (j + (kept.take context).length)
        (kept.drop context)
      have hcovers := hrest.cons (current.push (.keep (kept.take context)))
        (by simp [hi, Nat.add_assoc]) (by simp [hj, Nat.add_assoc])
      simpa using hcovers
  | case3 current i j kept rest _ i' j' _ ih =>
      have hcovers := ih (by simp [i', hi, Nat.add_assoc]) (by simp [j', hj, Nat.add_assoc])
      simpa using hcovers
  | case4 current i j kept rest _ i' j' hlong ih =>
      obtain ⟨hidden, hkept, hlength⟩ := exists_hidden (Nat.lt_of_not_le hlong)
      have hshown : (kept.take context).length = context := by
        rw [List.length_take]
        omega
      have hnext := ih (by simp; omega) (by simp; omega)
      have hskip := hnext.skip hidden (show i' - context = i + context + hidden.length by omega)
        (show j' - context = j + context + hidden.length by omega)
      have hcovers := hskip.cons (current.push (.keep (kept.take context)))
        (by simp [hi]; omega) (by simp [hj]; omega)
      have hsplit (front tail : List String) : front ++ (kept ++ tail) =
          front ++ kept.take context ++
            (hidden ++ (kept.drop (kept.length - context) ++ tail)) := by
        conv_lhs => rw [hkept]
        simp only [List.append_assoc]
      rw [List.flatMap_cons, List.flatMap_cons, Piece.old, Piece.new, hsplit, hsplit current.new]
      simpa only [Hunk.oldStart_push, Hunk.newStart_push, Hunk.old_push, Hunk.new_push,
        Hunk.old_mk, Hunk.new_mk, List.flatMap_singleton, Piece.old, Piece.new] using hcovers
  | case5 current i j removed added rest ih =>
      have hcovers := ih (by simp [hi, Nat.add_assoc]) (by simp [hj, Nat.add_assoc])
      simpa using hcovers

/-- The hunks of a script cover all its lines, from the first one on. -/
theorem covers_hunks (ps : List Piece) :
    Covers 0 0 (ps.flatMap Piece.old) (ps.flatMap Piece.new) (hunks ps) := by
  fun_cases hunks ps with
  | case1 => exact .same 0 0 []
  | case2 kept => simpa using Covers.same 0 0 kept
  | case3 kept rest _ dropped =>
      have hlength : (kept.take dropped).length = dropped := by
        rw [List.length_take]
        omega
      have hfrom := covers_hunksFrom ⟨dropped, dropped, [.keep (kept.drop dropped)]⟩ kept.length
        kept.length rest
        (by simp; omega) (by simp; omega)
      have hcovers := hfrom.skip (kept.take dropped) (show dropped = 0 + _ by omega)
        (show dropped = 0 + _ by omega)
      simpa [← List.append_assoc] using hcovers
  | case4 ps _ _ _ => exact covers_hunksFrom ⟨0, 0, []⟩ 0 0 ps rfl rfl

/-! ## The lines of a diff -/

/-- The line in front of a hunk. -/
def Hunk.header (h : Hunk) : String :=
  "@@ -" ++ range h.oldStart h.old.length ++ " +" ++ range h.newStart h.new.length ++ " @@\n"

/-- The lines that are written for a hunk. -/
def Hunk.written (h : Hunk) : List String :=
  h.header :: h.pieces.flatMap Piece.marked

/-- The lines that are written for the hunks of a file: two headers, and the lines of each hunk. -/
def written (path : String) : List Hunk → List String
  | [] => []
  | hs => ["--- a/" ++ path ++ "\n", "+++ b/" ++ path ++ "\n"] ++ hs.flatMap Hunk.written

/-- The hunks in which two texts differ. -/
def changes (before after : String) : List Hunk :=
  hunks (script (lines before) (lines after))

/-- The text of a hunk is its header and its marked lines. -/
theorem Hunk.text_eq (h : Hunk) :
    h.text = h.header ++ String.join (h.pieces.flatMap Piece.marked) := rfl

/-- The text of a hunk is that of the lines that are written for it. -/
theorem Hunk.toList_text (h : Hunk) : h.text.toList = h.written.flatMap String.toList := by
  rw [Hunk.text_eq, String.toList_append, String.toList_join]
  rfl

/-- A diff is the lines that are written for the hunks. -/
theorem toList_unified (path before after : String) :
    (unified path before after).toList =
      (written path (changes before after)).flatMap String.toList := by
  rw [unified, ← changes]
  cases changes before after with
  | nil => rfl
  | cons h hs =>
      have htexts : ((h :: hs).map Hunk.text).flatMap String.toList =
          ((h :: hs).flatMap Hunk.written).flatMap String.toList := by
        rw [List.flatMap_map, List.flatMap_assoc]
        exact List.flatMap_congr fun h _ => h.toList_text
      simp only [String.toList_append, String.toList_join, htexts, written, List.flatMap_append,
        List.flatMap_cons, List.flatMap_nil, List.append_assoc, List.append_nil]
      rfl

/-! ## Reading a diff -/

/-- The number with which a text starts, and what stands behind it. -/
def number (cs : List Char) : Nat × List Char :=
  (Nat.ofDigitChars 10 (cs.takeWhile Char.isDigit) 0, cs.dropWhile Char.isDigit)

/-- How many old lines come before a hunk, from the range in its header. -/
def oldStart (cs : List Char) : Nat :=
  match number cs with
  | (start, ',' :: length) => if (number length).1 = 0 then start else start - 1
  | (start, _) => start - 1

/-- A number is read up to the first character that is no digit. -/
theorem number_append (n : Nat) {c : Char} (hc : c.isDigit = false) (rest : List Char) :
    number ((toString n).toList ++ c :: rest) = (n, c :: rest) := by
  have hdigits : ∀ d ∈ (toString n).toList, d.isDigit = true := fun d hd =>
    Text.isDigit_of_mem_toString hd
  rw [number, List.takeWhile_append_of_pos hdigits, List.dropWhile_append_of_pos hdigits]
  simp [hc, Nat.toList_repr, Nat.ofDigitChars_ten_toDigits]

/-- The place of a hunk in the old text is read from its header. -/
theorem oldStart_range (start length : Nat) (rest : List Char) :
    oldStart ((range start length).toList ++ ' ' :: rest) = start := by
  by_cases hone : length = 1
  · rw [range, if_pos hone, oldStart, number_append _ (by decide)]
    rfl
  · have hcomma : (range start length).toList ++ ' ' :: rest =
        (toString (if length = 0 then start else start + 1)).toList ++
          ',' :: ((toString length).toList ++ ' ' :: rest) := by
      simp [range, if_neg hone]
    rw [hcomma, oldStart, number_append _ (by decide)]
    simp only [number_append length (show Char.isDigit ' ' = false by decide)]
    split
    · rfl
    · rfl

/-- The new lines that come from the old ones behind the first `done` lines, and from the lines of a
diff. A line that is kept or removed has to stand in the old text. -/
def patchFrom? (done : Nat) (old : List String) : List (List Char) → Option (List String)
  | [] => some old
  | ('@' :: '@' :: ' ' :: '-' :: cs) :: rest =>
      let skipped := oldStart cs - done
      if skipped ≤ old.length then
        (patchFrom? (oldStart cs) (old.drop skipped) rest).map (old.take skipped ++ ·)
      else none
  | (' ' :: cs) :: rest =>
      if old.head? = some (String.ofList cs) then
        (patchFrom? (done + 1) old.tail rest).map (String.ofList cs :: ·)
      else none
  | ('-' :: cs) :: rest =>
      if old.head? = some (String.ofList cs) then patchFrom? (done + 1) old.tail rest else none
  | ('+' :: cs) :: rest => (patchFrom? done old rest).map (String.ofList cs :: ·)
  | _ => none

/-- The new text, from the old one and the lines of a diff behind its two headers. -/
def patch? (diff before : String) : Option String :=
  (patchFrom? 0 (lines before) ((Text.cutLines Text.isFeed diff.toList).drop 2)).map String.join

variable {done : Nat} {rest : List (List Char)}

/-- Lines that are kept have to come next in the old text, and come into the new one. -/
theorem patchFrom?_kept (kept : List String) :
    patchFrom? done (kept ++ old) ((kept.map (" " ++ ·)).map String.toList ++ rest) =
      (patchFrom? (done + kept.length) old rest).map (kept ++ ·) := by
  induction kept generalizing done with
  | nil => simp
  | cons line kept ih =>
      simp only [List.map_cons, List.cons_append, String.toList_append]
      change patchFrom? done _ ((' ' :: line.toList) :: _) = _
      rw [patchFrom?, if_pos (by simp), List.tail_cons, ih]
      simp [Nat.add_assoc, Nat.add_comm 1, Function.comp_def]

/-- Lines that are removed have to come next in the old text, and are dropped. -/
theorem patchFrom?_removed (removed : List String) :
    patchFrom? done (removed ++ old) ((removed.map ("-" ++ ·)).map String.toList ++ rest) =
      patchFrom? (done + removed.length) old rest := by
  induction removed generalizing done with
  | nil => simp
  | cons line removed ih =>
      simp only [List.map_cons, List.cons_append, String.toList_append]
      change patchFrom? done _ (('-' :: line.toList) :: _) = _
      rw [patchFrom?, if_pos (by simp), List.tail_cons, ih]
      simp [Nat.add_assoc, Nat.add_comm 1]

/-- Lines that are added come into the new text, whatever the old one holds. -/
theorem patchFrom?_added (added : List String) :
    patchFrom? done old ((added.map ("+" ++ ·)).map String.toList ++ rest) =
      (patchFrom? done old rest).map (added ++ ·) := by
  induction added with
  | nil => simp
  | cons line added ih =>
      simp only [List.map_cons, List.cons_append, String.toList_append]
      change patchFrom? done _ (('+' :: line.toList) :: _) = _
      rw [patchFrom?, ih]
      simp [Function.comp_def]

/-- The lines of a piece lead over its old lines and give its new ones. -/
theorem patchFrom?_marked (piece : Piece) :
    patchFrom? done (piece.old ++ old) (piece.marked.map String.toList ++ rest) =
      (patchFrom? (done + piece.old.length) old rest).map (piece.new ++ ·) := by
  cases piece with
  | keep kept => exact patchFrom?_kept kept
  | change removed added =>
      rw [Piece.marked, List.map_append, List.append_assoc]
      simp only [Piece.old, Piece.new]
      rw [patchFrom?_removed, patchFrom?_added]

/-- The marked lines of pieces take their old lines and put their new ones. -/
theorem patchFrom?_pieces (ps : List Piece) :
    patchFrom? done (ps.flatMap Piece.old ++ old)
      ((ps.flatMap Piece.marked).map String.toList ++ rest) =
      (patchFrom? (done + (ps.flatMap Piece.old).length) old rest).map
        (ps.flatMap Piece.new ++ ·) := by
  induction ps generalizing done with
  | nil => simp
  | cons piece ps ih =>
      simp only [List.flatMap_cons, List.map_append, List.append_assoc, List.length_append]
      rw [patchFrom?_marked, ih]
      simp [Nat.add_assoc, Function.comp_def]

/-- A header of a hunk keeps the old lines up to the place of the hunk. -/
theorem patchFrom?_header (h : Hunk) (hstart : h.oldStart = done + skipped.length) :
    patchFrom? done (skipped ++ old) (h.header.toList :: rest) =
      (patchFrom? h.oldStart old rest).map (skipped ++ ·) := by
  have hheader : ∃ cs, h.header.toList = '@' :: '@' :: ' ' :: '-' ::
      ((range h.oldStart h.old.length).toList ++ ' ' :: cs) := by
    refine ⟨'+' :: ((range h.newStart h.new.length).toList ++ " @@\n".toList), ?_⟩
    simp [Hunk.header]
  obtain ⟨cs, hcs⟩ := hheader
  rw [hcs, patchFrom?, oldStart_range, hstart]
  simp

/-- The lines of the hunks lead over the old lines and give the new ones. -/
theorem Covers.patchFrom?_eq (hcovers : Covers i j old new hs) :
    patchFrom? i old ((hs.flatMap Hunk.written).map String.toList) = some new := by
  induction hcovers with
  | same => simp [patchFrom?]
  | hunk skipped hold _ _ ih =>
      simp only [List.flatMap_cons, List.map_append, Hunk.written, List.map_cons, List.cons_append]
      rw [patchFrom?_header _ hold, Hunk.old, patchFrom?_pieces, ← Hunk.old, ih]
      simp [Hunk.new]

/-! ## The diff of two texts -/

/-- A text is its lines. -/
theorem join_lines (text : String) : String.join (lines text) = text := by
  rw [← String.toList_inj, String.toList_join, lines, List.flatMap_map]
  simp [List.flatMap_id', Text.flatten_cutLines]

/-- Two texts are the same outside the hunks of their diff. -/
theorem covers_changes (before after : String) :
    Covers 0 0 (lines before) (lines after) (changes before after) := by
  have hcovers := covers_hunks (script (lines before) (lines after))
  rwa [flatMap_old_script, flatMap_new_script] at hcovers

/-- Different texts have a hunk. -/
theorem changes_ne_nil (hne : before ≠ after) : changes before after ≠ [] := by
  intro hnil
  have hcovers := covers_changes before after
  rw [hnil] at hcovers
  generalize hbefore : lines before = old at hcovers
  generalize hafter : lines after = new at hcovers
  cases hcovers
  exact hne (by rw [← join_lines before, ← join_lines after, hbefore, hafter])

/-- The lines of a hunk are lines of the texts. -/
theorem Covers.mem (hcovers : Covers i j old new hs) (hmem : h ∈ hs) :
    (∀ line ∈ h.old, line ∈ old) ∧ ∀ line ∈ h.new, line ∈ new := by
  induction hcovers with
  | same => cases hmem
  | hunk skipped _ _ _ ih =>
      rcases List.mem_cons.1 hmem with rfl | hmem
      · exact ⟨fun line hline => by simp [hline], fun line hline => by simp [hline]⟩
      · obtain ⟨hold, hnew⟩ := ih hmem
        exact ⟨fun line hline => by simp [hold line hline],
          fun line hline => by simp [hnew line hline]⟩

/-- A line of a piece is a line of one of the texts with a mark in front. -/
theorem exists_mark {piece : Piece} {line : String} (hline : line ∈ piece.marked) :
    ∃ mark ∈ [' ', '-', '+'], ∃ shown, (shown ∈ piece.old ∨ shown ∈ piece.new) ∧
      line.toList = mark :: shown.toList := by
  cases piece with
  | keep kept =>
      obtain ⟨shown, hshown, rfl⟩ := List.mem_map.1 hline
      exact ⟨' ', by simp, shown, .inl hshown, by simp⟩
  | change removed added =>
      rcases List.mem_append.1 hline with hline | hline
      · obtain ⟨shown, hshown, rfl⟩ := List.mem_map.1 hline
        exact ⟨'-', by simp, shown, .inl hshown, by simp⟩
      · obtain ⟨shown, hshown, rfl⟩ := List.mem_map.1 hline
        exact ⟨'+', by simp, shown, .inr hshown, by simp⟩

/-- A header of a hunk or of a file: a line that ends with its only line feed. -/
def IsHeader (line : String) : Prop :=
  ∃ front, line.toList = front ++ ['\n'] ∧ '\n' ∉ front

/-- The range in a header holds no line feed. -/
theorem feed_not_mem_range (start length : Nat) : '\n' ∉ (range start length).toList := by
  have hdigits (n : Nat) : '\n' ∉ (toString n).toList := by
    intro hmem
    exact absurd (Text.isDigit_of_mem_toString hmem) (by decide)
  rw [range]
  split
  · exact hdigits _
  · simp only [String.toList_append, List.mem_append, not_or]
    exact ⟨⟨hdigits _, by decide⟩, hdigits _⟩

/-- The header of a hunk is a single line. -/
theorem Hunk.isHeader_header (h : Hunk) : IsHeader h.header := by
  refine ⟨("@@ -" ++ range h.oldStart h.old.length ++ " +" ++ range h.newStart h.new.length ++
    " @@").toList, ?_, ?_⟩
  · simp [Hunk.header]
  · simp only [String.toList_append, List.mem_append, not_or]
    exact ⟨⟨⟨⟨by decide, feed_not_mem_range _ _⟩, by decide⟩, feed_not_mem_range _ _⟩, by decide⟩

/-- The header of a file is a single line when its path holds no line feed. -/
theorem isHeader_append {lead : String} (hlead : '\n' ∉ lead.toList)
    (hpath : '\n' ∉ path.toList) : IsHeader (lead ++ path ++ "\n") := by
  refine ⟨(lead ++ path).toList, by simp, ?_⟩
  rw [String.toList_append, List.mem_append, not_or]
  exact ⟨hlead, hpath⟩

/-- Every written line is a header, or a line of one of the texts with a mark in front. -/
theorem header_or_marked (hpath : '\n' ∉ path.toList) {line : String}
    (hline : line ∈ written path (changes before after)) :
    IsHeader line ∨ ∃ mark ∈ [' ', '-', '+'], ∃ shown,
      (shown ∈ lines before ∨ shown ∈ lines after) ∧ line.toList = mark :: shown.toList := by
  have hcovers := covers_changes before after
  generalize changes before after = hs at hline hcovers
  cases hs with
  | nil => cases hline
  | cons h hs =>
      rcases List.mem_append.1 hline with hline | hline
      · simp only [List.mem_cons, List.not_mem_nil, or_false] at hline
        rcases hline with rfl | rfl
        · exact .inl (isHeader_append (by decide) hpath)
        · exact .inl (isHeader_append (by decide) hpath)
      · obtain ⟨h', hmem, hline⟩ := List.mem_flatMap.1 hline
        obtain ⟨hold, hnew⟩ := hcovers.mem hmem
        rcases List.mem_cons.1 hline with rfl | hline
        · exact .inl h'.isHeader_header
        · obtain ⟨piece, hpiece, hline⟩ := List.mem_flatMap.1 hline
          obtain ⟨mark, hmark, shown, hshown, htext⟩ := exists_mark hline
          refine .inr ⟨mark, hmark, shown, hshown.imp (fun h => ?_) (fun h => ?_), htext⟩
          · exact hold shown (List.mem_flatMap.2 ⟨piece, hpiece, h⟩)
          · exact hnew shown (List.mem_flatMap.2 ⟨piece, hpiece, h⟩)

/-- A header is a single line of text. -/
theorem IsHeader.oneLine {line : String} (h : IsHeader line) : Text.OneLine line.toList := by
  obtain ⟨front, heq, hfront⟩ := h
  rw [heq]
  exact ⟨by simp, by simpa using hfront⟩

/-- A header ends with its line feed. -/
theorem IsHeader.getLast? {line : String} (h : IsHeader line) :
    line.toList.getLast? = some '\n' := by
  obtain ⟨front, heq, -⟩ := h
  simp [heq]

/-- The lines of a text are single lines. -/
theorem oneLine_of_mem_lines {text line : String} (h : line ∈ lines text) :
    Text.OneLine line.toList := by
  obtain ⟨cs, hcs, rfl⟩ := List.mem_map.1 h
  rw [String.toList_ofList]
  exact ⟨Text.ne_nil_of_mem_cutLines hcs, Text.feed_not_mem_dropLast (by decide) hcs⟩

/-- A mark in front of a line. -/
theorem oneLine_cons {mark : Char} {cs : List Char} (hmark : mark ≠ '\n') (h : Text.OneLine cs) :
    Text.OneLine (mark :: cs) := by
  refine ⟨by simp, ?_⟩
  rw [List.dropLast_cons_of_ne_nil h.1, List.mem_cons, not_or]
  exact ⟨hmark.symm, h.2⟩

/-- Everything that is written for a path without a line feed is a single line. -/
theorem oneLine_of_mem_written (hpath : '\n' ∉ path.toList) {line : String}
    (hline : line ∈ written path (changes before after)) : Text.OneLine line.toList := by
  rcases header_or_marked hpath hline with hheader | ⟨mark, hmark, shown, hshown, htext⟩
  · exact hheader.oneLine
  · rw [htext]
    refine oneLine_cons ?_ (hshown.elim oneLine_of_mem_lines oneLine_of_mem_lines)
    intro heq
    rw [heq] at hmark
    exact absurd hmark (by decide)

/-- The lines of a diff can be told apart by their line feeds exactly when each of them but the last
ends with one. Nothing is added to a line of the texts that ends with another character. -/
theorem cutLines_unified_iff (hpath : '\n' ∉ path.toList) :
    Text.cutLines Text.isFeed (unified path before after).toList =
        (written path (changes before after)).map String.toList ↔
      ∀ line ∈ (written path (changes before after)).dropLast,
        line.toList.getLast? = some '\n' := by
  have hwhole : ∀ line ∈ (written path (changes before after)).map String.toList,
      Text.OneLine line := by
    simp only [List.forall_mem_map]
    exact fun line hline => oneLine_of_mem_written hpath hline
  rw [toList_unified, List.flatMap_def, Text.cutLines_flatten_iff hwhole, ← List.map_dropLast,
    List.forall_mem_map]

/-- Between two texts of one line without a line break the added line stands behind the removed one,
on the same line of the diff. -/
theorem unified_of_unbroken (hne : before ≠ after) (hbefore : lines before = [before])
    (hafter : lines after = [after]) :
    unified path before after =
      "--- a/" ++ path ++ "\n+++ b/" ++ path ++ "\n@@ -1 +1 @@\n-" ++ before ++ "+" ++ after := by
  have hscript : script [before] [after] = [.change [before] [after]] :=
    script_of_disjoint (by simpa using hne)
  rw [unified, hbefore, hafter, hscript, ← String.toList_inj]
  have hrange : Nat.toDigits 10 1 = ['1'] := rfl
  simp [hunks, hunksFrom, Hunk.push, Hunk.text, range, Piece.marked, hrange]

/-- When the lines of a diff can be told apart, the new text is rebuilt from the old one. -/
theorem patch?_unified (hpath : '\n' ∉ path.toList)
    (hfeeds : ∀ line ∈ (written path (changes before after)).dropLast,
      line.toList.getLast? = some '\n') :
    patch? (unified path before after) before = some after := by
  have hcovers := covers_changes before after
  have hcut := (cutLines_unified_iff hpath).2 hfeeds
  have hdrop : ((written path (changes before after)).map String.toList).drop 2 =
      ((changes before after).flatMap Hunk.written).map String.toList := by
    cases changes before after with
    | nil => rfl
    | cons h hs => rfl
  rw [patch?, hcut, hdrop, hcovers.patchFrom?_eq, Option.map_some, join_lines]

/-- The diff of different texts of which every line ends with a line feed: two headers, and then the
hunks outside which the texts are the same, with each shown line on a line of its own. The new text
is rebuilt from the old one. -/
theorem unified_of_feeds (hpath : '\n' ∉ path.toList) (hne : before ≠ after)
    (hbefore : ∀ line ∈ lines before, line.toList.getLast? = some '\n')
    (hafter : ∀ line ∈ lines after, line.toList.getLast? = some '\n') :
    ∃ hs, hs ≠ [] ∧ Covers 0 0 (lines before) (lines after) hs ∧
      Text.cutLines Text.isFeed (unified path before after).toList =
        (["--- a/" ++ path ++ "\n", "+++ b/" ++ path ++ "\n"] ++
          hs.flatMap Hunk.written).map String.toList ∧
      patch? (unified path before after) before = some after := by
  have hfeeds : ∀ line ∈ (written path (changes before after)).dropLast,
      line.toList.getLast? = some '\n' := by
    intro line hline
    rcases header_or_marked hpath (List.mem_of_mem_dropLast hline) with
      hheader | ⟨mark, _, shown, hshown, htext⟩
    · exact hheader.getLast?
    · rw [htext, List.getLast?_cons, hshown.elim (hbefore shown) (hafter shown)]
      rfl
  have hhunks := changes_ne_nil hne
  refine ⟨changes before after, hhunks, covers_changes before after, ?_,
    patch?_unified hpath hfeeds⟩
  rw [(cutLines_unified_iff hpath).2 hfeeds]
  cases hchanges : changes before after with
  | nil => exact absurd hchanges hhunks
  | cons h hs => rfl

end PhpDoc.Diff
