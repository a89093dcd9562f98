import Mathlib.Data.List.Basic
import PhpDoc.Proofs.Text.Lines

/-!
# Lines that end with a line feed

A reader that knows only line feeds cuts a text behind each of them. When lines are written one
after the other, such a reader gets the same lines exactly when all of them but the last end with a
line feed (`cutLines_flatten_iff`).
-/

namespace PhpDoc.Text

/-- A line feed that is a line break stands in a line only at its end. -/
theorem feed_not_mem_dropLast {isBreak : Char → Bool} {cs line : List Char}
    (hfeed : isBreak '\n' = true) (h : line ∈ cutLines isBreak cs) : '\n' ∉ line.dropLast := by
  fun_induction cutLines isBreak cs generalizing line with
  | case1 => cases h
  | case2 cs ih =>
      rcases List.mem_cons.1 h with rfl | h
      · simp
      · exact ih h
  | case3 c cs _ hc ih =>
      rcases List.mem_cons.1 h with rfl | h
      · simp
      · exact ih h
  | case4 c cs _ hc hlines ih =>
      rw [List.mem_singleton.1 h]
      simp
  | case5 c cs _ hc first lines hlines ih =>
      rw [hlines] at ih
      rcases List.mem_cons.1 h with rfl | h
      · have hfirst : first ∈ cutLines isBreak cs := hlines ▸ List.mem_cons_self
        rw [List.dropLast_cons_of_ne_nil (ne_nil_of_mem_cutLines hfirst), List.mem_cons, not_or]
        have hne : '\n' ≠ c := by
          intro heq
          exact hc (heq ▸ hfeed)
        exact ⟨hne, ih List.mem_cons_self⟩
      · exact ih (List.mem_cons_of_mem first h)

/-- A line feed, and no other line break. -/
def isFeed (c : Char) : Bool :=
  c = '\n'

/-- Only the last line may go without a line feed. -/
theorem eq_nil_or_getLast?_of_cutLines {cs line : List Char} {lines : List (List Char)}
    (h : cutLines isFeed cs = line :: lines) : lines = [] ∨ line.getLast? = some '\n' := by
  fun_induction cutLines isFeed cs generalizing line lines with
  | case1 => cases h
  | case2 cs ih =>
      cases h
      exact .inr rfl
  | case3 c cs _ hc ih =>
      cases h
      exact .inr (by simpa [isFeed] using hc)
  | case4 c cs _ hc hlines ih =>
      cases h
      exact .inl rfl
  | case5 c cs _ hc first others hlines ih =>
      cases h
      refine (ih hlines).imp_right fun hlast => ?_
      rw [List.getLast?_cons, hlast]
      rfl

/-- A line with its line feed is the first one. -/
theorem cutLines_append_feed {line : List Char} (h : '\n' ∉ line) (rest : List Char) :
    cutLines isFeed (line ++ '\n' :: rest) = (line ++ ['\n']) :: cutLines isFeed rest := by
  induction line with
  | nil => simp [cutLines, isFeed]
  | cons c line ih =>
      obtain ⟨hc, hline⟩ := List.ne_and_not_mem_of_not_mem_cons h
      have hcs := ih hline
      rw [List.cons_append]
      conv_lhs => rw [cutLines.eq_def]
      split
      · next heq => cases heq
      · next cs heq =>
          -- a carriage return right in front of the line feed belongs to the same break
          obtain ⟨rfl, htail⟩ := List.cons.inj heq
          cases line with
          | nil =>
              cases htail
              rfl
          | cons d line =>
              cases htail
              simp at hline
      · next heq =>
          cases heq
          rw [hcs]
          simp [isFeed, Ne.symm hc]

/-- A text without a line feed is a single line. -/
theorem cutLines_of_feed_not_mem {line : List Char} (h : '\n' ∉ line) (hne : line ≠ []) :
    cutLines isFeed line = [line] := by
  have hflat := flatten_cutLines isFeed line
  cases hlines : cutLines isFeed line with
  | nil =>
      rw [hlines] at hflat
      exact absurd hflat.symm hne
  | cons first others =>
      rw [hlines] at hflat
      rcases eq_nil_or_getLast?_of_cutLines hlines with rfl | hlast
      · simpa using hflat
      · refine absurd ?_ h
        rw [← hflat]
        exact List.mem_append_left _ (List.mem_of_getLast? hlast)

/-- The line is not empty, and a line feed stands in it only at its end. -/
def OneLine (line : List Char) : Prop :=
  line ≠ [] ∧ '\n' ∉ line.dropLast

/-- A single line that does not end with its line feed has none. -/
theorem OneLine.feed_not_mem {line : List Char} (h : OneLine line)
    (hlast : line.getLast? ≠ some '\n') : '\n' ∉ line := by
  intro hmem
  have hsplit := List.dropLast_append_getLast h.1
  rw [← hsplit, List.mem_append, List.mem_singleton] at hmem
  rcases hmem with hmem | hmem
  · exact h.2 hmem
  · rw [List.getLast?_eq_some_getLast h.1, ← hmem] at hlast
    exact hlast rfl

/-- Lines that are written one after the other can be told apart exactly when all of them but the
last end with a line feed. -/
theorem cutLines_flatten_iff {lines : List (List Char)} (h : ∀ line ∈ lines, OneLine line) :
    cutLines isFeed lines.flatten = lines ↔
      ∀ line ∈ lines.dropLast, line.getLast? = some '\n' := by
  induction lines with
  | nil => simp [cutLines]
  | cons line lines ih =>
      obtain ⟨hline, hlines⟩ := List.forall_mem_cons.1 h
      by_cases hlast : line.getLast? = some '\n'
      · have hcut : cutLines isFeed (line :: lines).flatten =
            line :: cutLines isFeed lines.flatten := by
          rw [List.flatten_cons, ← List.dropLast_append_getLast? _ hlast, List.append_assoc]
          exact cutLines_append_feed hline.2 _
        rw [hcut, List.cons_inj_right, ih hlines]
        cases lines with
        | nil => simp
        | cons next others => simp [hlast]
      · cases lines with
        | nil => simp [cutLines_of_feed_not_mem (hline.feed_not_mem hlast) hline.1]
        | cons next others =>
            refine iff_of_false (fun hcut => ?_) (fun hall => ?_)
            · rcases eq_nil_or_getLast?_of_cutLines hcut with hnil | hfeed
              · cases hnil
              · exact hlast hfeed
            · exact hlast (hall line (by simp))

end PhpDoc.Text
