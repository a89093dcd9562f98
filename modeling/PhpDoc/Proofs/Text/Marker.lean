import Mathlib.Data.List.Infix
import PhpDoc.Text.Cut

/-!
# Close markers in text

A text is unclosed when no close marker of a comment stands in it. A comment ends right behind its
body exactly when the body is unclosed (`offsetOf?_close`). Texts that are put together are unclosed
when their parts are and no marker is joined where two of them meet (`unclosed_append`).
-/

namespace PhpDoc.Lexer

open Text

/-- The offset of the first occurrence is that of an occurrence. -/
theorem offsetOf?_eq_some {needle cs : List Char} {offset : Nat}
    (h : offsetOf? needle cs = some offset) : ∃ rest, cs = cs.take offset ++ (needle ++ rest) := by
  induction cs generalizing offset with
  | nil =>
      simp only [offsetOf?] at h
      split at h
      · next hemp =>
          have : needle = [] := by simpa using hemp
          exact ⟨[], by simp [this]⟩
      · cases h
  | cons c cs ih =>
      rw [offsetOf?] at h
      split at h
      · next hlead =>
          obtain ⟨rest, hrest⟩ := List.isPrefixOf_iff_prefix.1 hlead
          cases h
          exact ⟨rest, by simp [hrest]⟩
      · obtain ⟨k, hk, rfl⟩ := Option.map_eq_some_iff.1 h
        obtain ⟨rest, hrest⟩ := ih hk
        exact ⟨rest, by rw [List.take_succ_cons, List.cons_append, ← hrest]⟩

/-- A piece of text has no offset exactly when it does not occur. -/
theorem offsetOf?_eq_none_iff {needle cs : List Char} :
    offsetOf? needle cs = none ↔ ¬ needle <:+: cs := by
  induction cs with
  | nil =>
      cases needle with
      | nil => simp [offsetOf?]
      | cons d needle => simp [offsetOf?]
  | cons c cs ih =>
      rw [offsetOf?, List.infix_cons_iff, not_or, ← List.isPrefixOf_iff_prefix]
      split
      · next hlead => simp [hlead]
      · next hlead => simp [hlead, ih]

/-- Up to the first occurrence and over it there is only this one. -/
theorem offsetOf?_take {needle cs : List Char} {offset : Nat}
    (h : offsetOf? needle cs = some offset) :
    offsetOf? needle (cs.take offset ++ needle) = some (cs.take offset).length := by
  induction cs generalizing offset with
  | nil =>
      simp only [offsetOf?] at h
      split at h
      · next hemp =>
          have : needle = [] := by simpa using hemp
          simp [this, offsetOf?]
      · cases h
  | cons c cs ih =>
      rw [offsetOf?] at h
      split at h
      · cases h
        cases needle with
        | nil => simp [offsetOf?]
        | cons d needle => simp [offsetOf?]
      · next hno =>
          obtain ⟨k, hk, rfl⟩ := Option.map_eq_some_iff.1 h
          obtain ⟨rest, hrest⟩ := offsetOf?_eq_some hk
          have hno' : ¬ needle.isPrefixOf (c :: (cs.take k ++ needle)) = true := by
            intro hlead
            apply hno
            rw [List.isPrefixOf_iff_prefix] at hlead ⊢
            refine hlead.trans ⟨rest, ?_⟩
            rw [List.cons_append, List.append_assoc, ← hrest]
          rw [List.take_succ_cons, List.cons_append, offsetOf?, if_neg hno', ih hk]
          simp

/-- No close marker stands in the text. -/
def Unclosed (cs : List Char) : Prop :=
  ¬ ['*', '/'] <:+: cs

/-- The empty text holds no close marker. -/
@[simp] theorem unclosed_nil : Unclosed [] := by
  simp [Unclosed]

/-- A text holds no close marker when none starts at its first character or behind it. -/
theorem unclosed_cons {c : Char} {cs : List Char} :
    Unclosed (c :: cs) ↔ ¬ (c = '*' ∧ cs.head? = some '/') ∧ Unclosed cs := by
  unfold Unclosed
  rw [List.infix_cons_iff, not_or]
  refine and_congr_left fun _ => not_congr ?_
  constructor
  · rintro ⟨rest, hrest⟩
    simp only [List.cons_append, List.nil_append, List.cons.injEq] at hrest
    obtain ⟨rfl, rfl⟩ := hrest
    exact ⟨rfl, rfl⟩
  · rintro ⟨rfl, hhead⟩
    obtain ⟨rest, rfl⟩ := List.head?_eq_some_iff.1 hhead
    exact ⟨rest, rfl⟩

/-- A close marker stands in one of two texts, or it is joined where they meet. -/
theorem unclosed_append {cs ds : List Char} :
    Unclosed (cs ++ ds) ↔ Unclosed cs ∧ Unclosed ds ∧
      ¬ (cs.getLast? = some '*' ∧ ds.head? = some '/') := by
  induction cs with
  | nil => simp
  | cons c cs ih =>
      rw [List.cons_append, unclosed_cons, unclosed_cons, ih]
      cases cs with
      | nil => simp [and_comm]
      | cons d cs =>
          simp only [List.cons_append, List.head?_cons, List.getLast?_cons_cons, and_assoc]

/-- A comment ends right behind its body exactly when no close marker stands in the body. -/
theorem offsetOf?_close (body rest : List Char) :
    offsetOf? ['*', '/'] (body ++ '*' :: '/' :: rest) = some body.length ↔ Unclosed body := by
  induction body with
  | nil => simp [offsetOf?]
  | cons c body ih =>
      have hlead : ['*', '/'].isPrefixOf (c :: (body ++ '*' :: '/' :: rest)) = true ↔
          c = '*' ∧ body.head? = some '/' := by
        cases body with
        | nil => simp
        | cons d body => simp [@eq_comm _ '*', @eq_comm _ '/']
      rw [unclosed_cons, ← hlead, List.cons_append, offsetOf?]
      split
      · next h => simp [h]
      · next h =>
          rw [← ih, Option.map_eq_some_iff]
          simp [h]

/-- The text up to the first close marker holds none. -/
theorem unclosed_take {cs : List Char} {offset : Nat} (h : offsetOf? ['*', '/'] cs = some offset) :
    Unclosed (cs.take offset) := by
  have htake := offsetOf?_take h
  exact (offsetOf?_close (cs.take offset) []).1 htake

/-- A piece of a text without close markers has none. -/
theorem Unclosed.of_isInfix {cs ds : List Char} (h : cs <:+: ds) (hds : Unclosed ds) :
    Unclosed cs :=
  fun hcs => hds (hcs.trans h)

/-- A text without slashes holds no close marker. -/
theorem unclosed_of_not_mem {cs : List Char} (h : '/' ∉ cs) : Unclosed cs :=
  fun hcs => h (hcs.subset (by simp))

/-- A text without slashes behind another one makes no close marker. -/
theorem unclosed_append_left {cs ds : List Char} (hcs : Unclosed cs) (hds : '/' ∉ ds) :
    Unclosed (cs ++ ds) :=
  unclosed_append.2 ⟨hcs, unclosed_of_not_mem hds, fun h => hds (List.mem_of_head? h.2)⟩

/-- A text without slashes in front of another one makes no close marker unless it ends with a star.
-/
theorem unclosed_append_right {cs ds : List Char} (hcs : '/' ∉ cs) (hlast : cs.getLast? ≠ some '*')
    (hds : Unclosed ds) : Unclosed (cs ++ ds) :=
  unclosed_append.2 ⟨unclosed_of_not_mem hcs, hds, fun h => hlast h.1⟩

end PhpDoc.Lexer
