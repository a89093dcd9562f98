import PhpDoc.Text.Cut
import PhpDoc.Token.Basic
import Mathlib.Data.List.TakeWhile

/-!
# Lines and line breaks

A text is a row of lines, each with the break that ends it. A line break is a carriage return with
its line feed, a line feed, or a carriage return. `cutLines_cons` says how the first line is cut
off, `exists_line` that a text either has no break or starts with a line that can be cut off, and
`advance_ending` how a position moves over a line break.
-/

namespace PhpDoc.Text

/-- There are finitely many characters, but what holds of those of a text is decided by going
through the text and not through all of them. -/
instance decidableForallMem (P : Char → Prop) [DecidablePred P] (cs : List Char) :
    Decidable (∀ c ∈ cs, P c) :=
  List.decidableBAll P cs

/-- The texts of a single line break. -/
def IsEnding (cs : List Char) : Prop :=
  cs = ['\r', '\n'] ∨ cs = ['\n'] ∨ cs = ['\r']

/-- Whether a text is a line break is found by comparing it with each of them. -/
instance (cs : List Char) : Decidable (IsEnding cs) :=
  inferInstanceAs (Decidable (_ ∨ _ ∨ _))

/-- No character of the text is part of a line break. -/
def Unbroken (cs : List Char) : Prop :=
  ∀ c ∈ cs, isLineBreak c = false

/-- Whether a text has a line break is found by looking at its characters. -/
instance (cs : List Char) : Decidable (Unbroken cs) :=
  List.decidableBAll (fun c => isLineBreak c = false) cs

/-- The text `rest` does not complete the line break `ending`. -/
def Separate (ending rest : List Char) : Prop :=
  ending = ['\r'] → rest.head? ≠ some '\n'

/-- The empty text has no line break. -/
@[simp] theorem unbroken_nil : Unbroken [] := by
  simp [Unbroken]

/-- A text has no line break when neither its first character nor the rest has one. -/
@[simp] theorem unbroken_cons {c : Char} {cs : List Char} :
    Unbroken (c :: cs) ↔ isLineBreak c = false ∧ Unbroken cs := by
  simp [Unbroken]

/-- Two texts have no line break together when neither of them has one. -/
@[simp] theorem unbroken_append {cs ds : List Char} :
    Unbroken (cs ++ ds) ↔ Unbroken cs ∧ Unbroken ds := by
  simp only [Unbroken, List.mem_append]
  constructor
  · intro h
    exact ⟨fun c hc => h c (.inl hc), fun c hc => h c (.inr hc)⟩
  · rintro ⟨h₁, h₂⟩ c (hc | hc)
    · exact h₁ c hc
    · exact h₂ c hc

/-- Nothing follows a line break that could join it. -/
theorem Separate.nil (ending : List Char) : Separate ending [] := by
  simp [Separate]

/-- A text without line breaks is separate from whatever follows it. -/
theorem Separate.of_unbroken {cs : List Char} (h : Unbroken cs) (rest : List Char) :
    Separate cs rest := by
  rintro rfl
  simp [isLineBreak] at h

/-- Only the first character behind a line break can complete it. -/
theorem separate_append {ending cs ds : List Char} (hcs : cs ≠ []) :
    Separate ending (cs ++ ds) ↔ Separate ending cs := by
  obtain ⟨c, cs, rfl⟩ := List.exists_cons_of_ne_nil hcs
  simp [Separate]

/-- A part of an unbroken text is unbroken. -/
theorem Unbroken.sublist {cs ds : List Char} (h : Unbroken cs) (hsub : ds.Sublist cs) :
    Unbroken ds :=
  fun c hc => h c (hsub.mem hc)

/-- Blanks are no line breaks. -/
theorem isLineBreak_of_isBlank {c : Char} (h : isBlank c = true) : isLineBreak c = false := by
  simp only [isBlank, Bool.or_eq_true, decide_eq_true_eq] at h
  rcases h with rfl | rfl <;> rfl

/-- Blanks break no line. -/
theorem unbroken_of_blank {cs : List Char} (h : ∀ c ∈ cs, isBlank c = true) : Unbroken cs :=
  fun c hc => isLineBreak_of_isBlank (h c hc)

/-- The end of a line is not empty. -/
theorem IsEnding.ne_nil {cs : List Char} (h : IsEnding cs) : cs ≠ [] := by
  rcases h with rfl | rfl | rfl <;> simp

/-- A line break starts with one of its characters. -/
theorem IsEnding.exists_cons {cs : List Char} (h : IsEnding cs) :
    ∃ c tail, cs = c :: tail ∧ isLineBreak c = true := by
  rcases h with rfl | rfl | rfl
  · exact ⟨_, _, rfl, rfl⟩
  · exact ⟨_, _, rfl, rfl⟩
  · exact ⟨_, _, rfl, rfl⟩

/-- Every character of a line break is a break character. -/
theorem IsEnding.isLineBreak_of_mem {cs : List Char} (h : IsEnding cs) :
    ∀ c ∈ cs, isLineBreak c = true := by
  rcases h with rfl | rfl | rfl <;> simp [isLineBreak]

/-- A line break is not unbroken. -/
theorem IsEnding.not_unbroken {cs : List Char} (h : IsEnding cs) : ¬ Unbroken cs := by
  obtain ⟨c, tail, rfl, hc⟩ := h.exists_cons
  intro hcs
  simp [hc] at hcs

/-- Lines that are cut off make up the text. -/
theorem flatten_cutLines (isBreak : Char → Bool) (cs : List Char) :
    (cutLines isBreak cs).flatten = cs := by
  fun_induction cutLines isBreak cs with
  | case1 => rfl
  | case2 cs ih => simp [ih]
  | case3 c cs _ hc ih => simp [ih]
  | case4 c cs _ hc hlines ih =>
      rw [hlines] at ih
      simp [← ih]
  | case5 c cs _ hc line lines hlines ih =>
      rw [hlines] at ih
      simpa using ih

/-- No line is empty. -/
theorem ne_nil_of_mem_cutLines {isBreak : Char → Bool} {cs line : List Char}
    (h : line ∈ cutLines isBreak cs) : line ≠ [] := by
  fun_induction cutLines isBreak cs with
  | case1 => simp at h
  | case2 cs ih =>
      rcases List.mem_cons.1 h with rfl | h
      · simp
      · exact ih h
  | case3 c cs _ hc ih =>
      rcases List.mem_cons.1 h with rfl | h
      · simp
      · exact ih h
  | case4 c cs _ hc hlines ih => simp_all
  | case5 c cs _ hc first lines hlines ih =>
      rcases List.mem_cons.1 h with rfl | h
      · simp
      · exact ih (by rw [hlines]; exact List.mem_cons_of_mem _ h)

/-- The first line of a text that has a line break. -/
theorem cutLines_ending {ending rest : List Char} (hending : IsEnding ending)
    (hsep : Separate ending rest) :
    cutLines isLineBreak (ending ++ rest) = ending :: cutLines isLineBreak rest := by
  rcases hending with rfl | rfl | rfl
  · rfl
  · simp [cutLines, isLineBreak]
  · cases rest with
    | nil => rfl
    | cons c rest =>
        have hc : c ≠ '\n' := by
          have := hsep rfl
          simpa using this
        simp [cutLines, isLineBreak, hc]

/-- A text starts with its first line. -/
theorem cutLines_cons {line ending rest : List Char} (hline : Unbroken line)
    (hending : IsEnding ending) (hsep : Separate ending rest) :
    cutLines isLineBreak (line ++ ending ++ rest) =
      (line ++ ending) :: cutLines isLineBreak rest := by
  induction line with
  | nil => simpa using cutLines_ending hending hsep
  | cons c line ih =>
      obtain ⟨hc, hline⟩ := unbroken_cons.1 hline
      have hne : c ≠ '\r' := by
        rintro rfl
        simp [isLineBreak] at hc
      have hrest := ih hline
      simp only [List.cons_append]
      rw [cutLines]
      · rw [hrest]
        simp [hc]
      · simp [hne]

/-- A text without a line break is a single line. -/
theorem cutLines_unbroken {line : List Char} (hline : Unbroken line) (hne : line ≠ []) :
    cutLines isLineBreak line = [line] := by
  induction line with
  | nil => simp at hne
  | cons c line ih =>
      obtain ⟨hc, hline⟩ := unbroken_cons.1 hline
      have hcr : c ≠ '\r' := by
        rintro rfl
        simp [isLineBreak] at hc
      rw [cutLines]
      · cases line with
        | nil => simp [hc, cutLines]
        | cons d line => simp [hc, ih hline (by simp)]
      · simp [hcr]

/-- A text has no line break, or its first line can be cut off. -/
theorem exists_line (cs : List Char) :
    Unbroken cs ∨ ∃ line ending rest, cs = line ++ ending ++ rest ∧ Unbroken line ∧
      IsEnding ending ∧ Separate ending rest := by
  induction cs with
  | nil => exact .inl unbroken_nil
  | cons c cs ih =>
      by_cases hc : isLineBreak c = true
      · right
        simp only [isLineBreak, Bool.or_eq_true, decide_eq_true_eq] at hc
        rcases hc with rfl | rfl
        · exact ⟨[], ['\n'], cs, rfl, unbroken_nil, .inr (.inl rfl), by simp [Separate]⟩
        · by_cases hlf : cs.head? = some '\n'
          · obtain ⟨tail, rfl⟩ := List.head?_eq_some_iff.1 hlf
            exact ⟨[], ['\r', '\n'], tail, rfl, unbroken_nil, .inl rfl, by simp [Separate]⟩
          · exact ⟨[], ['\r'], cs, rfl, unbroken_nil, .inr (.inr rfl), fun _ => hlf⟩
      · have hc' : isLineBreak c = false := by simpa using hc
        rcases ih with h | ⟨line, ending, rest, rfl, hline, hending, hsep⟩
        · exact .inl (unbroken_cons.2 ⟨hc', h⟩)
        · exact .inr ⟨c :: line, ending, rest, rfl, unbroken_cons.2 ⟨hc', hline⟩, hending, hsep⟩

/-- The text stands on one line, with or without the break that ends it. -/
def Lined (cs : List Char) : Prop :=
  Unbroken cs ∨ ∃ line ending, cs = line ++ ending ∧ Unbroken line ∧ IsEnding ending

/-- The lines into which a text is cut have a break at their end or nowhere. -/
theorem lined_of_mem_cutLines {cs line : List Char} (h : line ∈ cutLines isLineBreak cs) :
    Lined line := by
  induction hn : cs.length using Nat.strongRecOn generalizing cs with
  | _ n ih =>
      rcases exists_line cs with hcs | ⟨first, ending, rest, rfl, hfirst, hending, hsep⟩
      · by_cases hne : cs = []
        · subst hne
          cases h
        · rw [cutLines_unbroken hcs hne, List.mem_singleton] at h
          exact .inl (h ▸ hcs)
      · rw [cutLines_cons hfirst hending hsep] at h
        rcases List.mem_cons.1 h with rfl | h
        · exact .inr ⟨first, ending, rfl, hfirst, hending⟩
        · have hlen := List.length_pos_iff.2 hending.ne_nil
          exact ih rest.length (by simp at hn; omega) h rfl

/-- A text on one line has no line break before its end. -/
theorem Lined.unbroken_of_not_endsLine {text : String} (h : Lined text.toList)
    (hends : endsLine text = false) : Unbroken text.toList := by
  rcases h with h | ⟨line, ending, heq, -, hending⟩
  · exact h
  · exfalso
    have hlast : ∃ c, text.toList.getLast? = some c ∧ isLineBreak c = true := by
      rw [heq]
      rcases hending with rfl | rfl | rfl <;> simp [isLineBreak]
    obtain ⟨c, hc, hbreak⟩ := hlast
    simp [endsLine, hc, hbreak] at hends

/-- A text is its trimmed form with a run of the class behind it. -/
theorem exists_eq_trimEnd_append (p : Char → Bool) (cs : List Char) :
    ∃ trail, cs = trimEnd p cs ++ trail ∧ ∀ c ∈ trail, p c = true := by
  refine ⟨(cs.reverse.takeWhile p).reverse, ?_, ?_⟩
  · have hsplit : cs.reverse.takeWhile p ++ cs.reverse.dropWhile p = cs.reverse :=
      List.takeWhile_append_dropWhile
    have := congrArg List.reverse hsplit
    rw [List.reverse_reverse, List.reverse_append] at this
    exact this.symm
  · intro c hc
    rw [List.mem_reverse] at hc
    exact List.mem_takeWhile_imp hc

/-- The trimmed text and what was trimmed off make up the text. -/
theorem trimEnd_append_drop (p : Char → Bool) (cs : List Char) :
    trimEnd p cs ++ cs.drop (trimEnd p cs).length = cs := by
  obtain ⟨trail, hcs, -⟩ := exists_eq_trimEnd_append p cs
  have hdrop : cs.drop (trimEnd p cs).length = trail := by
    have := congrArg (List.drop (trimEnd p cs).length) hcs
    rwa [List.drop_left] at this
  rw [hdrop, ← hcs]

/-- The last character of a trimmed text is not of the class. -/
theorem getLast?_trimEnd {p : Char → Bool} {cs : List Char} {c : Char}
    (h : (trimEnd p cs).getLast? = some c) : p c = false := by
  rw [trimEnd, List.getLast?_reverse] at h
  have := List.head?_dropWhile_not p cs.reverse
  simpa [h] using this

/-- Nothing is trimmed off a text whose last character is not of the class. -/
theorem trimEnd_eq_self {p : Char → Bool} {cs : List Char}
    (h : ∀ c, cs.getLast? = some c → p c = false) : trimEnd p cs = cs := by
  rw [trimEnd, List.reverse_eq_iff]
  cases hrev : cs.reverse with
  | nil => rfl
  | cons c rest =>
      have hlast : cs.getLast? = some c := by
        rw [← List.head?_reverse, hrev, List.head?_cons]
      simp [h c hlast]

/-- A trailing run of the class is trimmed off. -/
theorem trimEnd_append {p : Char → Bool} {cs trail : List Char} (h : ∀ c ∈ trail, p c = true) :
    trimEnd p (cs ++ trail) = trimEnd p cs := by
  rw [trimEnd, trimEnd, List.reverse_append, List.dropWhile_append_of_pos]
  simpa using h

/-- The first character of a text that is trimmed at both ends is not of the class. -/
theorem head?_trim {p : Char → Bool} {cs : List Char} {c : Char}
    (h : (trim p cs).head? = some c) : p c = false := by
  obtain ⟨trail, hsplit, -⟩ := exists_eq_trimEnd_append p (cs.dropWhile p)
  have hhead : (cs.dropWhile p).head? = some c := by
    rw [hsplit, List.head?_append]
    exact Option.or_eq_some_iff.2 (.inl h)
  have := List.head?_dropWhile_not p cs
  simpa [hhead] using this

/-- Trimming a second time changes nothing. -/
theorem trim_trim (p : Char → Bool) (cs : List Char) : trim p (trim p cs) = trim p cs := by
  have hdrop : (trim p cs).dropWhile p = trim p cs := by
    cases htrim : trim p cs with
    | nil => rfl
    | cons c rest =>
        have hc : p c = false := head?_trim (by rw [htrim, List.head?_cons])
        rw [List.dropWhile_cons_of_neg (by simp [hc])]
  rw [trim, hdrop]
  exact trimEnd_eq_self fun c hc => getLast?_trimEnd hc

end PhpDoc.Text

namespace PhpDoc.Position

open Text

/-- The empty text does not move a position. -/
@[simp] theorem advance_nil (p : Position) : p.advance [] = p := by
  rw [advance]

/-- An unbroken text moves a position along its line. -/
theorem advance_unbroken {cs : List Char} (p : Position) (h : Unbroken cs) :
    p.advance cs = ⟨p.line, p.column + cs.length⟩ := by
  induction cs generalizing p with
  | nil => simp
  | cons c cs ih =>
      obtain ⟨hc, hcs⟩ := unbroken_cons.1 h
      have hne : c ≠ '\r' := by
        rintro rfl
        simp [isLineBreak] at hc
      rw [advance]
      · simp only [hc, Bool.false_eq_true, ↓reduceIte, ih _ hcs, nextColumn, List.length_cons]
        simp only [Position.mk.injEq, true_and]
        omega
      · simp [hne]

/-- A line break moves a position to the start of the next line. -/
theorem advance_ending {cs : List Char} (p : Position) (h : IsEnding cs) :
    p.advance cs = ⟨p.line + 1, 1⟩ := by
  rcases h with rfl | rfl | rfl <;> simp [advance, nextLine, isLineBreak]

/-- A line moves a position to the start of the next line. -/
theorem advance_line {line ending : List Char} (p : Position) (hline : Unbroken line)
    (hending : IsEnding ending) : p.advance (line ++ ending) = ⟨p.line + 1, 1⟩ := by
  induction line generalizing p with
  | nil => simpa using advance_ending p hending
  | cons c line ih =>
      obtain ⟨hc, hline⟩ := unbroken_cons.1 hline
      have hne : c ≠ '\r' := by
        rintro rfl
        simp [isLineBreak] at hc
      rw [List.cons_append, advance]
      · simp [hc, ih _ hline, nextColumn]
      · simp [hne]

/-- Positions do not move to earlier lines. -/
theorem line_le_advance (p : Position) (cs : List Char) : p.line ≤ (p.advance cs).line := by
  fun_induction advance p cs with
  | case1 p => exact Nat.le_refl _
  | case2 p cs ih => exact Nat.le_trans (Nat.le_succ _) ih
  | case3 p c cs _ hc ih => exact Nat.le_trans (Nat.le_succ _) ih
  | case4 p c cs _ hc ih => exact ih

/-- Columns are counted from one. -/
theorem one_le_column_advance {p : Position} (h : 1 ≤ p.column) (cs : List Char) :
    1 ≤ (p.advance cs).column := by
  fun_induction advance p cs with
  | case1 p => exact h
  | case2 p cs ih => exact ih (Nat.le_refl _)
  | case3 p c cs _ hc ih => exact ih (Nat.le_refl _)
  | case4 p c cs _ hc ih => exact ih (Nat.le_add_left _ _)

/-- A text that ends with a line break moves a position to the first column. -/
theorem column_advance_of_endsLine {p : Position} {text : String} (h : endsLine text = true) :
    (p.advance text.toList).column = 1 := by
  unfold endsLine at h
  generalize text.toList = cs at h
  fun_induction advance p cs with
  | case1 p => simp at h
  | case2 p cs ih =>
      cases cs with
      | nil => simp [nextLine]
      | cons c cs => exact ih (by simpa using h)
  | case3 p c cs _ hc ih =>
      cases cs with
      | nil => simp [nextLine]
      | cons d cs => exact ih (by simpa using h)
  | case4 p c cs _ hc ih =>
      cases cs with
      | nil => simp [hc] at h
      | cons d cs => exact ih (by simpa using h)

end PhpDoc.Position
