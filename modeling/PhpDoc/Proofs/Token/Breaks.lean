import PhpDoc.Proofs.Text.Marker
import PhpDoc.Proofs.Token.Position

/-!
# The line breaks of a text

The line breaks of a text are matched from left to right (`Text.breaks`). No two tokens of a source
text split one, so the breaks of a text are those of its tokens, and when all of them are the same,
the stream takes it for the one to insert (`Stream.eol_of_brokenBy`).
-/

namespace PhpDoc

namespace Text

/-- The line breaks of a text, matched from left to right. -/
def breaks : List Char → List (List Char)
  | [] => []
  | '\r' :: '\n' :: cs => ['\r', '\n'] :: breaks cs
  | c :: cs => if isLineBreak c then [c] :: breaks cs else breaks cs

/-- Every line break of the text is `e`. -/
def BrokenBy (e : String) (cs : List Char) : Prop :=
  ∀ b ∈ breaks cs, b = e.toList

/-- Whether a text has other breaks is found by listing its breaks. -/
instance (e : String) (cs : List Char) : Decidable (BrokenBy e cs) :=
  List.decidableBAll (fun b => b = e.toList) (breaks cs)

variable {cs ds : List Char} {e : String}

/-- The breaks of two texts are those of the first and those of the second, if none is split between
them. -/
theorem breaks_append (h : ¬ Splits cs ds) : breaks (cs ++ ds) = breaks cs ++ breaks ds := by
  fun_induction breaks cs with
  | case1 => rfl
  | case2 cs ih =>
      rw [List.cons_append, List.cons_append, breaks, List.cons_append]
      cases cs with
      | nil => rfl
      | cons c cs => rw [ih fun hsplits => h (by simpa [Splits] using hsplits)]
  | case3 c cs hno hc ih =>
      rw [List.cons_append, breaks.eq_3, if_pos hc, List.cons_append]
      · cases cs with
        | nil => rfl
        | cons d cs => rw [ih fun hsplits => h (by simpa [Splits] using hsplits)]
      · rintro ds' rfl hds'
        cases cs with
        | nil => exact h ⟨rfl, by simp [show ds = '\n' :: ds' from hds']⟩
        | cons d cs =>
            obtain ⟨rfl, -⟩ := List.cons.inj hds'
            exact hno cs rfl rfl
  | case4 c cs hno hc ih =>
      rw [List.cons_append, breaks.eq_3, if_neg hc]
      · cases cs with
        | nil => rfl
        | cons d cs => rw [ih fun hsplits => h (by simpa [Splits] using hsplits)]
      · rintro ds' rfl -
        exact hc rfl

/-- Every character of a line break stands in one that is matched. -/
theorem exists_break_of_mem {c : Char} (hc : isLineBreak c = true) (h : c ∈ cs) :
    ∃ b ∈ breaks cs, c ∈ b := by
  fun_induction breaks cs with
  | case1 => cases h
  | case2 cs ih =>
      rcases List.mem_cons.1 h with rfl | h
      · exact ⟨_, List.mem_cons_self, by simp⟩
      · rcases List.mem_cons.1 h with rfl | h
        · exact ⟨_, List.mem_cons_self, by simp⟩
        · obtain ⟨b, hb, hmem⟩ := ih h
          exact ⟨b, List.mem_cons_of_mem _ hb, hmem⟩
  | case3 d cs hno hd ih =>
      rcases List.mem_cons.1 h with rfl | h
      · exact ⟨_, List.mem_cons_self, by simp⟩
      · obtain ⟨b, hb, hmem⟩ := ih h
        exact ⟨b, List.mem_cons_of_mem _ hb, hmem⟩
  | case4 d cs hno hd ih =>
      rcases List.mem_cons.1 h with rfl | h
      · exact absurd hc hd
      · exact ih h

/-- A line break that is matched stands in the text. -/
theorem isInfix_of_mem_breaks {b : List Char} (h : b ∈ breaks cs) : b <:+: cs := by
  fun_induction breaks cs with
  | case1 => cases h
  | case2 cs ih =>
      rcases List.mem_cons.1 h with rfl | h
      · exact (List.prefix_append ['\r', '\n'] cs).isInfix
      · exact (ih h).trans (List.suffix_append ['\r', '\n'] cs).isInfix
  | case3 c cs hno hc ih =>
      rcases List.mem_cons.1 h with rfl | h
      · exact (List.prefix_append [c] cs).isInfix
      · exact List.infix_cons (ih h)
  | case4 c cs hno hc ih => exact List.infix_cons (ih h)

/-- A text without breaks is unbroken. -/
theorem breaks_eq_nil : breaks cs = [] ↔ Unbroken cs := by
  constructor
  · intro h c hc
    by_contra hbreak
    obtain ⟨b, hb, -⟩ := exists_break_of_mem (by simpa using hbreak) hc
    rw [h] at hb
    cases hb
  · intro h
    fun_induction breaks cs with
    | case1 => rfl
    | case2 cs ih => simp [isLineBreak] at h
    | case3 c cs hno hc ih => simp [hc] at h
    | case4 c cs hno hc ih => exact ih (unbroken_cons.1 h).2

/-- A text contains what stands in it. -/
theorem contains_iff_isInfix {needle text : String} :
    contains needle text = true ↔ needle.toList <:+: text.toList := by
  unfold contains
  constructor
  · intro h
    obtain ⟨offset, hoffset⟩ := Option.isSome_iff_exists.1 h
    obtain ⟨rest, hrest⟩ := Lexer.offsetOf?_eq_some hoffset
    exact ⟨_, rest, by rw [List.append_assoc, ← hrest]⟩
  · rintro ⟨before, after, hsplit⟩
    rw [← hsplit]
    clear hsplit
    induction before with
    | nil =>
        cases needle.toList with
        | nil => cases after <;> simp [offsetOf?]
        | cons c cs => simp [offsetOf?]
    | cons c cs ih =>
        rw [List.cons_append, List.cons_append, offsetOf?]
        split
        · rfl
        · simpa using ih

/-- A text without breaks has no other breaks than the given one. -/
theorem brokenBy_of_unbroken (h : Unbroken cs) : BrokenBy e cs := by
  rw [BrokenBy, breaks_eq_nil.2 h]
  exact fun _ hb => absurd hb List.not_mem_nil

/-- Two texts have only the given break exactly when both have, if no break is split between them.
-/
theorem brokenBy_append (h : ¬ Splits cs ds) :
    BrokenBy e (cs ++ ds) ↔ BrokenBy e cs ∧ BrokenBy e ds := by
  rw [BrokenBy, breaks_append h, List.forall_mem_append]
  rfl

/-! ## Line feeds, with or without carriage returns in front of them -/

section Fed

variable (he : e = "\n" ∨ e = "\r\n")

include he

/-- A break has no other breaks than itself. -/
theorem brokenBy_self : BrokenBy e e.toList := by
  rcases he with rfl | rfl <;> decide

/-- A text whose breaks end with line feeds does not end with a carriage return. -/
theorem BrokenBy.stops (h : BrokenBy e cs) : Lexer.Stops cs := by
  intro hlast
  obtain ⟨front, rfl⟩ := List.getLast?_eq_some_iff.1 hlast
  rw [brokenBy_append fun hsplits => by simp [Splits] at hsplits] at h
  have hreturn := h.2 ['\r'] (by decide)
  rcases he with rfl | rfl <;> exact absurd hreturn (by decide)

/-- Two texts with only the given break have only that one together. -/
theorem BrokenBy.append (h : BrokenBy e cs) (h' : BrokenBy e ds) : BrokenBy e (cs ++ ds) :=
  (brokenBy_append fun hsplits => h.stops he hsplits.1).2 ⟨h, h'⟩

/-- Texts in a row with only the given break have only that one together. -/
theorem brokenBy_flatMap {α : Type} {f : α → List Char} {xs : List α}
    (h : ∀ x ∈ xs, BrokenBy e (f x)) : BrokenBy e (xs.flatMap f) := by
  induction xs with
  | nil => exact brokenBy_of_unbroken unbroken_nil
  | cons x xs ih =>
      obtain ⟨hx, hxs⟩ := List.forall_mem_cons.1 h
      rw [List.flatMap_cons]
      exact hx.append he (ih hxs)

end Fed

end Text

open Text

/-- The line breaks of a row of lexemes that split none are those of the lexemes. -/
theorem Lexer.breaks_charsOf {ls : List Lexeme} (h : ls.IsChain Apart)
    (hne : ∀ l ∈ ls, l.text.toList ≠ []) :
    breaks (charsOf ls) = ls.flatMap fun l => breaks l.text.toList := by
  induction ls with
  | nil => rfl
  | cons l ls ih =>
      obtain ⟨hl, hls⟩ := List.isChain_cons.1 h
      obtain ⟨-, hnonempty⟩ := List.forall_mem_cons.1 hne
      have hapart : ¬ Splits l.text.toList (charsOf ls) := by
        intro hsplits
        cases ls with
        | nil => exact absurd hsplits.2 (by simp)
        | cons m ms =>
            have hm := hnonempty m List.mem_cons_self
            refine hl m rfl ⟨hsplits.1, ?_⟩
            rw [← hsplits.2, head?_charsOf rfl hm]
      rw [charsOf_cons, breaks_append hapart, List.flatMap_cons, ih hls hnonempty]

namespace Stream

variable {s : Stream} {t : Token} {text e : String}

/-- The line breaks of a source text are those of its tokens. -/
theorem breaks_of_tokenize (h : tokenize text = .ok s) :
    breaks text.toList = s.tokens.toList.flatMap fun t => breaks t.text.toList := by
  obtain ⟨ps, hps, hchars, hreads, rfl⟩ := exists_pieces h
  have hne : ∀ l ∈ Lexer.lexemesOf ps, l.text.toList ≠ [] := by
    intro l hl
    obtain ⟨p, hp, hl⟩ := List.mem_flatMap.1 hl
    exact (Lexer.Piece.shaped (hps p hp) hl).nonempty
  have hmap := Token.map_lexeme_place 0 Position.start (Lexer.lexemesOf ps)
  rw [← hchars, ← Lexer.charsOf_lexemesOf, Lexer.breaks_charsOf (hreads.isChain hps) hne, ← hmap,
    List.flatMap_map]
  simp [ofTokens]

/-- The tokens of a text with only one break have only that one. -/
theorem brokenBy_of_tokenize (h : tokenize text = .ok s) (hall : BrokenBy e text.toList)
    (ht : s.Has t) : BrokenBy e t.text.toList := by
  intro b hb
  refine hall b ?_
  rw [breaks_of_tokenize h]
  have hmem := (has_iff_mem (sound_of_tokenize h).toPlaced).1 ht
  exact List.mem_flatMap.2 ⟨t, hmem, hb⟩

/-- A text with a line break has a token with one. -/
theorem exists_broken (h : tokenize text = .ok s) (hbroken : ¬ Unbroken text.toList) :
    ∃ t, s.Has t ∧ ¬ Unbroken t.text.toList := by
  by_contra hnone
  refine hbroken (breaks_eq_nil.1 ?_)
  rw [breaks_of_tokenize h, List.flatMap_eq_nil_iff]
  intro t ht
  have hhas := (has_iff_mem (sound_of_tokenize h).toPlaced).2 ht
  by_contra hne
  exact hnone ⟨t, hhas, fun hunbroken => hne (breaks_eq_nil.2 hunbroken)⟩

/-- When all breaks of the tokens are the same, and there is one unless that is a line feed, it is
the one to insert. -/
theorem eol_of_brokenBy (hs : s.Placed) (he : e = "\n" ∨ e = "\r\n")
    (hall : ∀ t, s.Has t → BrokenBy e t.text.toList)
    (hbroken : e = "\n" ∨ ∃ t, s.Has t ∧ ¬ Unbroken t.text.toList) : s.eol = e := by
  have hbreak : ∀ {t c}, s.Has t → isLineBreak c = true → c ∈ t.text.toList →
      e.toList <:+: t.text.toList ∧ c ∈ e.toList := by
    intro t c ht hc hmem
    obtain ⟨b, hb, hcb⟩ := exists_break_of_mem hc hmem
    obtain rfl := hall t ht b hb
    exact ⟨isInfix_of_mem_breaks hb, hcb⟩
  unfold eol
  cases hfound : s.tokens.toList.find? (·.text.toList.contains '\n') with
  | none =>
      rcases hbroken with rfl | ⟨t, ht, hbroken⟩
      · rfl
      · exfalso
        have hnot := List.find?_eq_none.1 hfound t ((has_iff_mem hs).1 ht)
        obtain ⟨c, hc, hmem⟩ : ∃ c ∈ t.text.toList, isLineBreak c = true := by
          simpa [Unbroken] using hbroken
        refine hnot (List.contains_iff_mem.2 ((hbreak ht hmem hc).1.mem ?_))
        rcases he with rfl | rfl <;> decide
  | some t =>
      have ht := (has_iff_mem hs).2 (List.mem_of_find?_eq_some hfound)
      have hfeed : '\n' ∈ t.text.toList := by simpa using List.find?_some hfound
      obtain ⟨hoccurs, -⟩ := hbreak ht rfl hfeed
      rcases he with rfl | rfl
      · refine if_neg fun hcontains => ?_
        obtain ⟨before, after, hsplit⟩ := contains_iff_isInfix.1 hcontains
        have hreturn : '\r' ∈ t.text.toList := hsplit ▸ by simp
        exact absurd (hbreak ht rfl hreturn).2 (by decide)
      · exact if_pos (contains_iff_isInfix.2 hoccurs)

end Stream

end PhpDoc
