import PhpDoc.Proofs.Comment.Spot

/-!
# Texts that carry the content of a comment

A text carries the content of a range of tokens when it may be written in their place
(`Stream.Carries`): wherever the line in front of it stands, a row of lexemes with the same content
leads through it to the end of the range, and no close marker is joined at either end. Texts for
neighbouring ranges are put together from the back: a text ends a comment from an index on
(`Stream.Ends`), and one that carries the range in front of it makes it longer
(`Stream.Carries.ends`).
-/

namespace PhpDoc

open Text Lexer

/-- The break at the end of a line holds nothing but line breaks. -/
theorem Text.IsEnding.not_mem {cs : List Char} (h : IsEnding cs) {c : Char}
    (hc : isLineBreak c = false) : c ∉ cs := by
  intro hmem
  rw [h.isLineBreak_of_mem c hmem] at hc
  cases hc

namespace Lexer

/-- Blanks hold nothing but spaces and tabs. -/
theorem IsBlanks.not_mem {cs : List Char} (h : IsBlanks cs) {c : Char} (hc : isBlank c = false) :
    c ∉ cs := by
  intro hmem
  rw [h c hmem] at hc
  cases hc

/-- A line break as a row. -/
theorem row_ending {p : Spot} {cs : List Char} (h : IsEnding cs) :
    Row p (lexeme? .docBlank cs) .lineStart := by
  rw [lexeme?_of_ne_nil h.ne_nil]
  exact .single (.ending h)

/-- A star with its indentation as a row. -/
theorem row_star {cs : List Char} (h : IsBlanks cs) :
    Row .lineStart (lexeme? .docBlank cs ++ [⟨.docStar, "*"⟩]) .starred := by
  refine (row_blank? rfl h).append (.single (.star ?_))
  split <;> rfl

/-- What stands at a spot may stand behind a blank there. -/
theorem Move.behind_blank {p q r : Spot} {l : Lexeme} (h : Move p l r)
    (hnext : p.afterBlank? = some q) (hkind : l.kind ≠ .docBlank) : Move q l r := by
  cases h with
  | blank => exact absurd rfl hkind
  | ending => exact absurd rfl hkind
  | star takes =>
      refine .star ?_
      cases p <;> cases takes <;> cases hnext
      rfl
  | tag takes whole =>
      refine .tag ?_ whole
      cases p <;> cases takes <;> cases hnext <;> rfl
  | string string fits =>
      refine .string string ?_
      obtain ⟨hnoTag, hnoStar, -, hwritten, -⟩ := fits
      cases p <;> cases hnext
      · exact ⟨hnoTag, by simp [Spot.takesStar], by simp, by simp, by simp⟩
      · exact ⟨hnoTag, hnoStar, by simp, by simp, by simp⟩
      · exact ⟨hnoTag, by simp [Spot.takesStar], by simp, by simp, by simp⟩
      · exact ⟨by simp [Spot.takesTag], by simp [Spot.takesStar], by simp, by simp, by simp⟩
      · exact absurd rfl hwritten

/-- What stands on a line without a star may stand behind one. -/
theorem Move.behind_star {p r : Spot} {l : Lexeme} (h : Move p l r) (htakes : p.takesTag = true)
    (hcontent : l.kind.isDocContent = true) : Move .gapped l r := by
  cases h with
  | blank => cases hcontent
  | ending => cases hcontent
  | star => cases hcontent
  | tag takes whole => exact .tag rfl whole
  | string string fits =>
      exact .string string
        ⟨fun _ => fits.1 htakes, by simp [Spot.takesStar], by simp, by simp, by simp⟩

end Lexer

namespace Stream

variable {s : Stream} {c : CommentSpan} {t : Token} {i j : Nat} {p q : Spot} {cs ds : List Char}

/-- The lexemes of the tokens with indices from `i` up to, but not including, `j`. -/
def lexemes (s : Stream) (i j : Nat) : List Lexeme :=
  (s.between i j).map Token.lexeme

/-- The lexemes of neighbouring ranges are those of the range that covers both. -/
theorem lexemes_append {k : Nat} (hij : i ≤ j) (hjk : j ≤ k) :
    s.lexemes i k = s.lexemes i j ++ s.lexemes j k := by
  rw [lexemes, between_append hij hjk, List.map_append]
  rfl

/-- The range of a single token holds the lexeme of the token. -/
theorem lexemes_single (ht : s.Has t) : s.lexemes t.index (t.index + 1) = [t.lexeme] := by
  rw [lexemes, between_cons ht (Nat.lt_succ_self _), between_eq_nil (Nat.le_refl _)]
  rfl

/-- Stars and blanks hold no content. -/
theorem Vacant.contentOf (hs : s.Placed) (h : s.Vacant i j) : contentOf (s.lexemes i j) = [] := by
  refine contentOf_eq_nil fun l hl => ?_
  obtain ⟨t, ht, rfl⟩ := List.mem_map.1 hl
  obtain ⟨hhas, hfrom, hto⟩ := hs.mem_between.1 ht
  have hfiller := h t hhas hfrom hto
  rw [Token.lexeme_kind]
  cases hkind : t.kind <;> rw [hkind] at hfiller <;> cases hfiller <;> rfl

/-- The text `cs` carries the content of the tokens from index `i` up to index `j`, which lead from
the spot `p` to the spot `q`. -/
structure Carries (s : Stream) (i j : Nat) (p q : Spot) (cs : List Char) : Prop where
  row : ∀ p', p.Sync p' → ∃ ls q', q.Sync q' ∧ Row p' ls q' ∧ charsOf ls = cs ∧
    contentOf ls = contentOf (s.lexemes i j)
  unclosed : Unclosed cs
  start : cs.head? = some '/' → (charsOf (s.lexemes i j)).head? = some '/'
  stop : cs.getLast? = some '*' →
    q ≠ .lineStart ∧ (charsOf (s.lexemes i j)).getLast? = some '*'
  empty : cs = [] → p = .lineStart

/-- The text `cs` carries the content of the comment from index `i` on, which stands at the spot
`p`, up to the close marker. -/
structure Ends (s : Stream) (c : CommentSpan) (i : Nat) (p : Spot) (cs : List Char) : Prop where
  row : ∀ p', p.Sync p' → ∃ ls q, Row p' ls q ∧ charsOf ls = cs ∧
    contentOf ls = contentOf (s.lexemes i c.closer.index)
  unclosed : Unclosed cs
  start : cs.head? = some '/' →
    p = .lineStart ∨ (charsOf (s.lexemes i c.closer.index)).head? = some '/'

/-- No close marker stands in a comment. -/
theorem Frames.unclosed_lexemes (hc : s.Frames c) (hi : c.opener.index < i) (hij : i ≤ j)
    (hj : j ≤ c.closer.index) : Unclosed (charsOf (s.lexemes i j)) := by
  obtain ⟨body, hclosed, hbody⟩ := hc.body
  have hinside : s.lexemes (c.opener.index + 1) c.closer.index = docBody body := hbody
  rw [lexemes_append (j := i) hi (by omega), lexemes_append (i := i) hij hj] at hinside
  have hchars := congrArg charsOf hinside
  rw [charsOf_docBody, charsOf_append, charsOf_append] at hchars
  refine Unclosed.of_isInfix ?_ hclosed.unclosed
  rw [← hchars]
  exact ⟨_, _, List.append_assoc _ _ _⟩

/-- A text that carries a range makes the text longer that ends the comment behind it. -/
theorem Carries.ends (hc : s.Frames c) (hi : c.opener.index < i) (hij : i ≤ j)
    (hj : j ≤ c.closer.index) (h : s.Carries i j p q cs) (h' : s.Ends c j q ds) :
    s.Ends c i p (cs ++ ds) := by
  have hold := hc.unclosed_lexemes hi (Nat.le_trans hij hj) (Nat.le_refl _)
  rw [lexemes_append hij hj, charsOf_append, unclosed_append] at hold
  refine ⟨fun p' hp => ?_, ?_, fun hstart => ?_⟩
  · -- the text behind goes on from whatever spot the text in front leads to
    obtain ⟨ls, q', hq, hrow, hchars, hcontent⟩ := h.row p' hp
    obtain ⟨ms, r, hrow', hchars', hcontent'⟩ := h'.row q' hq
    refine ⟨ls ++ ms, r, hrow.append hrow', ?_, ?_⟩
    · rw [charsOf_append, hchars, hchars']
    · rw [contentOf_append, hcontent, hcontent', lexemes_append hij hj, contentOf_append]
  · -- a marker that is joined here would have been joined in the comment before
    refine unclosed_append.2 ⟨h.unclosed, h'.unclosed, fun hjoin => ?_⟩
    obtain ⟨hq, hlast⟩ := h.stop hjoin.1
    rcases h'.start hjoin.2 with heq | hhead
    · exact hq heq
    · exact hold.2.2 ⟨hlast, hhead⟩
  · cases cs with
    | nil => exact .inl (h.empty rfl)
    | cons d cs =>
        right
        have hhead := h.start hstart
        rw [lexemes_append hij hj, charsOf_append, List.head?_append, hhead]
        rfl

/-! ## Texts for ranges of tokens -/

/-- A token carries its own content. -/
theorem Frames.carries_text (hs : s.Sound) (hc : s.Frames c) (ht : s.Has t)
    (hfrom : c.opener.index < t.index) (hto : t.index < c.closer.index)
    (hp : c.SpotAt s t.index p) :
    ∃ q, c.SpotAt s (t.index + 1) q ∧ s.Carries t.index (t.index + 1) p q t.text.toList := by
  obtain ⟨q, hmove, hq⟩ := hc.move_of_spotAt ht hfrom hto hp
  have hchars : charsOf (s.lexemes t.index (t.index + 1)) = t.text.toList := by
    rw [lexemes_single ht]
    simp
  have hunclosed := hc.unclosed_lexemes hfrom (Nat.le_succ _) hto
  rw [hchars] at hunclosed
  refine ⟨q, hq, fun p' hp' => ?_, hunclosed, fun hstart => ?_, fun hstop => ⟨?_, ?_⟩,
    fun hempty => absurd hempty (hs.text_ne_nil ht)⟩
  · refine ⟨[t.lexeme], q, .refl, .single (hmove.sync hp'), by simp, ?_⟩
    rw [lexemes_single ht]
  · rwa [hchars]
  · rintro rfl
    have hbreak := hmove.of_lineStart.2.isLineBreak_of_mem _ (List.mem_of_getLast? hstop)
    cases hbreak
  · rwa [hchars]

/-- Dropped lines carry nothing. -/
theorem Vacant.carries (hs : s.Placed) (h : s.Vacant i j) :
    s.Carries i j .lineStart .lineStart [] := by
  refine ⟨fun p' hp => ?_, unclosed_nil, by simp, by simp, fun _ => rfl⟩
  obtain rfl := hp.eq (by simp)
  exact ⟨[], .lineStart, .refl, .nil, rfl, by rw [h.contentOf hs]; rfl⟩

/-- A line break carries what is dropped in front of it, wherever it stands. -/
theorem Vacant.carries_ending (hs : s.Placed) (h : s.Vacant i j) (hcs : IsEnding cs) (p : Spot) :
    s.Carries i j p .lineStart cs := by
  refine ⟨fun p' _ => ?_, unclosed_of_not_mem (hcs.not_mem (by decide)), fun hstart => ?_,
    fun hstop => ?_, fun hempty => absurd hempty hcs.ne_nil⟩
  · refine ⟨lexeme? .docBlank cs, .lineStart, .refl, row_ending hcs, charsOf_lexeme? _ _, ?_⟩
    rw [contentOf_blank?, h.contentOf hs]
  · exact absurd (List.mem_of_head? hstart) (hcs.not_mem (by decide))
  · exact absurd (List.mem_of_getLast? hstop) (hcs.not_mem (by decide))

/-- Other blanks carry what a blank carries. At the start of a line there may be none. -/
theorem Frames.carries_blanks (hc : s.Frames c) (ht : s.Has t)
    (hfrom : c.opener.index < t.index) (hto : t.index < c.closer.index)
    (hkind : t.kind = .docBlank) (hblank : IsBlanks t.text.toList) (hp : c.SpotAt s t.index p)
    (hcs : IsBlanks cs) (hempty : cs = [] → p = .lineStart) :
    ∃ q, c.SpotAt s (t.index + 1) q ∧ s.Carries t.index (t.index + 1) p q cs := by
  obtain ⟨q, hmove, hq⟩ := hc.move_of_spotAt ht hfrom hto hp
  have hnext : p.afterBlank? = some q := by
    rcases hmove.blank_or_ending hkind with ⟨hending, -⟩ | ⟨-, hnext⟩
    · exact absurd (unbroken_of_blank hblank) hending.not_unbroken
    · exact hnext
  refine ⟨q, hq, fun p' hp' => ?_, unclosed_of_not_mem (hcs.not_mem (by decide)),
    fun hstart => ?_, fun hstop => ?_, hempty⟩
  · -- without a blank the spot stays at the start of the line, and that takes what `indented` takes
    obtain rfl := hp'.eq (by rintro rfl; cases hnext)
    refine ⟨lexeme? .docBlank cs, _, ?_, row_blank? hnext hcs, charsOf_lexeme? _ _, ?_⟩
    · split
      · next hnil =>
          obtain rfl := hempty hnil
          cases hnext
          exact .unindented
      · exact .refl
    · rw [contentOf_blank?, lexemes_single ht, contentOf_cons_of_filler, contentOf_nil]
      rw [Token.lexeme_kind, hkind]
      rfl
  · exact absurd (List.mem_of_head? hstart) (hcs.not_mem (by decide))
  · exact absurd (List.mem_of_getLast? hstop) (hcs.not_mem (by decide))

/-- A blank in front of a token keeps its content. -/
theorem Frames.carries_prepend (hs : s.Sound) (hc : s.Frames c) (ht : s.Has t)
    (hfrom : c.opener.index < t.index) (hto : t.index < c.closer.index)
    (hkind : t.kind ≠ .docBlank) (hp : c.SpotAt s t.index p) (hnext : p.afterBlank? = some q)
    (hcs : IsBlanks cs) (hne : cs ≠ []) :
    ∃ r, c.SpotAt s (t.index + 1) r ∧
      s.Carries t.index (t.index + 1) p r (cs ++ t.text.toList) := by
  obtain ⟨r, hmove, hr⟩ := hc.move_of_spotAt ht hfrom hto hp
  obtain ⟨r', hr', hcarries⟩ := hc.carries_text hs ht hfrom hto hp
  obtain rfl := hr.unique hr'
  refine ⟨r, hr, fun p' hp' => ?_, unclosed_append_right (hcs.not_mem (by decide)) ?_
    hcarries.unclosed, fun hstart => ?_, fun hstop => ?_, fun hempty => ?_⟩
  · obtain rfl := hp'.eq (by rintro rfl; cases hnext)
    have hrow := row_blank? hnext hcs
    rw [if_neg hne] at hrow
    refine ⟨_, r, .refl, hrow.append (.single (hmove.behind_blank hnext hkind)), ?_, ?_⟩
    · simp
    · rw [contentOf_append, contentOf_blank?, List.nil_append, lexemes_single ht]
  · intro hlast
    exact hcs.not_mem (by decide) (List.mem_of_getLast? hlast)
  · rw [List.head?_append_of_ne_nil _ hne] at hstart
    exact absurd (List.mem_of_head? hstart) (hcs.not_mem (by decide))
  · rw [List.getLast?_append_of_ne_nil _ (hs.text_ne_nil ht)] at hstop
    exact hcarries.stop hstop
  · exact absurd (List.append_eq_nil_iff.1 hempty).1 hne

/-- The blank line behind content keeps it. -/
theorem Frames.carries_blankLine (hs : s.Sound) (hc : s.Frames c) {indent eol : List Char}
    (ht : c.Contains s t) (hj : t.index < j) (hvacant : s.Vacant (t.index + 1) j)
    (hp : c.SpotAt s t.index p) (hindent : IsBlanks indent) (heol : IsEnding eol) :
    s.Carries t.index j p .lineStart (t.text.toList ++ (eol ++ indent ++ ['*'] ++ eol)) := by
  obtain ⟨q, hq, hcarries⟩ := hc.carries_text hs ht.has ht.opener_lt ht.lt_closer hp
  have hslash : '/' ∉ eol ++ indent ++ ['*'] ++ eol := by
    simp only [List.mem_append, not_or]
    exact ⟨⟨⟨heol.not_mem (by decide), hindent.not_mem (by decide)⟩, by decide⟩,
      heol.not_mem (by decide)⟩
  have hlexemes : s.lexemes t.index j = t.lexeme :: s.lexemes (t.index + 1) j := by
    rw [lexemes_append (Nat.le_succ _) hj, lexemes_single ht.has]
    rfl
  refine ⟨fun p' hp' => ?_, unclosed_append_left hcarries.unclosed hslash, fun hstart => ?_,
    fun hstop => ?_, fun hempty => ?_⟩
  · obtain ⟨ls, q', -, hrow, hchars, hcontent⟩ := hcarries.row p' hp'
    refine ⟨_, .lineStart, .refl, hrow.append (((row_ending heol).append (row_star hindent)).append
      (row_ending heol)), ?_, ?_⟩
    · simp [hchars]
    · rw [contentOf_append, contentOf_append, contentOf_append, contentOf_append, hcontent,
        contentOf_blank?, contentOf_blank?, lexemes_single ht.has, hlexemes,
        show t.lexeme :: s.lexemes (t.index + 1) j =
          [t.lexeme] ++ s.lexemes (t.index + 1) j from rfl,
        contentOf_append, hvacant.contentOf hs.toPlaced]
      rfl
  · rw [List.head?_append_of_ne_nil _ (hs.text_ne_nil ht.has)] at hstart
    rw [hlexemes, charsOf_cons, Token.lexeme_text,
      List.head?_append_of_ne_nil _ (hs.text_ne_nil ht.has)]
    exact hstart
  · rw [← List.append_assoc, List.getLast?_append_of_ne_nil _ heol.ne_nil] at hstop
    exact absurd (List.mem_of_getLast? hstop) (heol.not_mem (by decide))
  · exact absurd (List.append_eq_nil_iff.1 hempty).1 (hs.text_ne_nil ht.has)

/-- The first content on a line of its own keeps its content. -/
theorem Frames.carries_openLine (hs : s.Sound) (hc : s.Frames c) {indent eol : List Char}
    (ht : c.Contains s t) (hvacant : s.Vacant (c.opener.index + 1) t.index)
    (hindent : IsBlanks indent) (heol : IsEnding eol) :
    ∃ q, c.SpotAt s (t.index + 1) q ∧ s.Carries (c.opener.index + 1) (t.index + 1) .opened q
      (eol ++ (indent ++ ['*', ' ']) ++ t.text.toList) := by
  obtain ⟨p, hp⟩ := hc.exists_spotAt ht.opener_lt (Nat.le_of_lt ht.lt_closer)
  obtain ⟨q, hmove, hq⟩ := hc.move_of_spotAt ht.has ht.opener_lt ht.lt_closer hp
  obtain ⟨q', hq', hcarries⟩ := hc.carries_text hs ht.has ht.opener_lt ht.lt_closer hp
  obtain rfl := hq.unique hq'
  -- no content stands in front of the token, so its line may still take a tag
  have htakes : p.takesTag = true := by
    refine hp.takesTag rfl fun l hl => ?_
    obtain ⟨u, hu, rfl⟩ := List.mem_map.1 hl
    obtain ⟨hhas, hfrom, hto⟩ := hs.mem_between.1 hu
    exact hvacant u hhas hfrom hto
  have hgapped := hmove.behind_star htakes ht.content
  have hlexemes : s.lexemes (c.opener.index + 1) (t.index + 1) =
      s.lexemes (c.opener.index + 1) t.index ++ [t.lexeme] := by
    rw [lexemes_append (j := t.index) ht.opener_lt (Nat.le_succ _), lexemes_single ht.has]
  have hslash : '/' ∉ eol ++ (indent ++ ['*', ' ']) := by
    simp only [List.mem_append, not_or]
    exact ⟨heol.not_mem (by decide), hindent.not_mem (by decide), by decide⟩
  have hlast : (eol ++ (indent ++ ['*', ' '])).getLast? ≠ some '*' := by
    rw [← List.append_assoc]
    simp
  refine ⟨q, hq, fun p' hp' => ?_, unclosed_append_right hslash hlast hcarries.unclosed,
    fun hstart => ?_, fun hstop => ?_, fun hempty => ?_⟩
  · have hgap : Row .starred (lexeme? .docBlank [' ']) .gapped := by
      refine row_blank? rfl ?_
      simp [IsBlanks, isBlank]
    refine ⟨_, q, .refl, (((row_ending heol).append (row_star hindent)).append hgap).append
      (.single hgapped), ?_, ?_⟩
    · simp
    · rw [contentOf_append, contentOf_append, contentOf_append, contentOf_append,
        contentOf_blank?, contentOf_blank?, contentOf_blank?, hlexemes, contentOf_append,
        hvacant.contentOf hs.toPlaced]
      rfl
  · rw [List.head?_append_of_ne_nil _ (by simp [heol.ne_nil])] at hstart
    exact absurd (List.mem_of_head? hstart) hslash
  · rw [List.getLast?_append_of_ne_nil _ (hs.text_ne_nil ht.has)] at hstop
    obtain ⟨hne, hend⟩ := hcarries.stop hstop
    refine ⟨hne, ?_⟩
    rw [hlexemes, charsOf_append, List.getLast?_append_of_ne_nil]
    · simpa using hstop
    · simpa using hs.text_ne_nil ht.has
  · exact absurd (List.append_eq_nil_iff.1 hempty).2 (hs.text_ne_nil ht.has)

/-! ## Texts for the end of a comment -/

/-- Behind the last token of a comment nothing need be written. -/
theorem Frames.ends_closer (s : Stream) (c : CommentSpan) (p : Spot) :
    s.Ends c c.closer.index p [] := by
  refine ⟨fun p' _ => ⟨[], p', .nil, rfl, ?_⟩, unclosed_nil, by simp⟩
  rw [lexemes, between_eq_nil (Nat.le_refl _)]
  rfl

/-- Blanks may stand in front of the close marker at the start of a line. -/
theorem Frames.ends_indent (s : Stream) (c : CommentSpan) (hcs : IsBlanks cs) :
    s.Ends c c.closer.index .lineStart cs := by
  refine ⟨fun p' hp => ?_, unclosed_of_not_mem (hcs.not_mem (by decide)), fun _ => .inl rfl⟩
  obtain rfl := hp.eq (by simp)
  refine ⟨_, _, row_blank? rfl hcs, charsOf_lexeme? _ _, ?_⟩
  rw [contentOf_blank?, lexemes, between_eq_nil (Nat.le_refl _)]
  rfl

/-- A line break and blanks may stand in front of the close marker in the place of what is dropped
there. -/
theorem Vacant.ends_closeLine (hs : s.Placed) (h : s.Vacant i c.closer.index) {eol : List Char}
    (heol : IsEnding eol) (hcs : IsBlanks cs) (p : Spot) : s.Ends c i p (eol ++ cs) := by
  refine ⟨fun p' _ => ⟨_, _, (row_ending heol).append (row_blank? rfl hcs), ?_, ?_⟩, ?_,
    fun hstart => ?_⟩
  · simp
  · rw [contentOf_append, contentOf_blank?, contentOf_blank?, h.contentOf hs]
    rfl
  · refine unclosed_of_not_mem ?_
    rw [List.mem_append, not_or]
    exact ⟨heol.not_mem (by decide), hcs.not_mem (by decide)⟩
  · rw [List.head?_append_of_ne_nil _ heol.ne_nil] at hstart
    exact absurd (List.mem_of_head? hstart) (heol.not_mem (by decide))

end Stream

end PhpDoc
