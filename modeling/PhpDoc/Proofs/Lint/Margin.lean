import PhpDoc.Proofs.Lint.Quiet
import PhpDoc.Proofs.Rule.Breaks

/-!
# Margins

The margin of a token is the text in front of it on its line. A token stands in the column behind
its margin, however the text in front of it is cut into tokens (`column_eq`). When the margin of a
star or of a close marker is blank, it is the text of the one token that the layout rules rewrite
(`leadsLine_iff`, `indents_of_lineIndent?`). So what is written in front of the stars of a block
reaches the star column (`indentation_exact`).
-/

namespace PhpDoc

open Text Lexer

/-- Every token of a comment but the blanks has a character that is no blank. -/
theorem Lexer.Move.exists_not_blank {p q : Spot} {l : Lexeme} (h : Move p l q)
    (hkind : l.kind ≠ .docBlank) : ∃ c ∈ l.text.toList, isBlank c = false := by
  cases h with
  | blank => exact absurd rfl hkind
  | ending => exact absurd rfl hkind
  | star => exact ⟨'*', by decide, rfl⟩
  | tag takes whole =>
      obtain ⟨part, rest, rfl, -⟩ := tagWidth?_eq_some_iff.1 whole
      exact ⟨'@', by simp, rfl⟩
  | string string fits =>
      obtain ⟨c, tail, rfl⟩ := List.exists_cons_of_ne_nil string.ne_nil
      exact ⟨c, by simp, string.first c rfl⟩

namespace Stream

variable {s : Stream} {t u : Token} {c : CommentSpan}

/-- The text in front of the token on its line. -/
def margin (s : Stream) (t : Token) : List Char :=
  lastLine (Token.textOf (s.between 0 t.index)).toList

/-- The token leads its line: nothing but spaces and tabs stands in front of it. -/
def LeadsLine (s : Stream) (t : Token) : Prop :=
  ∀ c ∈ s.margin t, isBlank c = true

/-- The margin of a token is the text of `indent`, which is the blank in front of the token on its
line, if there is any, and the token stands in the column behind it. -/
structure Indents (s : Stream) (indent : Option Token) (t : Token) : Prop where
  before : ∀ w, indent = some w ↔ s.before? t.index = some w ∧ w.line = t.line
  kind : ∀ w, indent = some w → w.kind = .docBlank
  margin : (indent.elim "" (·.text)).toList = s.margin t
  column : (indent.elim "" (·.text)).length + 1 = t.column

/-! ## Columns and margins -/

/-- In front of the first token stands nothing. -/
theorem margin_of_first (h : t.index = 0) : s.margin t = [] := by
  rw [margin, h, between_eq_nil (Nat.le_refl 0)]
  rfl

/-- The margin of the next token is counted from the last line break of the token in front of it. -/
theorem margin_next (ht : s.Has t) (hindex : u.index = t.index + 1) :
    s.margin u =
      if Unbroken t.text.toList then s.margin t ++ t.text.toList else lastLine t.text.toList := by
  have hfront : s.between 0 u.index = s.between 0 t.index ++ [t] := by
    rw [hindex, between_split ht (Nat.zero_le _) (Nat.lt_succ_self _),
      between_eq_nil (Nat.le_refl _)]
  rw [margin, hfront, Token.toList_textOf, List.map_append, charsOf_append, ← Token.toList_textOf,
    List.map_singleton, charsOf_cons, charsOf_nil, List.append_nil, lastLine_append]
  rfl

/-- A token that breaks no line belongs to the margin of the next one. -/
theorem margin_of_unbroken (ht : s.Has t) (hindex : u.index = t.index + 1)
    (h : Unbroken t.text.toList) : s.margin u = s.margin t ++ t.text.toList := by
  rw [margin_next ht hindex, if_pos h]

/-- Behind a line break nothing stands in front of a token. -/
theorem margin_of_endsLine (ht : s.Has t) (hindex : u.index = t.index + 1)
    (h : endsLine t.text = true) : s.margin u = [] := by
  rw [margin_next ht hindex, if_neg (not_unbroken_of_endsLine h), lastLine_of_endsLine h]

/-- A token stands in the column behind its margin. -/
theorem Placed.column_eq (hs : s.Placed) (ht : s.Has t) :
    t.column = (s.margin t).length + 1 := by
  induction hn : t.index generalizing t with
  | zero =>
      have hfirst : s.get? 0 = some t := hn ▸ ht
      rw [margin_of_first hn]
      exact congrArg Position.column (hs.first hfirst)
  | succ n ih =>
      obtain ⟨u, hu, hindex⟩ := hs.has_of_le (i := n) ht (by omega)
      have hnext : t.index = u.index + 1 := by omega
      have hcolumn : t.column = (u.position.advance u.text.toList).column :=
        congrArg Position.column (hs.position_next hu ht hnext)
      rw [hcolumn, Position.advance_eq, margin_next hu hnext]
      have hu := ih hu hindex
      by_cases hunbroken : Unbroken u.text.toList
      · simp only [if_pos hunbroken, List.length_append]
        have : u.position.column = u.column := rfl
        omega
      · simp only [if_neg hunbroken]
        omega

/-- Whatever stands in front of a token on its line belongs to its margin. -/
theorem Placed.mem_margin (hs : s.Placed) (hu : s.Has u) (ht : s.Has t) (hlt : u.index < t.index)
    (hline : u.line = t.line) {ch : Char} (hch : ch ∈ u.text.toList) : ch ∈ s.margin t := by
  induction hn : t.index - u.index generalizing t with
  | zero => omega
  | succ n ih =>
      obtain ⟨v, hv, hindex⟩ := hs.has_of_le (i := t.index - 1) ht (by omega)
      have hnext : t.index = v.index + 1 := by omega
      have huv := hs.line_le hu hv (by omega)
      have hvt := hs.line_le hv ht (by omega)
      -- the token in front of `t` ends no line, because `t` stands on the line of `u`
      have hunbroken : Unbroken v.text.toList := by
        have hline : t.line = (v.position.advance v.text.toList).line :=
          congrArg Position.line (hs.position_next hv ht hnext)
        have : v.position.line = v.line := rfl
        exact Position.unbroken_of_line_advance (p := v.position) (by omega)
      rw [margin_of_unbroken hv hnext hunbroken, List.mem_append]
      rcases Nat.lt_or_ge u.index v.index with hbefore | hge
      · exact .inl (ih hv hbefore (by omega) (by omega))
      · rw [← hu.eq hv (by omega)]
        exact .inr hch

/-! ## Stars and close markers -/

/-- The indentation that the layout rules find is the whole margin. -/
theorem Sound.indents_of_lineIndent? (hs : s.Sound) (ht : s.Has t) {indent : Option Token}
    (h : s.lineIndent? t.index = some indent) : s.Indents indent t := by
  have hcolumn := hs.column_eq ht
  cases indent with
  | none =>
      have hmargin : s.margin t = [] := by
        rcases hs.lineIndent?_some_none h with hnone | ⟨w, hw, hindex, hends⟩
        · exact margin_of_first ((before?_eq_none ht).1 hnone)
        · exact margin_of_endsLine hw hindex.symm hends
      rw [hmargin] at hcolumn
      refine ⟨fun w => ⟨nofun, ?_⟩, nofun, hmargin.symm, hcolumn.symm⟩
      rintro ⟨hbefore, hline⟩
      obtain ⟨hw, hindex⟩ := hs.before?.1 hbefore
      -- a token on the line of `t` would be part of the margin
      obtain ⟨ch, hch⟩ := List.exists_mem_of_ne_nil _ (hs.text_ne_nil hw)
      have := hs.mem_margin hw ht (by omega) hline hch
      rw [hmargin] at this
      cases this
  | some blank =>
      obtain ⟨hblank, hindex, hkind, hends, w, hw, hwindex, hwends⟩ := hs.lineIndent?_some_some h
      have hcode : blank.kind.isCode = false := by rw [hkind]; rfl
      have hunbroken := (hs.lined hblank hcode).unbroken_of_not_endsLine hends
      have hmargin : s.margin t = blank.text.toList := by
        rw [margin_of_unbroken hblank hindex.symm hunbroken,
          margin_of_endsLine hw hwindex.symm hwends, List.nil_append]
      have hbefore : s.before? t.index = some blank := hs.before?.2 ⟨hblank, hindex⟩
      have hline := (hs.unbroken_next hblank ht hindex.symm hunbroken).1
      rw [hmargin, String.length_toList] at hcolumn
      refine ⟨fun v => ?_, fun v hv => Option.some.inj hv ▸ hkind, hmargin.symm, hcolumn.symm⟩
      rw [hbefore]
      exact ⟨fun hv => ⟨hv, Option.some.inj hv ▸ hline.symm⟩, And.left⟩

/-- A token with an indentation, or at the start of its line, leads the line. -/
theorem Sound.leadsLine_of_lineIndent? (hs : s.Sound) (ht : s.Has t) {indent : Option Token}
    (h : s.lineIndent? t.index = some indent) : s.LeadsLine t := by
  intro ch hch
  rw [← (hs.indents_of_lineIndent? ht h).margin] at hch
  cases indent with
  | none => cases hch
  | some blank =>
      obtain ⟨hblank, -, hkind, hends, -⟩ := hs.lineIndent?_some_some h
      rcases hs.blank hblank hkind with hending | hblanks
      · rw [Frames.endsLine_of_isEnding hending] at hends
        cases hends
      · exact hblanks ch hch

/-- In front of a token of a comment that leads its line stand only blanks. -/
theorem Frames.leads_of_leadsLine (hs : s.Sound) (hc : s.Frames c) (ht : s.Has t)
    (hto : t.index ≤ c.closer.index) (h : s.LeadsLine t) : (Block.ofSpan s c).Leads s t := by
  intro u hu hline
  obtain ⟨hu, hfrom, hlt⟩ := hs.mem_between.1 hu
  rw [Block.ofSpan_opener] at hfrom
  by_contra hkind
  have hvisible : ∃ ch ∈ u.text.toList, isBlank ch = false := by
    rcases Nat.eq_or_lt_of_le hfrom with heq | hfrom
    · rw [← hc.opener.eq hu heq, hc.openerText]
      exact ⟨'/', by decide, rfl⟩
    · obtain ⟨_, _, _, -, move, -⟩ := hc.exists_move hu hfrom (by omega)
      exact move.exists_not_blank hkind
  obtain ⟨ch, hch, hvisible⟩ := hvisible
  have := h ch (hs.mem_margin hu ht hlt hline hch)
  rw [hvisible] at this
  cases this

/-- The layout rules find an indentation exactly in front of the stars and close markers that lead
their lines. -/
theorem Frames.leadsLine_iff (hs : s.Sound) (hc : s.Frames c) (ht : s.Has t)
    (hfrom : c.opener.index < t.index) (hto : t.index ≤ c.closer.index)
    (hkind : t.kind = .docStar ∨ t.kind = .docClose) :
    s.LeadsLine t ↔ ∃ indent, s.lineIndent? t.index = some indent := by
  constructor
  · intro h
    rcases Nat.eq_or_lt_of_le hto with heq | hlt
    · obtain rfl := ht.eq hc.closer heq
      exact Layout.lineIndent?_of_leads hs hc (hc.leads_of_leadsLine hs ht hto h)
    · refine hc.lineIndent?_of_star hs.toPlaced ht hfrom hlt (hkind.resolve_right ?_)
      rcases hc.kind ht hfrom hlt with h | h | h | h <;> simp [h]
  · rintro ⟨indent, h⟩
    exact hs.leadsLine_of_lineIndent? ht h

/-- What is written in front of the stars of a comment reaches the star column and breaks no line.
Every star leads its line, and a star or close marker that does stands in the column behind the
blank in front of it on its line, which is the indentation that the layout rules find. -/
theorem indentation_exact {text : String} (h : tokenize text = .ok s) (hc : c ∈ s.comments) :
    ((Block.ofSpan s c).starIndent s).length + 1 = (Block.ofSpan s c).starColumn s ∧
    Unbroken ((Block.ofSpan s c).starIndent s).toList ∧
    (∀ t ∈ s.inside c, t.kind = .docStar → s.LeadsLine t) ∧
    ∀ t ∈ s.between (c.opener.index + 1) (c.closer.index + 1),
      t.kind = .docStar ∨ t.kind = .docClose →
        (s.LeadsLine t ↔ ∃ indent, s.lineIndent? t.index = some indent) ∧
          ∀ indent, s.lineIndent? t.index = some indent → s.Indents indent t := by
  have hs := sound_of_tokenize h
  have hframes := hs.frames hc
  have hopener : s.Has (Block.ofSpan s c).opener := by
    rw [Block.ofSpan_opener]
    exact hframes.opener
  refine ⟨Block.length_starIndent hs hopener, Block.unbroken_starIndent hs _, ?_, ?_⟩
  · intro t ht hkind
    obtain ⟨ht, hfrom, hto⟩ := hs.mem_between.1 ht
    obtain ⟨indent, hindent⟩ := hframes.lineIndent?_of_star hs.toPlaced ht hfrom hto hkind
    exact hs.leadsLine_of_lineIndent? ht hindent
  · intro t ht hkind
    obtain ⟨ht, hfrom, hto⟩ := hs.mem_between.1 ht
    exact ⟨hframes.leadsLine_iff hs ht hfrom (Nat.le_of_lt_succ hto) hkind,
      fun indent hindent => hs.indents_of_lineIndent? ht hindent⟩

/-- Stars behind a tab and a space stand in the third column, and a close marker behind three spaces
stands in the fourth. -/
theorem indentation_exact_tab : ∃ s c w,
    tokenize "<?php\n\t/**\n\t * Foo.\n   */\n" = .ok s ∧ c ∈ s.comments ∧
    (Block.ofSpan s c).starIndent s = "\t " ∧ (Block.ofSpan s c).starColumn s = 3 ∧
    Unbroken ((Block.ofSpan s c).starIndent s).toList ∧
    (∃ t ∈ s.inside c, t.kind = .docStar ∧ s.LeadsLine t) ∧
    s.LeadsLine c.closer ∧ s.lineIndent? c.closer.index = some (some w) ∧ w.text = "   " ∧
    s.Indents (some w) c.closer ∧ c.closer.column = 4 := by
  obtain ⟨s, hs, hany⟩ := Lint.exists_ok_of_any
    (x := tokenize "<?php\n\t/**\n\t * Foo.\n   */\n")
    (p := fun s => s.comments.any fun c => decide (
      (Block.ofSpan s c).starIndent s = "\t " ∧
      (∃ t ∈ s.inside c, t.kind = .docStar) ∧
      c.closer ∈ s.between (c.opener.index + 1) (c.closer.index + 1) ∧ c.closer.kind = .docClose ∧
      (s.lineIndent? c.closer.index).join.any (·.text == "   ")))
    (by decide +kernel)
  obtain ⟨c, hc, hlook⟩ := List.any_eq_true.1 hany
  obtain ⟨hindent, ⟨t, ht, hstar⟩, hcloser, hclose, hblank⟩ := of_decide_eq_true hlook
  obtain ⟨w, hw, htext⟩ := (Option.any_eq_true _ _).1 hblank
  have hw : s.lineIndent? c.closer.index = some (some w) := Option.join_eq_some_iff.1 hw
  have htext : w.text = "   " := by simpa using htext
  obtain ⟨hwidth, hunbroken, hstars, hmarkers⟩ := indentation_exact hs hc
  obtain ⟨hleads, hindents⟩ := hmarkers c.closer hcloser (.inr hclose)
  have hindents := hindents (some w) hw
  have hcolumn := hindents.column
  rw [Option.elim_some, htext] at hcolumn
  rw [hindent] at hwidth
  exact ⟨s, c, w, hs, hc, hindent, hwidth.symm, hunbroken, ⟨t, ht, hstar, hstars t ht hstar⟩,
    hleads.2 ⟨_, hw⟩, hw, htext, hindents, hcolumn.symm⟩

end Stream

end PhpDoc
