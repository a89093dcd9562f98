import PhpDoc.Proofs.Comment.Carry
import PhpDoc.Proofs.Lint.Alone
import PhpDoc.Proofs.Lint.OneLine

/-!
# One line becomes three

Fixing a file with nothing but a comment on one line gives the same content on the middle one of
three lines, after two passes (`Lint.fix_one_line`). The first pass writes the lines; the second
reads them back (`exists_spread`) and finds a tidy comment (`Spread.tidy`).
-/

namespace PhpDoc

open Text Lexer Layout

variable {s : Stream} {c : CommentSpan}

/-! ## The comment on three lines -/

/-- A comment with its content on one line between the lines of the markers. The stars stand behind
the blank `margin`. -/
structure Stream.Spread (s : Stream) (c : CommentSpan) (margin : String)
    (before content after : List Token) (newline indent star gap ending blank first last : Token) :
    Prop where
  tokens : s.tokens.toList = before ++ c.opener :: newline :: indent :: star :: gap ::
    (content ++ ending :: blank :: c.closer :: after)
  newline : newline.lexeme = ⟨.docBlank, "\n"⟩
  indent : indent.lexeme = ⟨.docBlank, margin⟩
  star : star.lexeme = ⟨.docStar, "*"⟩
  gap : gap.lexeme = ⟨.docBlank, " "⟩
  ending : ending.lexeme = ⟨.docBlank, "\n"⟩
  blank : blank.lexeme = ⟨.docBlank, margin⟩
  unbroken_margin : Unbroken margin.toList
  run : Token.ContentRun content first last

namespace Stream.Spread

variable {margin : String} {before content after : List Token}
  {newline indent star gap ending blank first last : Token}

/-- Between the markers stand the new first line, the content and the end of its line. -/
theorem inside_eq (hs : s.Placed)
    (h : s.Spread c margin before content after newline indent star gap ending blank first last) :
    s.inside c = newline :: indent :: star :: gap :: (content ++ [ending, blank]) := by
  have htokens : s.tokens.toList = before ++ c.opener :: ((newline :: indent :: star :: gap ::
      (content ++ [ending, blank])) ++ c.closer :: after) := by
    simp [h.tokens]
  exact hs.inside_of_append htokens

/-- The lines and columns of the comment. -/
theorem lines (hs : s.Sound) (hc : s.Frames c)
    (h : s.Spread c margin before content after newline indent star gap ending blank first last) :
    (∀ t ∈ content, t.line = c.opener.line + 1) ∧ c.closer.line = c.opener.line + 2 ∧
      star.column = margin.length + 1 ∧ c.closer.column = margin.length + 1 := by
  have hnewlineText : newline.text = "\n" := congrArg Lexeme.text h.newline
  have hindentText : indent.text = margin := congrArg Lexeme.text h.indent
  have hstarText : star.text = "*" := congrArg Lexeme.text h.star
  have hgapText : gap.text = " " := congrArg Lexeme.text h.gap
  have hendingText : ending.text = "\n" := congrArg Lexeme.text h.ending
  have hblankText : blank.text = margin := congrArg Lexeme.text h.blank
  -- the tokens one after the other, each time with one more of them in front of the seam
  have h₁ := h.tokens.trans (List.append_cons _ _ _)
  have h₂ := h₁.trans (List.append_cons _ _ _)
  have h₃ := h₂.trans (List.append_cons _ _ _)
  have h₄ := h₃.trans (List.append_cons _ _ _)
  have h₅ := h₄.trans (List.append_cons _ _ _)
  have h₆ := h₅.trans (List.append_assoc _ _ _).symm
  have h₇ := h₆.trans (List.append_cons _ _ _)
  obtain ⟨more, hmore⟩ := h.run.starts
  rw [hmore] at h₄
  have hnewline := hs.unbroken_of_append h.tokens (by rw [hc.openerText]; decide)
  have hindent := hs.ending_of_append h₁ (by rw [hnewlineText]; decide)
  have hstar := hs.unbroken_of_append h₂ (by rw [hindentText]; exact h.unbroken_margin)
  have hgap := hs.unbroken_of_append h₃ (by rw [hstarText]; decide)
  have hfirst := hs.unbroken_of_append h₄ (by rw [hgapText]; decide)
  have hcontent := hs.line_of_append h₅ h.run.unbroken
  have hblank := hs.ending_of_append h₆ (by rw [hendingText]; decide)
  have hcloser := hs.unbroken_of_append h₇ (by rw [hblankText]; exact h.unbroken_margin)
  have hline := hcontent first (by simp [hmore])
  rw [hindentText] at hstar
  rw [hblankText] at hcloser
  refine ⟨fun t ht => ?_, by omega, by omega, by omega⟩
  have := hcontent t ht
  omega

/-- The star is the only one. -/
theorem star?_eq (hs : s.Placed)
    (h : s.Spread c margin before content after newline indent star gap ending blank first last) :
    (Block.ofSpan s c).star? s = some star := by
  have hinside := h.inside_eq hs
  have hnewlineKind : newline.kind = .docBlank := congrArg Lexeme.kind h.newline
  have hindentKind : indent.kind = .docBlank := congrArg Lexeme.kind h.indent
  have hstarKind : star.kind = .docStar := congrArg Lexeme.kind h.star
  unfold Block.star?
  rw [Block.ofSpan_opener, Block.ofSpan_closer]
  show (s.inside c).find? (·.kind == .docStar) = some star
  rw [hinside, List.find?_cons_of_neg (by simp [hnewlineKind]),
    List.find?_cons_of_neg (by simp [hindentKind]), List.find?_cons_of_pos (by simp [hstarKind])]

/-- What is neither the star nor content is blank. -/
theorem mem_inside (hs : s.Placed)
    (h : s.Spread c margin before content after newline indent star gap ending blank first last)
    {t : Token} (ht : t ∈ s.inside c) : t.kind = .docBlank ∨ t = star ∨ t ∈ content := by
  rw [h.inside_eq hs] at ht
  simp only [List.mem_cons, List.mem_append, List.not_mem_nil, or_false] at ht
  rcases ht with rfl | rfl | rfl | rfl | ht | rfl | rfl
  · exact .inl (congrArg Lexeme.kind h.newline)
  · exact .inl (congrArg Lexeme.kind h.indent)
  · exact .inr (.inl rfl)
  · exact .inl (congrArg Lexeme.kind h.gap)
  · exact .inr (.inr ht)
  · exact .inl (congrArg Lexeme.kind h.ending)
  · exact .inl (congrArg Lexeme.kind h.blank)

/-- All content of the comment is on the line between the markers. -/
theorem line_of_content (hs : s.Sound) (hc : s.Frames c)
    (h : s.Spread c margin before content after newline indent star gap ending blank first last)
    {t : Token} (ht : t ∈ s.inside c) (hkind : t.kind.isDocContent = true) :
    t.line = c.opener.line + 1 := by
  rcases h.mem_inside hs.toPlaced ht with hblank | rfl | hmem
  · rw [hblank] at hkind
    cases hkind
  · rw [show t.kind = .docStar from congrArg Lexeme.kind h.star] at hkind
    cases hkind
  · exact (h.lines hs hc).1 t hmem

/-- The first content of the spread comment is that of the comment on one line. -/
theorem ofSpan_first (hs : s.Placed)
    (h : s.Spread c margin before content after newline indent star gap ending blank first last) :
    (Block.ofSpan s c).first = some first := by
  obtain ⟨more, hmore⟩ := h.run.starts
  have hnewlineKind : newline.kind = .docBlank := congrArg Lexeme.kind h.newline
  have hindentKind : indent.kind = .docBlank := congrArg Lexeme.kind h.indent
  have hstarKind : star.kind = .docStar := congrArg Lexeme.kind h.star
  have hgapKind : gap.kind = .docBlank := congrArg Lexeme.kind h.gap
  rw [Block.ofSpan_first]
  show (s.inside c).find? (fun t => !t.kind.isFiller) = some first
  rw [h.inside_eq hs, hmore, List.find?_cons_of_neg (by rw [hnewlineKind]; decide),
    List.find?_cons_of_neg (by rw [hindentKind]; decide),
    List.find?_cons_of_neg (by rw [hstarKind]; decide),
    List.find?_cons_of_neg (by rw [hgapKind]; decide)]
  exact List.find?_cons_of_pos (by simp [Kind.isFiller_of_isDocContent h.run.kind_first])

/-- The last content of the spread comment is that of the comment on one line. -/
theorem lastBetween (hs : s.Placed)
    (h : s.Spread c margin before content after newline indent star gap ending blank first last) :
    s.lastBetween Kind.isDocContent (c.opener.index + 1) c.closer.index = some last := by
  obtain ⟨front, hfront⟩ := h.run.ends
  have hendingKind : ending.kind = .docBlank := congrArg Lexeme.kind h.ending
  have hblankKind : blank.kind = .docBlank := congrArg Lexeme.kind h.blank
  have hinside : s.inside c =
      (newline :: indent :: star :: gap :: front) ++ [last, ending, blank] := by
    rw [h.inside_eq hs, hfront]
    simp
  unfold Stream.lastBetween
  show (s.inside c).reverse.find? (fun t => t.kind.isDocContent) = some last
  rw [hinside, List.reverse_append]
  show (blank :: ending :: last :: _).find? _ = some last
  rw [List.find?_cons_of_neg (by rw [hblankKind]; decide),
    List.find?_cons_of_neg (by rw [hendingKind]; decide)]
  exact List.find?_cons_of_pos (by simpa using h.run.kind_last)

/-- There is nothing to do about the layout of the comment. -/
theorem tidy (hs : s.Sound) (hc : s.Frames c)
    (h : s.Spread c margin before content after newline indent star gap ending blank first last) :
    (Block.ofSpan s c).Tidy s := by
  obtain ⟨hlines, hclose, hstarColumn, hcloseColumn⟩ := h.lines hs hc
  have hcolumn : (Block.ofSpan s c).starColumn s = margin.length + 1 := by
    unfold Block.starColumn
    rw [h.star?_eq hs.toPlaced]
    exact hstarColumn
  have hinside : ∀ t, s.Has t → c.opener.index < t.index → t.index < c.closer.index →
      t.kind.isDocContent = true → t.line = c.opener.line + 1 := by
    intro t ht hfrom hto
    exact h.line_of_content hs hc (hs.mem_between.2 ⟨ht, hfrom, hto⟩)
  have hlast : last ∈ content := by
    obtain ⟨front, hfront⟩ := h.run.ends
    simp [hfront]
  refine ⟨fun t ht hkind => ?_, ⟨last, ?_, ?_⟩, fun t ht hkind hleads => ?_, fun short hshort => ?_⟩
  · rw [Block.ofSpan_opener, Block.ofSpan_closer] at ht
    rw [Block.ofSpan_opener, h.line_of_content hs hc ht hkind]
    omega
  · rw [Block.ofSpan_opener, Block.ofSpan_closer]
    exact h.lastBetween hs.toPlaced
  · rw [Block.ofSpan_closer, hlines last hlast, hclose]
  · rw [Block.ofSpan_opener, Block.ofSpan_closer] at ht
    rw [hcolumn]
    obtain ⟨hhas, hfrom, hto⟩ := hs.mem_between.1 ht
    rcases Nat.lt_succ_iff_lt_or_eq.1 hto with hlt | heq
    · rcases h.mem_inside hs.toPlaced (hs.mem_between.2 ⟨hhas, hfrom, hlt⟩) with hblank | rfl | hmem
      · rw [hblank] at hkind
        rcases hkind with hkind | hkind <;> cases hkind
      · exact hstarColumn
      · rcases hkind with hkind | hkind
        · exact absurd hkind (h.run.starless t hmem)
        · have hdoc := hc.kind hhas hfrom hlt
          rw [hkind] at hdoc
          rcases hdoc with hdoc | hdoc | hdoc | hdoc <;> cases hdoc
    · obtain rfl := hhas.eq hc.closer heq
      exact hcloseColumn
  · obtain ⟨hlong, htags⟩ := short_alone hs hc hinside hshort
    obtain ⟨hfirst, hstring, -⟩ := Block.short_first hs.toPlaced hc hshort
    obtain ⟨hhas, hfrom, hto, -, -⟩ := Block.first_spec hs.toPlaced hfirst
    have hgroups : (Block.ofSpan s c).groups s = [] := by
      rw [Block.groups, htags]
      rfl
    refine ⟨?_, ?_, ?_, ?_⟩
    · rw [Block.ofSpan_opener]
      exact hinside _ hhas hfrom hto (by rw [hstring]; rfl)
    · simp [hlong]
    · simp [hgroups]
    · simp [hgroups]

end Stream.Spread

/-! ## From the text to the comment -/

section Read

variable {indent lead trail : List Char} {content : Content}

/-- The text between the markers of a comment on three lines, with the margin in front of its
stars. -/
def spreadBody (margin content : List Char) : List Char :=
  '\n' :: margin ++ '*' :: ' ' :: content ++ '\n' :: margin

/-- A body on one line is taken apart into blanks and the content. -/
theorem docBody_line (hlead : IsBlanks lead) (htrail : IsBlanks trail)
    (hcontent : content.Proper false) :
    docBody (lead ++ charsOf content.lexemes ++ trail) =
      lexeme? .docBlank lead ++ content.lexemes ++ lexeme? .docBlank trail := by
  have hproper : (DocLines.last ⟨lead, none, some (content, trail)⟩).Proper true := by
    refine ⟨hlead, fun _ => rfl, by simp, ?_⟩
    rintro _ _ ⟨⟩
    exact ⟨hcontent, htrail⟩
  have hread := DocLines.docBody_charsOf hproper
  simpa [DocLines.lexemes, DocLine.lexemes, DocLine.starLexemes, DocLine.contentLexemes] using hread

/-- A spread body is taken apart into three lines, of which the second one has the content. -/
theorem docBody_spread {margin : List Char} (hmargin : IsBlanks margin) (hne : margin ≠ [])
    (hcontent : content.Proper false) :
    docBody (spreadBody margin (charsOf content.lexemes)) =
      ⟨.docBlank, "\n"⟩ :: ⟨.docBlank, String.ofList margin⟩ :: ⟨.docStar, "*"⟩ ::
        ⟨.docBlank, " "⟩ :: (content.lexemes ++
          [⟨.docBlank, "\n"⟩, ⟨.docBlank, String.ofList margin⟩]) := by
  have hending : IsEnding ['\n'] := by decide
  have hseparate : ∀ cs, Separate ['\n'] cs := by simp [Separate]
  have hstarred : (DocLine.mk margin (some [' ']) (some (content, []))).Proper false := by
    refine ⟨hmargin, by simp, ?_, ?_⟩
    · rintro _ ⟨⟩
      simp [IsBlanks, isBlank]
    · rintro _ _ ⟨⟩
      exact ⟨hcontent, by simp [IsBlanks]⟩
  have hlast : (DocLine.mk margin none none).Proper false :=
    ⟨hmargin, fun _ => rfl, by simp, by simp⟩
  have hproper : (DocLines.next .empty ['\n']
      (.next ⟨margin, some [' '], some (content, [])⟩ ['\n'] (.last ⟨margin, none, none⟩))).Proper
        true :=
    ⟨DocLine.proper_empty true, hending, hseparate _, hstarred, hending, hseparate _, hlast⟩
  have hread := DocLines.docBody_charsOf hproper
  simpa [DocLines.lexemes, DocLine.lexemes, DocLine.starLexemes, DocLine.contentLexemes,
    DocLine.empty, lexeme?, hne, spreadBody] using hread

/-- Blanks break no line. -/
theorem unbroken_of_lexeme? {kind : Kind} (hlead : IsBlanks lead) {ts : List Token}
    (hts : ts.map Token.lexeme = lexeme? kind lead) : ∀ t ∈ ts, Unbroken t.text.toList := by
  intro t ht
  have hmem : t.lexeme ∈ lexeme? kind lead := hts ▸ List.mem_map_of_mem ht
  unfold lexeme? at hmem
  split at hmem
  · cases hmem
  · have htext : t.text = String.ofList lead := congrArg Lexeme.text (List.mem_singleton.1 hmem)
    rw [htext, String.toList_ofList]
    exact unbroken_of_blank hlead

/-- A file with content on the line of the open marker. -/
theorem exists_cuts {before inside after : List Token} (hlead : IsBlanks lead)
    (htrail : IsBlanks trail) (hcontent : content.Proper false)
    (h : s.Alone c indent (lead ++ charsOf content.lexemes ++ trail) before inside after) :
    c.closer.line = c.opener.line ∧ ∃ leads ts trails first last,
      s.Cuts c before leads ts trails after first last ∧ ts.map Token.lexeme = content.lexemes := by
  have hinside := h.inside
  rw [docBody_line hlead htrail hcontent] at hinside
  obtain ⟨front, trails, rfl, hfront, htrails⟩ := List.map_eq_append_iff.1 hinside
  obtain ⟨leads, ts, rfl, hleads, hts⟩ := List.map_eq_append_iff.1 hfront
  obtain ⟨first, last, hrun⟩ := Token.exists_contentRun hcontent hts
  have hblank : ∀ {us : List Token} {cs : List Char}, us.map Token.lexeme = lexeme? .docBlank cs →
      ∀ t ∈ us, t.kind = .docBlank := by
    intro us cs hus t ht
    exact kind_of_mem_lexeme? (hus ▸ List.mem_map_of_mem ht)
  refine ⟨?_, leads, ts, trails, first, last,
    ⟨by simp [h.tokens], hblank hleads, hblank htrails, hrun⟩, hts⟩
  have htokens : s.tokens.toList =
      before ++ ((c.opener :: (leads ++ ts ++ trails)) ++ c.closer :: after) := by
    simp [h.tokens]
  refine (h.sound.line_of_append htokens (fun t ht => ?_) c.opener List.mem_cons_self).symm
  rcases List.mem_cons.1 ht with rfl | ht
  · rw [h.frames.openerText]
    decide
  · simp only [List.mem_append] at ht
    rcases ht with (ht | ht) | ht
    · exact unbroken_of_lexeme? hlead hleads t ht
    · exact hrun.unbroken t ht
    · exact unbroken_of_lexeme? htrail htrails t ht

/-- A file with a comment on three lines. -/
theorem exists_spread {before inside after : List Token} {margin : List Char}
    (hmargin : IsBlanks margin) (hne : margin ≠ []) (hcontent : content.Proper false)
    (h : s.Alone c indent (spreadBody margin (charsOf content.lexemes)) before inside after) :
    ∃ ts newline indent star gap ending blank first last, s.Spread c (String.ofList margin) before
      ts after newline indent star gap ending blank first last := by
  have hinside := h.inside
  rw [docBody_spread hmargin hne hcontent] at hinside
  obtain ⟨newline, rest, rfl, hnewline, hrest⟩ := List.map_eq_cons_iff.1 hinside
  obtain ⟨indent, rest, rfl, hindent, hrest⟩ := List.map_eq_cons_iff.1 hrest
  obtain ⟨star, rest, rfl, hstar, hrest⟩ := List.map_eq_cons_iff.1 hrest
  obtain ⟨gap, rest, rfl, hgap, hrest⟩ := List.map_eq_cons_iff.1 hrest
  obtain ⟨ts, rest, rfl, hts, hrest⟩ := List.map_eq_append_iff.1 hrest
  obtain ⟨ending, rest, rfl, hending, hrest⟩ := List.map_eq_cons_iff.1 hrest
  obtain ⟨blank, rest, rfl, hblank, hrest⟩ := List.map_eq_cons_iff.1 hrest
  obtain rfl := List.map_eq_nil_iff.1 hrest
  obtain ⟨first, last, hrun⟩ := Token.exists_contentRun hcontent hts
  have hunbroken : Unbroken (String.ofList margin).toList := by
    rw [String.toList_ofList]
    exact unbroken_of_blank hmargin
  exact ⟨ts, newline, indent, star, gap, ending, blank, first, last, by simp [h.tokens], hnewline,
    hindent, hstar, hgap, hending, hblank, hunbroken, hrun⟩

end Read

/-! ## Both passes -/

section Passes

variable {text : String} {indent lead trail : List Char} {content : Content}
  {before inside after : List Token}

/-- The pass over a comment on one line accepts two changes and writes three lines. -/
theorem Pass.exists_run_of_one_line (config : Config) (hindent : IsBlanks indent)
    (hlead : IsBlanks lead) (htrail : IsBlanks trail) (hcontent : content.Proper false)
    (htokenize : tokenize text = .ok s)
    (h : s.Alone c indent (lead ++ charsOf content.lexemes ++ trail) before inside after) :
    ∃ pass, Pass.run config text = .ok pass ∧ pass.fixer.accepted = 2 ∧
      pass.fixer.text = "<?php\n" ++ String.ofList indent ++ "/**\n" ++ String.ofList indent ++
        " * " ++ String.ofList (charsOf content.lexemes) ++ "\n" ++ String.ofList indent ++
        " */\n" := by
  obtain ⟨hline, leads, ts, trails, first, last, hcuts, hts⟩ := exists_cuts hlead htrail hcontent h
  obtain ⟨findings, hcheck, -, -, hrun⟩ := Pass.exists_run config htokenize
  obtain rfl := Except.ok.inj ((h.checkStream_eq config).symm.trans hcheck)
  have hwrote := hcuts.wrote h.sound h.frames
  rw [← fixes_of_one_line h.sound h.frames hline (hcuts.ofSpan_first h.sound.toPlaced)
    (hcuts.lastBetween h.sound.toPlaced h.frames)] at hwrote
  have hmargin : (Block.ofSpan s c).starIndent s = String.ofList indent ++ " " := by
    unfold Block.starIndent
    rw [hcuts.star?_eq h.sound.toPlaced, Block.ofSpan_opener]
    simp only [h.leadingWhitespace? hindent]
  have hcontentText : Token.textOf ts = String.ofList (charsOf content.lexemes) := by
    rw [← String.toList_inj, Token.toList_textOf, hts, String.toList_ofList]
  refine ⟨_, hrun, ?_, ?_⟩
  · rw [Pass.proposeAll_eq]
    exact hwrote.accepted
  · rw [Pass.proposeAll_eq]
    refine (hcuts.text_written h.sound h.frames hwrote).trans ?_
    rw [h.textOf_before, h.textOf_after, h.eol_eq, hmargin, hcontentText, ← String.toList_inj]
    simp

/-- The pass over the three lines accepts nothing. -/
theorem Pass.exists_run_of_three_lines (config : Config) {margin : List Char}
    (hmargin : IsBlanks margin) (hne : margin ≠ []) (hcontent : content.Proper false)
    (htokenize : tokenize text = .ok s)
    (h : s.Alone c indent (spreadBody margin (charsOf content.lexemes)) before inside after) :
    ∃ pass findings, Pass.run config text = .ok pass ∧ pass.fixer.changed = false ∧
      Lint.check config text = .ok findings := by
  obtain ⟨ts, newline, margin', star, gap, ending, blank, first, last, hspread⟩ :=
    exists_spread hmargin hne hcontent h
  obtain ⟨findings, hstream, -, hcheck, hrun⟩ := Pass.exists_run config htokenize
  obtain rfl := Except.ok.inj ((h.checkStream_eq config).symm.trans hstream)
  have hsilent := (silent_iff_tidy h.sound h.frames (hspread.ofSpan_first h.sound.toPlaced)).2
    (hspread.tidy h.sound h.frames)
  refine ⟨_, _, hrun, ?_, hcheck⟩
  rw [Pass.proposeAll_of_not_fixable _ hsilent]
  rfl

end Passes

/-- The text in front of the content of a comment on one line, and behind it, closes no comment. -/
theorem closed_line {lead trail content : List Char} (hlead : IsBlanks lead) (hne : lead ≠ [])
    (htrail : IsBlanks trail) (hcontent : Unclosed content) :
    Closed (lead ++ content ++ trail) := by
  have hslash : isBlank '/' = false := by decide
  obtain ⟨ch, rest, rfl⟩ := List.exists_cons_of_ne_nil hne
  refine ⟨unclosed_append_left (unclosed_append_right (hlead.not_mem hslash) ?_ hcontent)
    (htrail.not_mem hslash), ?_⟩
  · intro hstar
    have := hlead _ (List.mem_of_getLast? hstar)
    cases this
  · rintro ⟨⟩
    have := hlead '/' List.mem_cons_self
    cases this

/-- A spread body is closed by its own close marker only. -/
theorem closed_spread {margin content : List Char} (hmargin : IsBlanks margin)
    (hcontent : Unclosed content) : Closed (spreadBody margin content) := by
  have hslash : '/' ∉ margin := hmargin.not_mem (by decide)
  have hfront : Unclosed ('\n' :: margin ++ ['*', ' '] ++ content) := by
    refine unclosed_append_right (by simp [hslash]) ?_ hcontent
    rw [List.getLast?_append]
    simp
  have hwhole : Unclosed (('\n' :: margin ++ ['*', ' '] ++ content) ++ '\n' :: margin) :=
    unclosed_append_left hfront (by simp [hslash])
  refine ⟨?_, by simp [spreadBody]⟩
  simpa [spreadBody] using hwhole

/-- A run of two passes, of which the second accepts nothing. -/
theorem Lint.fix_of_two_passes {config : Config} {text : String} {first second : Pass}
    {violations : List Violation} (hlimit : 2 ≤ config.maxFixPasses)
    (hfirst : Pass.run config text = .ok first) (hchanged : first.fixer.changed = true)
    (hsecond : Pass.run config first.fixer.text = .ok second)
    (hunchanged : second.fixer.changed = false)
    (hcheck : check config first.fixer.text = .ok violations) :
    fix config text = .ok ⟨first.fixer.text, 2, true, first.fixer.accepted, violations⟩ := by
  obtain ⟨limit, hlimit⟩ := Nat.exists_eq_add_of_le' hlimit
  have hzero : second.fixer.accepted = 0 := by simpa [Fixer.changed] using hunchanged
  have hrun : FixRun.upTo config (limit + 2) text =
      ⟨[first, second], .ok (first.fixer.text, true)⟩ := by
    rw [FixRun.upTo]
    simp only [hfirst, hchanged, ↓reduceIte, FixRun.upTo_of_not_changed hsecond hunchanged]
  rw [fix, hlimit, hrun]
  exact FixRun.result_eq_ok.2 ⟨rfl, hcheck, rfl, by simp [FixRun.fixedCount, hzero]⟩

/-- A comment on one line, with its content behind blanks, becomes three lines: the first of two
passes takes the two changes, the second has none. -/
theorem Lint.fix_one_line {indent lead content trail : String} (hindent : IsBlanks indent.toList)
    (hlead : IsBlanks lead.toList) (hne : lead ≠ "") (htrail : IsBlanks trail.toList)
    (hcontent : IsString content.toList) (hclose : Unclosed content.toList) :
    ∃ violations, fix Config.default
        ("<?php\n" ++ indent ++ "/**" ++ lead ++ content ++ trail ++ "*/\n") =
      .ok ⟨"<?php\n" ++ indent ++ "/**\n" ++ indent ++ " * " ++ content ++ "\n" ++ indent ++
        " */\n", 2, true, 2, violations⟩ := by
  obtain ⟨said, hproper, hchars⟩ := Content.exists_of_isString hcontent
  have hone : Closed (lead.toList ++ charsOf said.lexemes ++ trail.toList) := by
    rw [hchars]
    exact closed_line hlead (by simpa using hne) htrail hclose
  have hmargin : IsBlanks (indent.toList ++ [' ']) := by
    intro ch hch
    rcases List.mem_append.1 hch with hch | hch
    · exact hindent ch hch
    · rw [List.mem_singleton.1 hch]
      rfl
  have hthree : Closed (spreadBody (indent.toList ++ [' ']) (charsOf said.lexemes)) := by
    rw [hchars]
    exact closed_spread hmargin hclose
  -- the first pass
  have htext : ("<?php\n" ++ indent ++ "/**" ++ lead ++ content ++ trail ++ "*/\n").toList =
      "<?php\n".toList ++ indent.toList ++ "/**".toList ++
        (lead.toList ++ charsOf said.lexemes ++ trail.toList) ++ "*/\n".toList := by
    simp [hchars]
  obtain ⟨s, c, before, inside, after, htokenize, halone⟩ := Stream.exists_alone hindent hone htext
  obtain ⟨first, hfirst, haccepted, hwritten⟩ :=
    Pass.exists_run_of_one_line Config.default hindent hlead htrail hproper htokenize halone
  rw [hchars, String.ofList_toList, String.ofList_toList] at hwritten
  -- the second pass reads what the first one wrote
  have htext' : first.fixer.text.toList = "<?php\n".toList ++ indent.toList ++ "/**".toList ++
      spreadBody (indent.toList ++ [' ']) (charsOf said.lexemes) ++ "*/\n".toList := by
    simp [hwritten, hchars, spreadBody]
  obtain ⟨s', c', before', inside', after', htokenize', halone'⟩ :=
    Stream.exists_alone hindent hthree htext'
  obtain ⟨second, violations, hsecond, hunchanged, hcheck⟩ :=
    Pass.exists_run_of_three_lines Config.default hmargin (by simp) hproper htokenize' halone'
  have hchanged : first.fixer.changed = true := by
    rw [Fixer.changed, haccepted]
    rfl
  refine ⟨violations, ?_⟩
  have hfix := fix_of_two_passes (by decide) hfirst hchanged hsecond hunchanged hcheck
  rwa [haccepted, hwritten] at hfix

/-- A tag with a value leaves its line, and the tab in front of the comment stays. -/
theorem Lint.fix_one_line_tag : ∃ violations,
    fix Config.default "<?php\n\t/** @param /x*/\n" =
      .ok ⟨"<?php\n\t/**\n\t * @param /x\n\t */\n", 2, true, 2, violations⟩ := by
  have htab : IsBlanks "\t".toList := by simp [IsBlanks, isBlank]
  have hspace : IsBlanks " ".toList := by simp [IsBlanks, isBlank]
  have hnone : IsBlanks "".toList := by simp [IsBlanks]
  have hcontent : IsString "@param /x".toList :=
    ⟨by simp, by decide, by simp [isBlank], by simp [isBlank]⟩
  have hclose : Unclosed "@param /x".toList := by
    unfold Unclosed
    decide
  obtain ⟨violations, hfix⟩ := fix_one_line htab hspace (by simp) hnone hcontent hclose
  exact ⟨violations, by simpa only [String.reduceAppend] using hfix⟩

end PhpDoc
