import PhpDoc.Proofs.Lint.Fix

/-!
# Tidy comments

A comment with content in which no layout rule finds anything to fix is tidy: its markers stand on
lines of their own, its stars in one column, single blank lines divide its descriptions and its
groups of tags, and the values of a group start in one column. `tidy_of_silent` proves it rule by
rule.
-/

namespace PhpDoc

open Text

/-- Nothing but blanks stands in front of the token on its line of the block. -/
def Block.Leads (s : Stream) (b : Block) (t : Token) : Prop :=
  ∀ u ∈ s.between b.opener.index t.index, u.line = t.line → u.kind = .docBlank

namespace Block

/-- The descriptions and tags of a block with a short description stand where they should. -/
structure TidyLines (s : Stream) (b : Block) (short : Description) : Prop where
  short_first : short.first.line = b.opener.line + 1
  long_first : ∀ long, b.long = some long → long.first.line = short.last.line + 2
  group_first : ∀ g ∈ b.groups s, ∃ t previous, g.tags.head? = some t ∧
    s.lastBetween Kind.isDocContent (b.opener.index + 1) t.token.index = some previous ∧
    t.token.line = previous.line + 2
  value_column : ∀ g ∈ b.groups s, ∀ t ∈ g.tags, ∀ v, t.value = some v →
    v.column = t.token.column + g.longest + 1

/-- The markers and stars of a block with content stand where they should, and so does the rest if
there is a short description. -/
structure Tidy (s : Stream) (b : Block) : Prop where
  open_alone : ∀ t ∈ s.between (b.opener.index + 1) b.closer.index,
    t.kind.isDocContent = true → t.line ≠ b.opener.line
  close_below : ∃ last,
    s.lastBetween Kind.isDocContent (b.opener.index + 1) b.closer.index = some last ∧
    last.line + 1 = b.closer.line
  star_column : ∀ t ∈ s.between (b.opener.index + 1) (b.closer.index + 1),
    t.kind = .docStar ∨ t.kind = .docClose → b.Leads s t → t.column = b.starColumn s
  lines : ∀ short, b.short = some short → b.TidyLines s short

end Block

/-- None of the findings comes with a fix. -/
def Silent (vs : List Violation) : Prop :=
  ∀ v ∈ vs, v.fixable = false

/-- Two rows of findings propose no fix exactly when neither of them does. -/
@[simp] theorem silent_append {vs ws : List Violation} :
    Silent (vs ++ ws) ↔ Silent vs ∧ Silent ws := by
  simp only [Silent, List.mem_append]
  constructor
  · intro h
    exact ⟨fun v hv => h v (.inl hv), fun v hv => h v (.inr hv)⟩
  · rintro ⟨h₁, h₂⟩ v (hv | hv)
    · exact h₁ v hv
    · exact h₂ v hv

/-- A rule with a fix that reports nothing to fix does not apply. -/
theorem condition_of_silent {condition : Bool} {family code message : String} {t : Token}
    {c : Changeset} (h : Silent (report condition (.fixed family code message t c))) :
    condition = false := by
  by_contra hcondition
  have hcondition : condition = true := by simpa using hcondition
  have := h _ (mem_report.2 ⟨hcondition, rfl⟩)
  cases this

namespace Layout

variable {s : Stream} {c : CommentSpan}

/-- A token right in front of the close marker that ends no line is a blank, if the marker leads its
line. -/
theorem kind_of_leads (hs : s.Sound) (hc : s.Frames c) (h : (Block.ofSpan s c).Leads s c.closer)
    {t u : Token} (ht : s.Has t) (hu : s.Has u) (hindex : u.index = t.index + 1)
    (hfrom : c.opener.index ≤ t.index) (hto : t.index < c.closer.index)
    (hline : u.line = c.closer.line) : t.kind = .docBlank ∧ c.opener.index < t.index := by
  have hkind : t.kind = .docBlank := by
    by_contra hkind
    have htline := (hc.line_next hs.toPlaced ht hu hindex hfrom (Nat.le_of_lt hto) hkind).1
    refine hkind (h t (hs.mem_between.2 ⟨ht, ?_, hto⟩) (by omega))
    rwa [Block.ofSpan_opener]
  refine ⟨hkind, ?_⟩
  rcases Nat.eq_or_lt_of_le hfrom with heq | hlt
  · rw [← hc.opener.eq ht heq, hc.openerKind] at hkind
    cases hkind
  · exact hlt

/-- When the close marker leads its line, there is a line break and one blank at most in front of
it. -/
theorem lineIndent?_of_leads (hs : s.Sound) (hc : s.Frames c)
    (h : (Block.ofSpan s c).Leads s c.closer) :
    ∃ indent, s.lineIndent? c.closer.index = some indent := by
  obtain ⟨r, hrun⟩ := hc.run
  have hlt := hc.lt
  obtain ⟨t, ht, hindex⟩ := hs.has_of_le (i := c.closer.index - 1) hc.closer (by omega)
  have htindex : c.closer.index = t.index + 1 := by omega
  -- the token in front of the marker is a line break, or a blank with a line break in front of it
  obtain ⟨hkind, hopener⟩ := kind_of_leads hs hc h ht hc.closer htindex (by omega) (by omega) rfl
  obtain ⟨q, hfront, move⟩ := Stream.Frames.exists_previous ht hopener htindex hrun
  rcases move.blank_or_ending hkind with ⟨-, rfl⟩ | ⟨hblank, hnext⟩
  · exact ⟨none, Stream.Frames.lineIndent?_of_lineStart hs.toPlaced hc.closer hlt hrun⟩
  · have htline := (hs.unbroken_next ht hc.closer htindex (unbroken_of_blank hblank)).1
    obtain ⟨w, hw, hwindex⟩ := hs.has_of_le (i := t.index - 1) ht (by omega)
    have hwt : t.index = w.index + 1 := by omega
    obtain ⟨hwkind, hwopener⟩ := kind_of_leads hs hc h hw ht hwt (by omega) (by omega) htline.symm
    obtain ⟨q', -, move'⟩ := Stream.Frames.exists_previous hw hwopener hwt hfront
    rcases move'.blank_or_ending hwkind with ⟨-, rfl⟩ | ⟨-, hnext'⟩
    · obtain rfl : Lexer.Spot.indented = r := by simpa [Lexer.Spot.afterBlank?] using hnext
      obtain ⟨b, -, -, -, hb⟩ :=
        Stream.Frames.lineIndent?_of_indented hs.toPlaced hc.closer hlt hrun
      exact ⟨some b, hb⟩
    · -- two runs of blanks would be one
      cases q' <;> simp [Lexer.Spot.afterBlank?] at hnext' <;> subst hnext' <;>
        simp [Lexer.Spot.afterBlank?] at hnext

/-- Without anything to fix, stars and the close marker stand in the star column. -/
theorem column_of_silent (hs : s.Sound) (hc : s.Frames c)
    (h : Silent (spaceBeforeStar s (Block.ofSpan s c))) {t : Token} (ht : s.Has t)
    (hfrom : c.opener.index < t.index) (hto : t.index ≤ c.closer.index)
    (hkind : t.kind = .docStar ∨ t.kind = .docClose) (hleads : (Block.ofSpan s c).Leads s t) :
    t.column = (Block.ofSpan s c).starColumn s := by
  have hindent : ∃ indent, s.lineIndent? t.index = some indent := by
    rcases Nat.eq_or_lt_of_le hto with heq | hlt
    · obtain rfl := ht.eq hc.closer heq
      exact lineIndent?_of_leads hs hc hleads
    · refine hc.lineIndent?_of_star hs.toPlaced ht hfrom hlt ?_
      rcases hc.kind ht hfrom hlt with h | h | h | h <;> simp [h] at hkind ⊢
  obtain ⟨indent, hindent⟩ := hindent
  by_contra hcolumn
  have hsome : ∃ v, starViolation? s (Block.ofSpan s c) t = some v ∧ v.fixable = true := by
    unfold starViolation?
    rw [hindent]
    simp only [if_neg hcolumn]
    exact ⟨_, rfl, rfl⟩
  obtain ⟨v, hv, hfixable⟩ := hsome
  have hmem : v ∈ spaceBeforeStar s (Block.ofSpan s c) := by
    refine List.mem_filterMap.2 ⟨t, List.mem_filter.2 ⟨hs.mem_between.2 ⟨ht, ?_, ?_⟩, ?_⟩, hv⟩
    · rw [Block.ofSpan_opener]
      exact hfrom
    · rw [Block.ofSpan_closer]
      exact Nat.lt_succ_of_le hto
    · rcases hkind with h | h <;> rw [h] <;> rfl
  rw [h v hmem] at hfixable
  cases hfixable

/-- Without anything to fix, the values of a group are aligned. -/
theorem column_value_of_silent (hs : s.Sound) (hc : s.Frames c) {g : TagGroup}
    (h : Silent (g.misaligned.map tagValueIndent)) {t : Tag} (ht : t ∈ g.tags) (hfits : t.Fits s c)
    {value : Token} (hvalue : t.value = some value) :
    value.column = t.token.column + g.longest + 1 := by
  have hcolumn := hfits.column_value hs hc hvalue
  have hle := TagGroup.length_name_le_longest ht
  have hpadding : (t.paddingWidth : Int) = requiredPadding g.longest t.name.length := by
    by_contra hne
    have hmem := TagGroup.mem_misaligned.2
      ⟨t, ht, TagGroup.misalignment?_eq_some.2 ⟨value, hvalue, hne, rfl⟩⟩
    have hfixable := h _ (List.mem_map_of_mem hmem)
    unfold tagValueIndent at hfixable
    simp only at hfixable
    split at hfixable <;> cases hfixable
  unfold requiredPadding at hpadding
  omega

/-- Without anything to fix, every group of tags but the first is one blank line below the content
in front of it. -/
theorem group_first_of_silent {b : Block} {g : TagGroup} {gs : List TagGroup}
    (h : Silent (groupSpacing s b (g :: gs))) (hne : ∀ g' ∈ g :: gs, g'.tags ≠ []) :
    ∀ g' ∈ gs, ∃ t, g'.tags.head? = some t ∧ ∀ previous,
      s.lastBetween Kind.isDocContent b.opener.index t.token.index = some previous →
      t.token.line = previous.line + 2 := by
  induction gs generalizing g with
  | nil => simp
  | cons g' gs ih =>
      rw [groupSpacing, silent_append, silent_append] at h
      obtain ⟨⟨hspacing, -⟩, hrest⟩ := h
      obtain ⟨hg, hgs⟩ := List.forall_mem_cons.1 hne
      obtain ⟨hg', -⟩ := List.forall_mem_cons.1 hgs
      refine List.forall_mem_cons.2 ⟨?_, ih hrest hgs⟩
      obtain ⟨t, ts, htags⟩ := List.exists_cons_of_ne_nil hg'
      refine ⟨t, by rw [htags]; rfl, fun previous hprevious => ?_⟩
      have hlast : g.tags.getLast? = some (g.tags.getLast hg) := List.getLast?_eq_some_getLast hg
      simp only [List.head?_cons, Option.bind_some, htags, hlast, spacingAfterGroup, hprevious]
        at hspacing
      have := condition_of_silent hspacing
      simpa using this

/-- There is content in front of everything behind the first content. -/
theorem exists_lastBetween (hs : s.Sound) {first : Token}
    (hfirst : (Block.ofSpan s c).first = some first) {i : Nat} (hlt : first.index < i) :
    ∃ previous, s.lastBetween (!·.isFiller) c.opener.index i = some previous := by
  obtain ⟨hhas, hfrom, -, hkind, -⟩ := Block.first_spec hs.toPlaced hfirst
  cases hlast : s.lastBetween (!·.isFiller) c.opener.index i with
  | some previous => exact ⟨previous, rfl⟩
  | none =>
      have := hs.lastBetween_eq_none.1 hlast first hhas (Nat.le_of_lt hfrom) hlt
      rw [hkind] at this
      cases this

/-- In front of every tag of a block that starts with a description stands other content, and the
last of it is content of the comment. -/
theorem exists_lastBetween_tag (hs : s.Sound) (hc : s.Frames c) {first : Token}
    (hfirst : (Block.ofSpan s c).first = some first) (hstring : first.kind = .docString) {t : Tag}
    (ht : t ∈ (Block.ofSpan s c).tags) :
    ∃ previous, s.lastBetween (!·.isFiller) c.opener.index t.token.index = some previous ∧
      s.lastBetween Kind.isDocContent (c.opener.index + 1) t.token.index = some previous := by
  have hlt := Block.first_lt_tag hs.toPlaced hc hfirst hstring ht
  have hfits := Block.fits_of_mem_tags hs.toPlaced hc ht
  obtain ⟨previous, hp⟩ := exists_lastBetween hs hfirst hlt
  have hle : t.token.index ≤ c.closer.index :=
    Nat.le_of_lt (Nat.lt_of_lt_of_le hfits.lt_stop hfits.stop_le)
  exact ⟨previous, hp, Block.lastBetween_content hs.toPlaced hc hfirst hlt hle hp⟩

/-- Without anything to fix, every group of tags is one blank line below the content in front of
it. -/
theorem group_first_of_silent_tags (hs : s.Sound) (hc : s.Frames c) {first : Token}
    (hfirst : (Block.ofSpan s c).first = some first) (hstring : first.kind = .docString)
    (h : Silent (checkTags s (Block.ofSpan s c))) :
    ∀ g ∈ (Block.ofSpan s c).groups s, ∃ t previous, g.tags.head? = some t ∧
      s.lastBetween Kind.isDocContent (c.opener.index + 1) t.token.index = some previous ∧
      t.token.line = previous.line + 2 := by
  intro g hg
  have hnonempty : ∀ g ∈ (Block.ofSpan s c).groups s, g.tags ≠ [] :=
    fun g hg => Block.tags_ne_nil_of_groups hg
  have hprevious : ∀ t, g.tags.head? = some t → ∃ previous,
      s.lastBetween (!·.isFiller) c.opener.index t.token.index = some previous ∧
      s.lastBetween Kind.isDocContent (c.opener.index + 1) t.token.index = some previous :=
    fun t ht => exists_lastBetween_tag hs hc hfirst hstring
      (Block.mem_tags_of_groups hg (List.mem_of_head? ht))
  unfold checkTags at h
  split at h
  · next hnil =>
      obtain ⟨t, ts, htags⟩ := List.exists_cons_of_ne_nil (hnonempty g hg)
      have hmem := Block.mem_tags_of_groups hg (htags ▸ List.mem_cons_self)
      rw [hnil] at hmem
      cases hmem
  · next firstTag rest htags =>
      obtain ⟨g₀, gs, hgroups, hhead⟩ := Block.exists_first_group (s := s) htags
      simp only [silent_append] at h
      obtain ⟨⟨⟨⟨hbefore, -⟩, hspacing⟩, -⟩, -⟩ := h
      rw [hgroups] at hspacing hnonempty hg
      -- the rule for the first group is the one for the first tag of the block
      rcases List.mem_cons.1 hg with rfl | hlater
      · obtain ⟨previous, hp, hcontent⟩ := hprevious firstTag hhead
        refine ⟨firstTag, previous, hhead, hcontent, ?_⟩
        unfold spacingBeforeTags at hbefore
        rw [Block.ofSpan_opener, hp] at hbefore
        simpa using condition_of_silent hbefore
      · obtain ⟨t, ht, hline⟩ := group_first_of_silent hspacing hnonempty g hlater
        obtain ⟨previous, -, hcontent⟩ := hprevious t ht
        refine ⟨t, previous, ht, hcontent, hline previous ?_⟩
        rw [Block.ofSpan_opener]
        exact (Block.lastBetween_opener hs.toPlaced hc).2 hcontent

/-- Where the groups propose no fix, none of their values is moved. -/
theorem silent_groupSpacing {b : Block} {gs : List TagGroup} (h : Silent (groupSpacing s b gs))
    {g : TagGroup} (hg : g ∈ gs) : Silent (g.misaligned.map tagValueIndent) := by
  induction gs with
  | nil => cases hg
  | cons g' gs ih =>
      rw [groupSpacing, silent_append, silent_append] at h
      rcases List.mem_cons.1 hg with rfl | hg
      · exact h.1.2
      · exact ih h.2 hg

/-- Without anything to fix, a block with a short description has tidy lines. -/
theorem tidyLines_of_silent (hs : s.Sound) (hc : s.Frames c) {short : Description}
    (hshort : (Block.ofSpan s c).short = some short)
    (hopen : short.first.line ≠ c.opener.line)
    (h : Silent (checkDescriptions s (Block.ofSpan s c))) :
    (Block.ofSpan s c).TidyLines s short := by
  obtain ⟨hfirst, hstring, -⟩ := Block.short_first hs.toPlaced hc hshort
  obtain ⟨hhas, hfrom, -, -, -⟩ := Block.first_spec hs.toPlaced hfirst
  have hmono := hs.line_le hc.opener hhas (Nat.le_of_lt hfrom)
  unfold checkDescriptions at h
  rw [hshort] at h
  simp only [silent_append] at h
  obtain ⟨⟨⟨hbefore, -⟩, hlong⟩, htags⟩ := h
  have hgroups := group_first_of_silent_tags hs hc hfirst hstring htags
  constructor
  · rw [Block.ofSpan_opener]
    have hbefore := condition_of_silent hbefore
    rw [Block.ofSpan_opener, decide_eq_false_iff_not] at hbefore
    omega
  · intro long hl
    rw [hl] at hlong
    simp only [silent_append] at hlong
    simpa using condition_of_silent hlong.1
  · rw [Block.ofSpan_opener]
    exact hgroups
  · intro g hg t ht value hvalue
    have htag := Block.mem_tags_of_groups hg ht
    have hfits := Block.fits_of_mem_tags hs.toPlaced hc htag
    unfold checkTags at htags
    split at htags
    · next hnil =>
        rw [hnil] at htag
        cases htag
    · simp only [silent_append] at htags
      exact column_value_of_silent hs hc (silent_groupSpacing htags.1.1.2 hg) ht hfits hvalue

/-- A comment with content in which no layout rule finds anything to fix is tidy. -/
theorem tidy_of_silent (hs : s.Sound) (hc : s.Frames c) {first : Token}
    (hfirst : (Block.ofSpan s c).first = some first)
    (h : Silent (check s (Block.ofSpan s c))) : (Block.ofSpan s c).Tidy s := by
  obtain ⟨hhas, hfrom, hto, hkind, hfiller⟩ := Block.first_spec hs.toPlaced hfirst
  unfold check at h
  rw [hfirst] at h
  simp only [silent_append] at h
  obtain ⟨hcontent, hstars⟩ := h
  unfold checkContent at hcontent
  rw [silent_append] at hcontent
  obtain ⟨hopen, hrest⟩ := hcontent
  have hopenLine := condition_of_silent hopen
  rw [Block.ofSpan_opener, beq_eq_false_iff_ne] at hopenLine
  have hmono := hs.line_le hc.opener hhas (Nat.le_of_lt hfrom)
  obtain ⟨last, hlast⟩ := exists_lastBetween hs hfirst hto
  rw [Block.ofSpan_opener, Block.ofSpan_closer, hlast] at hrest
  simp only [silent_append] at hrest
  obtain ⟨⟨hclose, hafter⟩, hdescriptions⟩ := hrest
  have hlastContent := Block.lastBetween_content hs.toPlaced hc hfirst hto (Nat.le_refl _) hlast
  obtain ⟨hlhas, hlfrom, hlto, -, -⟩ := hs.lastBetween.1 hlastContent
  refine ⟨?_, ⟨last, by rw [Block.ofSpan_opener, Block.ofSpan_closer]; exact hlastContent, ?_⟩,
    ?_, ?_⟩
  · -- all content stands behind the first content, which is not on the open line
    intro t ht htcontent
    rw [Block.ofSpan_opener, Block.ofSpan_closer] at *
    obtain ⟨hthas, htfrom, htto⟩ := hs.mem_between.1 ht
    have hle : first.index ≤ t.index := by
      by_contra hlt
      have := hfiller t hthas htfrom (by omega)
      rw [(hc.isFiller_eq_false hthas htfrom htto).2 htcontent] at this
      cases this
    have := hs.line_le hhas hthas hle
    omega
  · -- the last content is above the close marker, and by one line only
    have hcloseLine := condition_of_silent hclose
    have hafterLine := condition_of_silent hafter
    rw [Block.ofSpan_closer] at *
    rw [beq_eq_false_iff_ne] at hcloseLine
    rw [decide_eq_false_iff_not] at hafterLine
    have := hs.line_le hlhas hc.closer (Nat.le_of_lt hlto)
    omega
  · intro t ht htkind hleads
    rw [Block.ofSpan_opener, Block.ofSpan_closer] at ht
    obtain ⟨hthas, htfrom, htto⟩ := hs.mem_between.1 ht
    exact column_of_silent hs hc hstars hthas htfrom (Nat.le_of_lt_succ htto) htkind hleads
  · intro short hshort
    obtain ⟨hshortFirst, -, -⟩ := Block.short_first hs.toPlaced hc hshort
    obtain rfl : first = short.first := Option.some.inj (hfirst.symm.trans hshortFirst)
    exact tidyLines_of_silent hs hc hshort (fun heq => hopenLine heq) hdescriptions

end Layout

namespace Lint

/-- In a converged result every comment with content is tidy. -/
theorem tidy_of_converged {config : Config} {text : String} {r : FixResult}
    (h : fix config text = .ok r) (hconverged : r.converged = true) :
    ∃ s, tokenize r.text = .ok s ∧ ∀ c ∈ s.comments, (Block.ofSpan s c).first.isSome = true →
      (Block.ofSpan s c).Tidy s := by
  obtain ⟨s, hs, hcheck, hnot⟩ := not_fixable_of_converged h hconverged
  have hsound := Stream.sound_of_tokenize hs
  refine ⟨s, hs, fun c hc hfirst => ?_⟩
  obtain ⟨first, hfirst⟩ := Option.isSome_iff_exists.1 hfirst
  exact Layout.tidy_of_silent hsound (hsound.frames hc) hfirst fun v hv =>
    hnot v (mem_checkStream_of_layout hsound hcheck hc hv)

/-- Fixing a comment with content on its open line leaves both of its descriptions, its two groups of
tags and their values in their places. -/
theorem tidy_open_line :
    let text := "<?php\n/** F\n *\n * G\n *\n * @a  b\n *\n * @cd e\n */"
    ∃ r s, fix Config.default text = .ok r ∧ r.converged = true ∧ tokenize r.text = .ok s ∧
      ∃ c ∈ s.comments, ∃ short, (Block.ofSpan s c).short = some short ∧
        (Block.ofSpan s c).first = some short.first ∧ (Block.ofSpan s c).long.isSome = true ∧
        ((Block.ofSpan s c).groups s).length = 2 ∧
        (∀ g ∈ (Block.ofSpan s c).groups s, ∃ t ∈ g.tags, t.value.isSome = true) ∧
        (Block.ofSpan s c).Tidy s ∧ (Block.ofSpan s c).TidyLines s short := by
  intro text
  let fixed := "<?php\n/**\n * F\n *\n * G\n *\n * @a b\n *\n * @cd e\n */"
  obtain ⟨r, hr, hany⟩ := exists_ok_of_any (x := fix Config.default text)
    (p := fun r => r.converged && r.text == fixed) (by decide +kernel)
  simp only [Bool.and_eq_true, beq_iff_eq] at hany
  obtain ⟨hconverged, htext⟩ := hany
  obtain ⟨s, hs, htidy⟩ := tidy_of_converged hr hconverged
  obtain ⟨s', hs', hlook⟩ := exists_ok_of_any (x := tokenize fixed)
    (p := fun s => s.comments.any fun c =>
      let b := Block.ofSpan s c
      b.short.any fun short => decide (b.first = some short.first ∧ b.long.isSome = true ∧
        (b.groups s).length = 2 ∧ ∀ g ∈ b.groups s, ∃ t ∈ g.tags, t.value.isSome = true))
    (by decide +kernel)
  obtain rfl : s = s' := Except.ok.inj (hs.symm.trans (htext ▸ hs'))
  obtain ⟨c, hc, hlook⟩ := List.any_eq_true.1 hlook
  obtain ⟨short, hshort, hlook⟩ := (Option.any_eq_true _ _).1 hlook
  obtain ⟨hfirst, hlong, hgroups, hvalues⟩ := of_decide_eq_true hlook
  have htidy := htidy c hc (by rw [hfirst, Option.isSome_some])
  exact ⟨r, s, hr, hconverged, hs, c, hc, short, hshort, hfirst, hlong, hgroups, hvalues, htidy,
    htidy.lines short hshort⟩

end Lint

end PhpDoc
