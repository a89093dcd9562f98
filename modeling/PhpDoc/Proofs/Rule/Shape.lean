import PhpDoc.Proofs.Rule.Effective
import PhpDoc.Proofs.Rule.Writing

/-!
# The shapes of the layout fixes

Every fix of the layout rewrites a range of the tokens of its comment, and there are few ways in
which it does so (`Layout.Shape`): it drops lines, puts the content or the close marker on a line of
its own, leaves one blank line, or rewrites the blank in front of a token.
`Layout.Repair.exists_shape` finds the shape of every fix, with the spots of the line grammar
between which the range stands.
-/

namespace PhpDoc

open Text Lexer

namespace Layout

/-- A fix of the layout by the range of tokens that it rewrites. -/
inductive Shape (s : Stream) (c : CommentSpan) (change : Changeset) : Nat → Nat → Prop where
  /-- The first content gets a line of its own. -/
  | openLine {first : Token} {indent : String} (content : c.Contains s first)
      (vacant : s.Vacant (c.opener.index + 1) first.index) (blanks : IsBlanks indent.toList)
      (writes : ∀ t, s.Has t → change.current t =
        if t.index = c.opener.index then t.text ++ s.eol
        else if t.index = first.index then indent ++ "* " ++ t.text
        else if c.opener.index < t.index ∧ t.index < first.index then "" else t.text) :
      Shape s c change c.opener.index (first.index + 1)
  /-- The close marker gets a line of its own. -/
  | closeLine {last : Token} {indent : String} (has : s.Has last)
      (opener_le : c.opener.index ≤ last.index) (lt_closer : last.index < c.closer.index)
      (line : last.line = c.closer.line)
      (vacant : s.Vacant (last.index + 1) c.closer.index) (blanks : IsBlanks indent.toList)
      (writes : ∀ t, s.Has t → change.current t =
        if t.index = c.closer.index then s.eol ++ indent ++ t.text
        else if last.index < t.index ∧ t.index < c.closer.index then "" else t.text) :
      Shape s c change (last.index + 1) (c.closer.index + 1)
  /-- What follows the last content is dropped up to the line break in front of the last line. -/
  | cut {last bottom : Token} (opener_le : c.opener.index ≤ last.index)
      (last_eq : s.lastBetween (!·.isFiller) c.opener.index c.closer.index = some last)
      (first : s.FirstOn bottom c.closer.line) (last_lt : last.index < bottom.index)
      (le_closer : bottom.index ≤ c.closer.index)
      (spot : c.SpotAt s bottom.index .lineStart)
      (drops : change.Drops s (last.index + 1) (bottom.index - 1)) :
      Shape s c change (last.index + 1) (bottom.index - 1)
  /-- Lines above content are dropped. -/
  | lines {i j : Nat} {following : Token} (opener_lt : c.opener.index < i) (le : i ≤ j)
      (content : c.Contains s following) (le_following : j ≤ following.index)
      (vacant : s.Vacant i j) (spot : c.SpotAt s i .lineStart) (spot' : c.SpotAt s j .lineStart)
      (drops : change.Drops s i j) : Shape s c change i j
  /-- One blank line is left between content. -/
  | blankLine {previous following : Token} {j : Nat} {indent : String}
      (content : c.Contains s previous) (content' : c.Contains s following)
      (lt : previous.index < j) (le_following : j ≤ following.index)
      (vacant : s.Vacant (previous.index + 1) j) (spot : c.SpotAt s j .lineStart)
      (blanks : IsBlanks indent.toList)
      (writes : ∀ t, s.Has t → change.current t =
        if t.index = previous.index then t.text ++ (s.eol ++ indent ++ "*" ++ s.eol)
        else if previous.index < t.index ∧ t.index < j then "" else t.text) :
      Shape s c change previous.index j
  /-- A blank gets another text. -/
  | respace {t : Token} {p : Spot} {text : String} (has : s.Has t)
      (opener_lt : c.opener.index < t.index) (lt_closer : t.index < c.closer.index)
      (kind : t.kind = .docBlank) (blank : IsBlanks t.text.toList)
      (spot : c.SpotAt s t.index p) (blanks : IsBlanks text.toList)
      (empty : text = "" → p = .lineStart) (ne : text ≠ t.text)
      (writes : ∀ u, s.Has u → change.current u = if u.index = t.index then text else u.text) :
      Shape s c change t.index (t.index + 1)
  /-- A token gets a blank in front of it. -/
  | prepend {t : Token} {p q : Spot} {text : String} (has : s.Has t)
      (opener_lt : c.opener.index < t.index) (lt_closer : t.index < c.closer.index)
      (kind : t.kind ≠ .docBlank) (spot : c.SpotAt s t.index p) (next : p.afterBlank? = some q)
      (blanks : IsBlanks text.toList) (ne : text ≠ "")
      (writes : ∀ u, s.Has u →
        change.current u = if u.index = t.index then text ++ u.text else u.text) :
      Shape s c change t.index (t.index + 1)
  /-- The close marker is indented. -/
  | indentClose {text : String} (spot : c.SpotAt s c.closer.index .lineStart)
      (blanks : IsBlanks text.toList) (ne : text ≠ "")
      (writes : ∀ u, s.Has u →
        change.current u = if u.index = c.closer.index then text ++ u.text else u.text) :
      Shape s c change c.closer.index (c.closer.index + 1)

variable {s : Stream} {c : CommentSpan} {change : Changeset}

/-! ## The shape of every fix -/

/-- The first content is content. -/
theorem contains_first (hs : s.Placed) (hc : s.Frames c) {first : Token}
    (h : (Block.ofSpan s c).first = some first) :
    c.Contains s first ∧ s.Vacant (c.opener.index + 1) first.index := by
  obtain ⟨hhas, hfrom, hto, hkind, hfiller⟩ := Block.first_spec hs h
  exact ⟨⟨hhas, hfrom, hto, (hc.isFiller_eq_false hhas hfrom hto).1 hkind⟩,
    fun u hu hopener hlt => hfiller u hu hopener hlt⟩

/-- Dropping the lines in front of the close marker touches one range of tokens. -/
theorem shape_blankBeforeClose (hs : s.Placed) (hc : s.Frames c) {last : Token}
    (hlast : s.lastBetween (!·.isFiller) c.opener.index c.closer.index = some last)
    (hline : last.line + 1 < c.closer.line) :
    ∃ i j, Shape s c (blankBeforeClose s (Block.ofSpan s c) last) i j := by
  obtain ⟨hhas, hfrom, hto, -, -⟩ := hs.lastBetween.1 hlast
  obtain ⟨bottom, hbottom, hlt, hle, hspot⟩ := hc.exists_firstOn hs hhas hc.closer hfrom
    (Nat.le_refl _) c.closer.line (by omega) (Nat.le_refl _)
  exact ⟨_, _, .cut hfrom hlast hbottom hlt hle hspot
    (drops_blankBeforeClose hs hc hbottom hlt)⟩

/-- Dropping the lines in front of the short description touches one range of tokens. -/
theorem shape_blankBeforeShort (hs : s.Placed) (hc : s.Frames c) {short : Description}
    (hshort : (Block.ofSpan s c).short = some short)
    (hline : c.opener.line + 1 < short.first.line) :
    ∃ i j, Shape s c (blankBeforeShort s (Block.ofSpan s c) short) i j := by
  obtain ⟨hcontent, hvacant⟩ := contains_first hs hc (Block.short_first hs hc hshort).1
  have hto := Nat.le_of_lt hcontent.lt_closer
  obtain ⟨top, htop, hopener, -, hspot⟩ := hc.exists_firstOn hs hc.opener hcontent.has
    (Nat.le_refl _) hto (c.opener.line + 1) (Nat.lt_succ_self _) (Nat.le_of_lt hline)
  obtain ⟨bottom, hbottom, -, hle, hspot'⟩ := hc.exists_firstOn hs hc.opener hcontent.has
    (Nat.le_refl _) hto short.first.line (by omega) (Nat.le_refl _)
  have htopLine := htop.line_eq
  have hlt := (hbottom.lt_iff htop.has).2 (by omega)
  exact ⟨_, _, .lines hopener (Nat.le_of_lt hlt) hcontent hle
    (fun u hu hfrom hbefore => hvacant u hu (by omega) (by omega)) hspot hspot'
    (drops_blankBeforeShort hs hc htop hbottom hcontent.has)⟩

/-- Dropping the lines between the descriptions touches one range of tokens. -/
theorem shape_blankBetween (hs : s.Placed) (hc : s.Frames c) {short long : Description}
    (hshort : (Block.ofSpan s c).short = some short) (hlong : (Block.ofSpan s c).long = some long)
    (hline : long.first.line ≠ short.last.line + 2) :
    ∃ i j, Shape s c (blankBetween s short long) i j := by
  have hlines := Block.short_line_lt_long hs hc hshort hlong
  obtain ⟨hlhas, hkind, hlt, hstop, hfiller⟩ := Block.long_first hs hc hshort hlong
  obtain ⟨hdhas, -, hle, -⟩ := Block.mem_short_strings hs hc hshort (Block.last_mem_strings short)
  have hfirst := (contains_first hs hc (Block.short_first hs hc hshort).1).1.opener_lt
  have hclose := hc.stop_le hs
  have hcontent : c.Contains s long.first := ⟨hlhas, by omega, by omega, by rw [hkind]; rfl⟩
  obtain ⟨top, htop, htopLt, -, hspot⟩ := hc.exists_firstOn hs hdhas hlhas (by omega) (by omega)
    (short.last.line + 1) (Nat.lt_succ_self _) (by omega)
  obtain ⟨bottom, hbottom, -, hbottomLe, hspot'⟩ := hc.exists_firstOn hs hdhas hlhas (by omega)
    (by omega) (long.first.line - 1) (by omega) (Nat.sub_le _ _)
  have htopLine := htop.line_eq
  have hbefore := (hbottom.lt_iff htop.has).2 (by omega)
  exact ⟨_, _, .lines (by omega) (Nat.le_of_lt hbefore) hcontent hbottomLe
    (fun u hu hfrom hto => hfiller u hu (by omega) (by omega)) hspot hspot'
    (drops_blankBetween hs htop hbottom hdhas hlhas)⟩

/-- Leaving one blank line in front of a tag touches one range of tokens. -/
theorem shape_singleBlankLine (hs : s.Placed) (hc : s.Frames c) {previous : Token} {t : Tag}
    (ht : t ∈ (Block.ofSpan s c).tags)
    (hprevious :
      s.lastBetween Kind.isDocContent (c.opener.index + 1) t.token.index = some previous)
    {indent : String} (hindent : IsBlanks indent.toList) :
    ∃ i j, Shape s c (singleBlankLine s previous t.token indent) i j := by
  have hfits := Block.fits_of_mem_tags hs hc ht
  obtain ⟨hhas, hfrom, hto, hkind, hlast⟩ := hs.lastBetween.1 hprevious
  have hstop := hfits.lt_stop
  have hclose := hfits.stop_le
  have hline := hc.line_lt_of_tag hs hhas hfits.token hfrom (by omega) hkind hfits.kind hto
  obtain ⟨bottom, hbottom, hlt, hle, hspot⟩ := hc.exists_firstOn hs hhas hfits.token (by omega)
    (by omega) t.token.line hline (Nat.le_refl _)
  refine ⟨_, _, .blankLine ⟨hhas, hfrom, by omega, hkind⟩
    ⟨hfits.token, hfits.opener_lt, by omega, by rw [hfits.kind]; rfl⟩ hlt hle ?_ hspot hindent
    fun u hu => current_singleBlankLine hs hhas hfits.token hbottom indent hu⟩
  intro u hu hpu hub
  cases hfiller : u.kind.isFiller with
  | true => rfl
  | false =>
      have hcontent := (hc.isFiller_eq_false hu (by omega) (by omega)).1 hfiller
      rw [hlast u hu (by omega) (by omega)] at hcontent
      cases hcontent

/-- A tag has its line to itself up to its value. -/
theorem spotAt_tagged (hc : s.Frames c) {t : Tag} (ht : t.Fits s c) :
    c.SpotAt s (t.token.index + 1) .tagged := by
  have hstop := ht.lt_stop
  have hclose := ht.stop_le
  obtain ⟨p, hp⟩ := hc.exists_spotAt ht.opener_lt (by omega)
  obtain ⟨q, hmove, hq⟩ := hc.move_of_spotAt ht.token ht.opener_lt (by omega) hp
  rcases hmove.leads with h | ⟨h, -⟩ | ⟨-, rfl⟩ | ⟨h, -⟩
  · rw [Token.lexeme_kind, ht.kind] at h
    cases h
  · rw [Token.lexeme_kind, ht.kind] at h
    cases h
  · exact hq
  · rw [Token.lexeme_kind, ht.kind] at h
    cases h

/-- Padding a value touches one range of tokens. -/
theorem shape_pad (hs : s.Sound) (hc : s.Frames c) {g : TagGroup} {m : Misalignment}
    (hg : ∀ t ∈ g.tags, t.Fits s c) (hm : m ∈ g.misaligned) : ∃ i j, Shape s c (pad m) i j := by
  have hchanges := changes_pad hg hm
  obtain ⟨t, ht, hmis⟩ := TagGroup.mem_misaligned.1 hm
  obtain ⟨value, hvalue, -, rfl⟩ := TagGroup.misalignment?_eq_some.1 hmis
  have hone := one_le_requiredPadding (TagGroup.length_name_le_longest ht)
  have hfits := hg t ht
  obtain ⟨hvhas, hvkind, -, hvstop⟩ := hfits.value value hvalue
  have hclose := hfits.stop_le
  have hopener := hfits.opener_lt
  have hspot := spotAt_tagged hc hfits
  have hpos : spaces (requiredPadding g.longest t.name.length).toNat ≠ "" :=
    spaces_ne_empty (by omega)
  unfold pad at hchanges ⊢
  simp only at hchanges ⊢
  cases hpadding : t.padding with
  | some blank =>
      rw [hpadding] at hchanges
      obtain ⟨hblank, hkind, hindex, w, hw, hwindex⟩ := hfits.padding blank hpadding
      obtain rfl : value = w := Option.some.inj (hvalue.symm.trans hw)
      have hblanks : IsBlanks blank.text.toList := by
        rcases hs.blank hblank hkind with hending | hblanks
        · exact absurd (hfits.unbroken_padding hs hpadding) hending.not_unbroken
        · exact hblanks
      rw [← hindex] at hspot
      refine ⟨_, _, .respace hblank (by omega) (by omega) hkind hblanks hspot (isBlank_spaces _)
        (fun hempty => absurd hempty hpos) (hchanges.ne_of_replace hblank) fun v _ => ?_⟩
      rw [Changeset.current_replace, Changeset.current_empty]
  | none =>
      have hindex := hfits.unpadded value hvalue hpadding
      rw [← hindex] at hspot
      exact ⟨_, _, .prepend hvhas (by omega) (by omega) (by rw [hvkind]; decide) hspot rfl
        (isBlank_spaces _) hpos fun v hv => Changeset.current_prepend_empty hvhas hv _⟩

/-- Moving a star to its column touches one range of tokens. -/
theorem shape_indent (hs : s.Sound) (hc : s.Frames c)
    (hindent : IsBlanks ((Block.ofSpan s c).starIndent s).toList) {t : Token} {blank : Option Token}
    (ht : s.Has t) (hfrom : c.opener.index < t.index) (hto : t.index ≤ c.closer.index)
    (hkind : t.kind = .docStar ∨ t.kind = .docClose) (hline : s.lineIndent? t.index = some blank)
    (hcolumn : t.column ≠ (Block.ofSpan s c).starColumn s) :
    ∃ i j, Shape s c (indent s (Block.ofSpan s c) t blank) i j := by
  have hopener : s.Has (Block.ofSpan s c).opener := by
    rw [Block.ofSpan_opener]
    exact hc.opener
  have hchanges := changes_indent hs hopener ht hline hcolumn
  cases blank with
  | some blank =>
      obtain ⟨hblank, hindex, hblankKind, hends, w, hw, hwindex, hwends⟩ :=
        hs.lineIndent?_some_some hline
      have hlt : c.opener.index < blank.index := by
        by_contra hnot
        rw [hblank.eq hc.opener (by omega), hc.openerKind] at hblankKind
        cases hblankKind
      have hspot := hc.spotAt_of_endsLine hw (by omega) (by omega) hwends
      rw [hwindex] at hspot
      have hblanks : IsBlanks blank.text.toList := by
        rcases hs.blank hblank hblankKind with hending | hblanks
        · rw [Stream.Frames.endsLine_of_isEnding hending] at hends
          cases hends
        · exact hblanks
      -- where the stars stand in the first column, the indentation is dropped
      refine ⟨_, _, .respace hblank hlt (by omega) hblankKind hblanks hspot hindent
        (fun _ => rfl) (hchanges.ne_of_replace hblank) fun v _ => ?_⟩
      rw [indent, Changeset.current_replace, Changeset.current_empty]
  | none =>
      have hpos := hchanges.ne_of_prepend ht
      obtain ⟨w, hw, hwindex, hwends⟩ :=
        (hs.lineIndent?_some_none hline).resolve_left fun hnone => by
          have hzero := (Stream.before?_eq_none ht).1 hnone
          omega
      have hspot := hc.spotAt_of_endsLine hw (by omega) (by omega) hwends
      rw [hwindex] at hspot
      have hwrites := fun v hv =>
        Changeset.current_prepend_empty ht (u := v) hv ((Block.ofSpan s c).starIndent s)
      rcases Nat.eq_or_lt_of_le hto with heq | hlt
      · obtain rfl := ht.eq hc.closer heq
        exact ⟨_, _, .indentClose hspot hindent hpos hwrites⟩
      · have hstar : t.kind ≠ .docBlank := by
          rcases hkind with h | h <;> rw [h] <;> decide
        exact ⟨_, _, .prepend ht hfrom hlt hstar hspot rfl hindent hpos hwrites⟩

/-- Every fix of the layout has a shape, when the stars of the comment are indented by blanks. -/
theorem Repair.exists_shape (hs : s.Sound) (hc : s.Frames c)
    (hindent : IsBlanks ((Block.ofSpan s c).starIndent s).toList) (h : Repair s c change) :
    ∃ i j, Shape s c change i j := by
  cases h with
  | openLine first_eq line =>
      obtain ⟨hcontent, hvacant⟩ := contains_first hs.toPlaced hc first_eq
      exact ⟨_, _, .openLine hcontent hvacant hindent fun t ht =>
        current_openLine hs hc first_eq ht⟩
  | @closeLine last last_eq line =>
      obtain ⟨hhas, hfrom, hto, -, hlast⟩ := hs.lastBetween.1 last_eq
      refine ⟨_, _, .closeLine hhas hfrom hto line (fun u hu hlt hbefore => ?_) hindent fun t ht =>
        current_closeLine hs hc last ht⟩
      simpa using hlast u hu hlt hbefore
  | blankBeforeClose last_eq line => exact shape_blankBeforeClose hs.toPlaced hc last_eq line
  | blankBeforeShort short_eq line => exact shape_blankBeforeShort hs.toPlaced hc short_eq line
  | blankBetween short_eq long_eq line =>
      exact shape_blankBetween hs.toPlaced hc short_eq long_eq line
  | blankBeforeTag tag previous_eq line =>
      exact shape_singleBlankLine hs.toPlaced hc tag previous_eq hindent
  | pad group misaligned =>
      exact shape_pad hs hc (fun t ht => Block.fits_of_mem_tags hs.toPlaced hc
        (Block.mem_tags_of_groups group ht)) misaligned
  | indent has opener_lt le_closer kind indent_eq column =>
      exact shape_indent hs hc hindent has opener_lt le_closer kind indent_eq column

/-! ## The range of a fix -/

variable {i j : Nat}

/-- A fix rewrites all tokens of its range, and no others. -/
theorem Shape.reaches (hs : s.Sound) (h : Shape s c change i j) : change.Reaches s i j := by
  have hempty : ∀ t, s.Has t → "" ≠ t.text := by
    intro t ht hempty
    exact hs.text_ne_nil ht (by rw [← hempty]; rfl)
  cases h with
  | @openLine first indent content vacant blanks writes =>
      intro t ht
      rw [writes t ht]
      have := content.opener_lt
      split
      · exact ⟨fun _ => by omega, fun _ => append_ne_left s.eol_ne_empty⟩
      · split
        · exact ⟨fun _ => by omega, fun _ => append_ne_right (by simp)⟩
        · split
          · exact ⟨fun _ => by omega, fun _ => hempty t ht⟩
          · exact ⟨fun hne => absurd rfl hne, fun _ => by omega⟩
  | @closeLine last indent has opener_le lt_closer line vacant blanks writes =>
      intro t ht
      rw [writes t ht]
      split
      · exact ⟨fun _ => by omega, fun _ => append_ne_right (by simp)⟩
      · split
        · exact ⟨fun _ => by omega, fun _ => hempty t ht⟩
        · exact ⟨fun hne => absurd rfl hne, fun _ => by omega⟩
  | cut opener_le last_eq first last_lt le_closer spot drops => exact drops.reaches hs
  | lines opener_lt le content le_following vacant spot spot' drops => exact drops.reaches hs
  | @blankLine previous following j indent content content' lt le_following vacant spot blanks
      writes =>
      intro t ht
      rw [writes t ht]
      split
      · exact ⟨fun _ => by omega, fun _ => append_ne_left (by simp)⟩
      · split
        · exact ⟨fun _ => by omega, fun _ => hempty t ht⟩
        · exact ⟨fun hne => absurd rfl hne, fun _ => by omega⟩
  | @respace t p text has opener_lt lt_closer kind blank spot blanks empty ne writes =>
      refine Changeset.reaches_single (f := fun _ => text) (fun u hu hindex => ?_) writes
      rwa [hu.eq has hindex]
  | prepend has opener_lt lt_closer kind spot next blanks ne writes =>
      exact Changeset.reaches_single (fun _ _ _ => append_ne_right ne) writes
  | indentClose spot blanks ne writes =>
      exact Changeset.reaches_single (fun _ _ _ => append_ne_right ne) writes

end Layout

end PhpDoc
