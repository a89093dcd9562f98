import PhpDoc.Proofs.Comment.Block
import PhpDoc.Proofs.Comment.Group
import PhpDoc.Proofs.Comment.Star
import PhpDoc.Proofs.Rule.Repair

/-!
# Layout fixes change something

Every repair of the layout gives some token another text: a token that is moved to a line of its own
gets longer, a line that has to go holds a token, and an indentation that is wrong has another width
than the right one. The layout rules propose these repairs only (`fixedBy_check`).
-/

namespace PhpDoc

open Text

/-- A text with something behind it is another text. -/
theorem Text.append_ne_left {s t : String} (ht : t ≠ "") : s ++ t ≠ s := by
  intro h
  have hlen := congrArg String.length h
  rw [String.length_append] at hlen
  apply ht
  rw [← String.length_eq_zero_iff]
  omega

/-- A text with something in front of it is another text. -/
theorem Text.append_ne_right {s t : String} (ht : t ≠ "") : t ++ s ≠ s := by
  intro h
  have hlen := congrArg String.length h
  rw [String.length_append] at hlen
  apply ht
  rw [← String.length_eq_zero_iff]
  omega

/-- The line ending of a stream is a line feed, alone or behind a carriage return. -/
theorem Stream.eol_eq (s : Stream) : s.eol = "\n" ∨ s.eol = "\r\n" := by
  unfold Stream.eol
  split
  · split
    · exact .inr rfl
    · exact .inl rfl
  · exact .inl rfl

/-- The line ending of a stream is not empty. -/
@[simp] theorem Stream.eol_ne_empty (s : Stream) : s.eol ≠ "" := by
  rcases s.eol_eq with h | h <;> rw [h] <;> decide

namespace Layout

variable {s : Stream} {c : CommentSpan} {v : Violation}

/-- The open marker gets the line break. -/
theorem changes_openLine (hs : s.Sound) (hc : s.Frames c) {first : Token}
    (hfirst : (Block.ofSpan s c).first = some first) :
    (openLine s (Block.ofSpan s c) first).Changes s := by
  obtain ⟨hhas, hfrom, -⟩ := Block.first_spec hs.toPlaced hfirst
  unfold openLine
  refine ⟨?_, c.opener, hc.opener, ?_⟩
  · rw [Block.ofSpan_opener]
    refine (((Changeset.over_empty s).append hc.opener _).blank fun t ht => ?_).prepend hhas _
    exact (hs.mem_between.1 ht).1
  · rw [Block.ofSpan_opener, Changeset.current_prepend, if_neg (by omega),
      Changeset.current_blank_of_not_mem, Changeset.current_append, if_pos rfl]
    · exact append_ne_left s.eol_ne_empty
    · intro t ht
      have := (hs.mem_between.1 ht).2.1
      omega

/-- The close marker gets the line break. -/
theorem changes_closeLine (hs : s.Sound) (hc : s.Frames c) (last : Token) :
    (closeLine s (Block.ofSpan s c) last).Changes s := by
  unfold closeLine
  refine ⟨?_, c.closer, hc.closer, ?_⟩
  · rw [Block.ofSpan_closer]
    refine ((Changeset.over_empty s).blank fun t ht => ?_).prepend hc.closer _
    exact (hs.mem_between.1 ht).1
  · rw [Block.ofSpan_closer, Changeset.current_prepend, if_pos rfl,
      Changeset.current_blank_of_not_mem]
    · exact append_ne_right (by simp)
    · intro t ht
      have := (hs.mem_between.1 ht).2.2
      omega

/-- The tokens above a line are some of the tokens, in their order. -/
theorem beforeLine_sublist (line : Nat) (ts : List Token) : (beforeLine line ts).Sublist ts := by
  fun_induction beforeLine line ts with
  | case1 t next ts hnext => exact List.nil_sublist _
  | case2 t next ts hnext ih => exact ih.cons_cons t
  | case3 ts hts => exact List.nil_sublist _

/-- The blank lines in front of the close marker are not empty. -/
theorem changes_blankBeforeClose (hs : s.Sound) (hc : s.Frames c) {last : Token}
    (hlast : s.lastBetween (!·.isFiller) c.opener.index c.closer.index = some last)
    (hline : last.line + 1 < c.closer.line) :
    (blankBeforeClose s (Block.ofSpan s c) last).Changes s := by
  obtain ⟨hlast, hfrom, hto, hfiller, -⟩ := hs.lastBetween.1 hlast
  have hkind : last.kind ≠ .docBlank := by
    intro hkind
    rw [hkind] at hfiller
    cases hfiller
  unfold blankBeforeClose
  rw [Block.ofSpan_closer]
  -- the token behind the last content goes on with its line, and the one behind that stands at
  -- most one line below, so the first of them is among those in front of the last line
  obtain ⟨t, ht, htindex⟩ := hs.has_of_le (i := last.index + 1) hc.closer hto
  have htline := (hc.line_next hs.toPlaced hlast ht htindex hfrom (Nat.le_of_lt hto) hkind).1
  have htlt := ht.index_lt hc.closer (by omega) (by omega)
  obtain ⟨u, hu, huindex⟩ := hs.has_of_le (i := t.index + 1) hc.closer htlt
  have huline : u.line ≤ t.line + 1 := by
    have hshort := hc.short ht (by omega) (Nat.le_of_lt htlt) t.position
    rw [← hs.position_next ht hu huindex] at hshort
    exact hshort
  have hbetween : s.between (last.index + 1) (c.closer.index + 1) =
      t :: u :: s.between (u.index + 1) (c.closer.index + 1) := by
    rw [← htindex, Stream.between_cons ht (by omega), ← huindex,
      Stream.between_cons hu (by omega)]
  rw [hbetween]
  have hmem : t ∈ beforeLine c.closer.line
      (t :: u :: s.between (u.index + 1) (c.closer.index + 1)) := by
    rw [beforeLine, if_neg (by omega)]
    exact List.mem_cons_self
  refine Changeset.changes_blank hs (fun w hw => ?_) hmem
  have hw' := (beforeLine_sublist _ _).mem hw
  rw [← hbetween] at hw'
  exact (hs.mem_between.1 hw').1

/-- The blank lines in front of the short description are not empty. -/
theorem changes_blankBeforeShort (hs : s.Sound) (hc : s.Frames c) {short : Description}
    (hshort : (Block.ofSpan s c).short = some short)
    (hline : c.opener.line + 1 < short.first.line) :
    (blankBeforeShort s (Block.ofSpan s c) short).Changes s := by
  obtain ⟨hfirst, -, -⟩ := Block.short_first hs.toPlaced hc hshort
  obtain ⟨hhas, hfrom, hto, -⟩ := Block.first_spec hs.toPlaced hfirst
  unfold blankBeforeShort
  rw [Block.ofSpan_opener]
  obtain ⟨t, ht, hopener, hle, htline⟩ := hs.exists_on_line hc.opener hhas (Nat.le_of_lt hfrom)
    (fun u hu hou huf => hc.short hu hou (by omega)) (c.opener.line + 1) (by omega)
    (by omega)
  have hlt := ht.index_lt hhas hle (by omega)
  refine Changeset.changes_blank hs (t := t) (fun u hu => hs.has_of_mem_filter hu) ?_
  rw [List.mem_filter]
  refine ⟨hs.mem_between.2 ⟨ht, hopener, hlt⟩, ?_⟩
  simp only [Bool.and_eq_true, decide_eq_true_eq]
  omega

/-- The descriptions are divided by two lines at least, so one of them can go when they are not
divided by one. -/
theorem changes_blankBetween (hs : s.Sound) (hc : s.Frames c) {short long : Description}
    (hshort : (Block.ofSpan s c).short = some short) (hlong : (Block.ofSpan s c).long = some long)
    (hline : long.first.line ≠ short.last.line + 2) : (blankBetween s short long).Changes s := by
  have hlines := Block.short_line_lt_long hs.toPlaced hc hshort hlong
  obtain ⟨hlhas, -, hlt, hlstop, -⟩ := Block.long_first hs.toPlaced hc hshort hlong
  obtain ⟨hdhas, -, hle, -⟩ := Block.mem_short_strings hs.toPlaced hc hshort
    (Block.last_mem_strings short)
  obtain ⟨-, hopener, -⟩ := Block.first_spec hs.toPlaced
    (Block.short_first hs.toPlaced hc hshort).1
  have hstop := hc.stop_le hs.toPlaced
  unfold blankBetween
  obtain ⟨t, ht, hfrom, hto, htline⟩ := hs.exists_on_line hdhas hlhas (Nat.le_of_lt hlt)
    (fun u hu hou huf => hc.short hu (by omega) (by omega)) (short.last.line + 1)
    (by omega) (by omega)
  have hafter := hdhas.index_lt ht hfrom (by omega)
  have hbefore := ht.index_lt hlhas hto (by omega)
  refine Changeset.changes_blank hs (t := t) (fun u hu => hs.has_of_mem_filter hu) ?_
  rw [List.mem_filter]
  refine ⟨hs.mem_between.2 ⟨ht, by omega, by omega⟩, ?_⟩
  simp only [Bool.and_eq_true, decide_eq_true_eq]
  omega

/-- The token in front of the blank line gets its line break. -/
theorem changes_singleBlankLine (hs : s.Sound) {previous following : Token}
    (hprevious : s.Has previous) (indent : String) :
    (singleBlankLine s previous following indent).Changes s := by
  unfold singleBlankLine
  refine ⟨?_, previous, hprevious, ?_⟩
  · refine ((Changeset.over_empty s).blank fun t ht => ?_).append hprevious _
    exact hs.has_of_mem_filter ht
  · rw [Changeset.current_append, if_pos rfl, Changeset.current_blank_of_not_mem]
    · exact append_ne_left (by simp)
    · intro t ht
      have := (hs.mem_between.1 (List.mem_filter.1 ht).1).2.1
      omega

/-- The padding that a misaligned value gets is wider or narrower than the one it has. -/
theorem changes_pad {g : TagGroup} {m : Misalignment} (hg : ∀ t ∈ g.tags, t.Fits s c)
    (hm : m ∈ g.misaligned) : (pad m).Changes s := by
  obtain ⟨t, ht, hmis⟩ := TagGroup.mem_misaligned.1 hm
  obtain ⟨value, hvalue, hne, rfl⟩ := TagGroup.misalignment?_eq_some.1 hmis
  have hone := one_le_requiredPadding (TagGroup.length_name_le_longest ht)
  have hfits := hg t ht
  unfold pad
  simp only
  cases hpadding : t.padding with
  | some blank =>
      have hblank := (hfits.padding blank hpadding).1
      refine ⟨(Changeset.over_empty s).replace hblank _, blank, hblank, ?_⟩
      rw [Changeset.current_replace, if_pos rfl]
      intro heq
      have hlen := congrArg String.length heq
      rw [length_spaces] at hlen
      simp only [Tag.paddingWidth, hpadding, Option.elim_some] at hne
      omega
  | none =>
      have hhas := (hfits.value value hvalue).1
      refine ⟨(Changeset.over_empty s).prepend hhas _, value, hhas, ?_⟩
      rw [Changeset.current_prepend, if_pos rfl, Changeset.current_empty]
      exact append_ne_right (spaces_ne_empty (by omega))

/-- A marker in the wrong column gets another indentation. -/
theorem changes_indent (hs : s.Sound) {b : Block} (hopener : s.Has b.opener) {t : Token}
    (ht : s.Has t) {blank : Option Token} (hline : s.lineIndent? t.index = some blank)
    (hcolumn : t.column ≠ b.starColumn s) : (indent s b t blank).Changes s := by
  have hindent := b.length_starIndent hs hopener
  unfold indent
  cases blank with
  | some blank =>
      have hblank := (hs.lineIndent?_some_some hline).1
      have hwidth := hs.column_of_lineIndent_some ht hline
      refine ⟨(Changeset.over_empty s).replace hblank _, blank, hblank, ?_⟩
      rw [Changeset.current_replace, if_pos rfl]
      intro heq
      rw [heq] at hindent
      omega
  | none =>
      have hwidth := hs.column_of_lineIndent_none ht hline
      refine ⟨(Changeset.over_empty s).prepend ht _, t, ht, ?_⟩
      rw [Changeset.current_prepend, if_pos rfl, Changeset.current_empty]
      refine append_ne_right fun hempty => ?_
      rw [hempty, String.length_empty] at hindent
      omega

/-! ## The findings of a block -/

/-- The lines behind a group are fixed by a repair of the layout. -/
theorem fixedBy_spacingAfterGroup (hs : s.Sound) (hc : s.Frames c) {last next : Tag}
    (hnext : next ∈ (Block.ofSpan s c).tags)
    (h : v ∈ spacingAfterGroup s (Block.ofSpan s c) last next) : v.FixedBy (Repair s c) := by
  unfold spacingAfterGroup at h
  rw [Block.ofSpan_opener] at h
  split at h
  · cases h
  · next previous hprevious =>
      exact Violation.fixedBy_of_mem_report_fixed h fun hline =>
        .blankBeforeTag hnext ((Block.lastBetween_opener hs.toPlaced hc).1 hprevious)
          (by simpa using hline)

/-- What is reported of groups is fixed by repairs of the layout. -/
theorem fixedBy_groupSpacing (hs : s.Sound) (hc : s.Frames c) {gs : List TagGroup}
    (hgs : ∀ g ∈ gs, g ∈ (Block.ofSpan s c).groups s)
    (h : v ∈ groupSpacing s (Block.ofSpan s c) gs) : v.FixedBy (Repair s c) := by
  induction gs with
  | nil => cases h
  | cons g gs ih =>
      obtain ⟨hg, hgs⟩ := List.forall_mem_cons.1 hgs
      rw [groupSpacing, List.mem_append, List.mem_append] at h
      rcases h with (h | h) | h
      · split at h
        · next last next _ hnext =>
            obtain ⟨g', hg', hhead⟩ := Option.bind_eq_some_iff.1 hnext
            refine fixedBy_spacingAfterGroup hs hc ?_ h
            exact Block.mem_tags_of_groups (hgs g' (List.mem_of_head? hg'))
              (List.mem_of_head? hhead)
        · cases h
      · obtain ⟨m, hm, rfl⟩ := List.mem_map.1 h
        have hrepair : Repair s c (pad m) := .pad hg hm
        unfold pad at hrepair
        unfold tagValueIndent
        cases hpadding : m.tag.padding with
        | some blank =>
            rw [hpadding] at hrepair
            exact Violation.fixedBy_fixed hrepair _ _ _ _
        | none =>
            rw [hpadding] at hrepair
            exact Violation.fixedBy_fixed hrepair _ _ _ _
      · exact ih hgs h

/-- Scattered parameter tags are reported without a fix. -/
theorem fixedBy_paramGroup {groups : List TagGroup} (h : v ∈ paramGroup groups) :
    v.FixedBy (Repair s c) := by
  unfold paramGroup at h
  obtain ⟨g, -, hv⟩ := List.mem_flatMap.1 h
  obtain ⟨t, -, rfl⟩ := List.mem_map.1 hv
  exact Violation.fixedBy_error _ _ _ _

/-- A parameter group that is not the first group is reported without a fix. -/
theorem fixedBy_paramNotFirst {groups : List TagGroup} (h : v ∈ paramNotFirst groups) :
    v.FixedBy (Repair s c) := by
  unfold paramNotFirst at h
  split at h
  · split at h
    · exact Violation.fixedBy_of_mem_report h
    · cases h
  · cases h

/-- Scattered tags are reported without a fix. -/
theorem fixedBy_tagsNotGrouped {b : Block} (h : v ∈ tagsNotGrouped b) : v.FixedBy (Repair s c) := by
  obtain ⟨t, -, rfl⟩ := List.mem_map.1 h
  exact Violation.fixedBy_error _ _ _ _

/-- What is reported of tags is fixed by repairs of the layout. -/
theorem fixedBy_checkTags (hs : s.Sound) (hc : s.Frames c) {first : Token}
    (hfirst : (Block.ofSpan s c).first = some first) (hkind : first.kind = .docString)
    (h : v ∈ checkTags s (Block.ofSpan s c)) : v.FixedBy (Repair s c) := by
  unfold checkTags at h
  split at h
  · cases h
  · next t ts htags =>
      have ht : t ∈ (Block.ofSpan s c).tags := htags ▸ List.mem_cons_self
      simp only [List.mem_append] at h
      rcases h with (((h | h) | h) | h) | h
      · unfold spacingBeforeTags at h
        rw [Block.ofSpan_opener] at h
        split at h
        · cases h
        · next previous hprevious =>
            have hfits := Block.fits_of_mem_tags hs.toPlaced hc ht
            have hlt := Block.first_lt_tag hs.toPlaced hc hfirst hkind ht
            have hle : t.token.index ≤ c.closer.index :=
              Nat.le_trans (Nat.le_of_lt hfits.lt_stop) hfits.stop_le
            exact Violation.fixedBy_of_mem_report_fixed h fun hline =>
              .blankBeforeTag ht (Block.lastBetween_content hs.toPlaced hc hfirst hlt hle hprevious)
                (by simpa using hline)
      · exact fixedBy_paramGroup h
      · exact fixedBy_groupSpacing hs hc (fun g hg => hg) h
      · exact fixedBy_paramNotFirst h
      · exact fixedBy_tagsNotGrouped h

/-- What is reported of descriptions and tags is fixed by repairs of the layout. -/
theorem fixedBy_checkDescriptions (hs : s.Sound) (hc : s.Frames c)
    (h : v ∈ checkDescriptions s (Block.ofSpan s c)) : v.FixedBy (Repair s c) := by
  unfold checkDescriptions at h
  split at h
  · rw [List.mem_singleton.1 h]
    exact Violation.fixedBy_error _ _ _ _
  · next short hshort =>
      simp only [List.mem_append] at h
      rcases h with ((h | h) | h) | h
      · unfold spacingBeforeShort at h
        refine Violation.fixedBy_of_mem_report_fixed h fun hline =>
          .blankBeforeShort hshort ?_
        simpa using hline
      · exact Violation.fixedBy_of_mem_report h
      · split at h
        · next long hlong =>
            rcases List.mem_append.1 h with h | h
            · unfold spacingBetween at h
              exact Violation.fixedBy_of_mem_report_fixed h fun hline =>
                .blankBetween hshort hlong (by simpa using hline)
            · exact Violation.fixedBy_of_mem_report h
        · cases h
      · obtain ⟨hfirst, hkind, -⟩ := Block.short_first hs.toPlaced hc hshort
        exact fixedBy_checkTags hs hc hfirst hkind h

/-- A star outside its column is fixed by a repair of the layout. -/
theorem fixedBy_starViolation {t : Token} (ht : s.Has t)
    (hfrom : c.opener.index < t.index) (hto : t.index ≤ c.closer.index)
    (hkind : t.kind = .docStar ∨ t.kind = .docClose)
    (h : starViolation? s (Block.ofSpan s c) t = some v) : v.FixedBy (Repair s c) := by
  unfold starViolation? at h
  split at h
  · cases h
  · next blank hline =>
      split at h
      · cases h
      · next hcolumn =>
          cases h
          refine Violation.fixedBy_fixed ?_ _ _ _ _
          have hrepair : Repair s c (indent s (Block.ofSpan s c) t blank) :=
            .indent ht hfrom hto hkind hline hcolumn
          unfold indent at hrepair
          exact hrepair

/-- Every layout finding comes with a fix of the layout, or with none. -/
theorem fixedBy_check (hs : s.Sound) (hc : s.Frames c)
    (h : v ∈ check s (Block.ofSpan s c)) : v.FixedBy (Repair s c) := by
  unfold check at h
  split at h
  · rw [List.mem_singleton.1 h]
    exact Violation.fixedBy_error _ _ _ _
  · next first hfirst =>
      rcases List.mem_append.1 h with h | h
      · unfold checkContent at h
        rcases List.mem_append.1 h with h | h
        · unfold contentAfterOpen at h
          exact Violation.fixedBy_of_mem_report_fixed h fun hline =>
            .openLine hfirst (by simpa using hline)
        · split at h
          · cases h
          · next last hlast =>
              rw [Block.ofSpan_opener, Block.ofSpan_closer] at hlast
              simp only [List.mem_append] at h
              rcases h with (h | h) | h
              · unfold contentBeforeClose at h
                exact Violation.fixedBy_of_mem_report_fixed h fun hline =>
                  .closeLine hlast (by simpa using hline)
              · unfold spacingAfter at h
                exact Violation.fixedBy_of_mem_report_fixed h fun hline =>
                  .blankBeforeClose hlast (by simpa using hline)
              · exact fixedBy_checkDescriptions hs hc h
      · obtain ⟨t, ht, hv⟩ := List.mem_filterMap.1 h
        rw [Block.ofSpan_opener, Block.ofSpan_closer] at ht
        obtain ⟨hmem, hkind⟩ := List.mem_filter.1 ht
        obtain ⟨hhas, hfrom, hto⟩ := hs.mem_between.1 hmem
        exact fixedBy_starViolation hhas hfrom (Nat.le_of_lt_succ hto) (by simpa using hkind) hv

end Layout

end PhpDoc
