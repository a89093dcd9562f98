import PhpDoc.Proofs.Lint.Tidy
import PhpDoc.Proofs.Token.Position

/-!
# Nothing to fix in a tidy comment

The other direction of `Layout.tidy_of_silent`: in a tidy comment no layout rule with a fix applies,
rule by rule, so a comment with content is tidy exactly when no layout rule finds anything to fix
(`Layout.silent_iff_tidy`). What is found in a tidy comment is found by the rules about the wording
and the order of the tags alone (`Layout.check_of_tidy`).
-/

namespace PhpDoc

open Text

variable {s : Stream} {c : CommentSpan}

/-- What stands behind the end of a line stands on a later line. -/
theorem Stream.Placed.line_lt_of_endsLine (hs : s.Placed) {t u : Token} (ht : s.Has t)
    (hu : s.Has u) (hlt : t.index < u.index) (hends : endsLine t.text = true) :
    t.line < u.line := by
  obtain ⟨v, hv, hindex⟩ := hs.has_of_le (i := t.index + 1) hu hlt
  have hline : v.line = (t.position.advance t.text.toList).line := by
    rw [← hs.position_next ht hv hindex]
    rfl
  have hnext : t.line < (t.position.advance t.text.toList).line :=
    Position.line_lt_advance_of_endsLine (p := t.position) hends
  have hmono := hs.line_le hv hu (by omega)
  omega

/-- A token with an indentation, or at the start of its line, leads the line. -/
theorem Block.leads_of_lineIndent? (hs : s.Placed) {t : Token} (ht : s.Has t)
    {indent : Option Token} (h : s.lineIndent? t.index = some indent) (b : Block) :
    b.Leads s t := by
  intro u hu hline
  obtain ⟨huhas, -, hut⟩ := hs.mem_between.1 hu
  cases indent with
  | none =>
      rcases hs.lineIndent?_some_none h with hnone | ⟨w, hw, hindex, hends⟩
      · have := (Stream.before?_eq_none ht).1 hnone
        omega
      · have hlt := hs.line_lt_of_endsLine hw ht (by omega) hends
        have hle := hs.line_le huhas hw (by omega)
        omega
  | some blank =>
      obtain ⟨hblank, hindex, hkind, -, w, hw, hwindex, hends⟩ := hs.lineIndent?_some_some h
      rcases Nat.lt_or_ge u.index blank.index with hlt | hge
      · have hlt := hs.line_lt_of_endsLine hw ht (by omega) hends
        have hle := hs.line_le huhas hw (by omega)
        omega
      · rw [huhas.eq hblank (by omega)]
        exact hkind

/-! ## Findings without a fix -/

/-- Where its condition fails, a finding is not reported. -/
theorem report_of_not {condition : Bool} (h : condition = false) (v : Violation) :
    report condition v = [] := by
  rw [report, h]
  rfl

/-- No findings propose no fix. -/
theorem silent_nil : Silent [] := by
  intro v hv
  cases hv

/-- An error without a fix proposes none. -/
theorem silent_report_error (condition : Bool) (family code message : String) (t : Token) :
    Silent (report condition (.error family code message t)) := by
  intro v hv
  obtain ⟨-, rfl⟩ := mem_report.1 hv
  rfl

namespace Layout

/-- The rule that all parameter tags stand in one group has no fix. -/
theorem silent_paramGroup (groups : List TagGroup) : Silent (paramGroup groups) := by
  intro v hv
  obtain ⟨g, -, hv⟩ := List.mem_flatMap.1 hv
  obtain ⟨t, -, rfl⟩ := List.mem_map.1 hv
  rfl

/-- A parameter group that is not the first group is reported without a fix. -/
theorem silent_paramNotFirst (groups : List TagGroup) : Silent (paramNotFirst groups) := by
  unfold paramNotFirst
  split
  · split
    · exact silent_report_error _ _ _ _ _
    · exact silent_nil
  · exact silent_nil

/-- Scattered tags are reported without a fix. -/
theorem silent_tagsNotGrouped (b : Block) : Silent (tagsNotGrouped b) := by
  intro v hv
  obtain ⟨t, -, rfl⟩ := List.mem_map.1 hv
  rfl

/-! ## The rules with a fix -/

variable {first : Token}

/-- A tidy comment has no content on the line of its open marker. -/
theorem contentAfterOpen_of_tidy (hs : s.Sound) (hc : s.Frames c)
    (hfirst : (Block.ofSpan s c).first = some first) (h : (Block.ofSpan s c).Tidy s) :
    contentAfterOpen s (Block.ofSpan s c) first = [] := by
  obtain ⟨hhas, hfrom, hto, hkind, -⟩ := Block.first_spec hs.toPlaced hfirst
  refine report_of_not (beq_eq_false_iff_ne.2 (h.open_alone first ?_ ?_)) _
  · rw [Block.ofSpan_opener, Block.ofSpan_closer]
    exact hs.mem_between.2 ⟨hhas, hfrom, hto⟩
  · exact (hc.isFiller_eq_false hhas hfrom hto).1 hkind

/-- The last content of a tidy comment stands on the line above the close marker. -/
theorem line_last_of_tidy (hs : s.Sound) (hc : s.Frames c)
    (hfirst : (Block.ofSpan s c).first = some first) (h : (Block.ofSpan s c).Tidy s) {last : Token}
    (hlast : s.lastBetween (!·.isFiller) c.opener.index c.closer.index = some last) :
    last.line + 1 = c.closer.line := by
  obtain ⟨-, -, hto, -, -⟩ := Block.first_spec hs.toPlaced hfirst
  obtain ⟨last', hlast', hline⟩ := h.close_below
  rw [Block.ofSpan_opener, Block.ofSpan_closer] at hlast'
  have hcontent := Block.lastBetween_content hs.toPlaced hc hfirst hto (Nat.le_refl _) hlast
  obtain rfl : last = last' := Option.some.inj (hcontent.symm.trans hlast')
  rwa [Block.ofSpan_closer] at hline

/-- The groups of a tidy comment stand one blank line below the content in front of them. -/
theorem spacingAfterGroup_of_tidy (hs : s.Sound) (hc : s.Frames c) {short : Description}
    (h : (Block.ofSpan s c).TidyLines s short) {g : TagGroup}
    (hg : g ∈ (Block.ofSpan s c).groups s) {next : Tag} (hnext : g.tags.head? = some next)
    (last : Tag) : spacingAfterGroup s (Block.ofSpan s c) last next = [] := by
  obtain ⟨t, previous, ht, hprevious, hline⟩ := h.group_first g hg
  obtain rfl : next = t := Option.some.inj (hnext.symm.trans ht)
  rw [Block.ofSpan_opener] at hprevious
  unfold spacingAfterGroup
  rw [Block.ofSpan_opener, (Block.lastBetween_opener hs.toPlaced hc).2 hprevious]
  exact report_of_not (by simp [hline]) _

/-- The values of a tidy group are aligned. -/
theorem misaligned_of_tidy (hs : s.Sound) (hc : s.Frames c) {short : Description}
    (h : (Block.ofSpan s c).TidyLines s short) {g : TagGroup}
    (hg : g ∈ (Block.ofSpan s c).groups s) : g.misaligned = [] := by
  refine List.eq_nil_iff_forall_not_mem.2 fun m hm => ?_
  obtain ⟨t, ht, hmis⟩ := TagGroup.mem_misaligned.1 hm
  obtain ⟨value, hvalue, hne, -⟩ := TagGroup.misalignment?_eq_some.1 hmis
  have hfits := Block.fits_of_mem_tags hs.toPlaced hc (Block.mem_tags_of_groups hg ht)
  have hcolumn := hfits.column_value hs hc hvalue
  have htidy := h.value_column g hg t ht value hvalue
  have hle := TagGroup.length_name_le_longest ht
  refine hne ?_
  unfold requiredPadding
  omega

/-- The groups of a tidy comment need no other lines and no other padding. -/
theorem groupSpacing_of_tidy (hs : s.Sound) (hc : s.Frames c) {short : Description}
    (h : (Block.ofSpan s c).TidyLines s short) {gs : List TagGroup}
    (hgs : ∀ g ∈ gs, g ∈ (Block.ofSpan s c).groups s) :
    groupSpacing s (Block.ofSpan s c) gs = [] := by
  induction gs with
  | nil => rfl
  | cons g gs ih =>
      obtain ⟨hg, hrest⟩ := List.forall_mem_cons.1 hgs
      rw [groupSpacing, ih hrest, misaligned_of_tidy hs hc h hg]
      split
      · next last next _ hnext =>
          obtain ⟨g', hg', hhead⟩ := Option.bind_eq_some_iff.1 hnext
          rw [spacingAfterGroup_of_tidy hs hc h (hrest g' (List.mem_of_head? hg')) hhead last]
          rfl
      · rfl

/-- The tags of a tidy comment need no other lines in front of them. -/
theorem spacingBeforeTags_of_tidy (hs : s.Sound) (hc : s.Frames c) {short : Description}
    (hshort : (Block.ofSpan s c).short = some short) (h : (Block.ofSpan s c).TidyLines s short)
    {t : Tag} {ts : List Tag} (htags : (Block.ofSpan s c).tags = t :: ts) :
    spacingBeforeTags s (Block.ofSpan s c) t = [] := by
  obtain ⟨hfirst, hstring, -⟩ := Block.short_first hs.toPlaced hc hshort
  obtain ⟨previous, hp, hcontent⟩ :=
    exists_lastBetween_tag hs hc hfirst hstring (htags ▸ List.mem_cons_self)
  obtain ⟨g, gs, hgroups, hhead⟩ := Block.exists_first_group (s := s) htags
  obtain ⟨t', previous', ht', hprevious', hline⟩ :=
    h.group_first g (hgroups ▸ List.mem_cons_self)
  obtain rfl : t = t' := Option.some.inj (hhead.symm.trans ht')
  rw [Block.ofSpan_opener, hcontent] at hprevious'
  obtain rfl := Option.some.inj hprevious'
  unfold spacingBeforeTags
  rw [Block.ofSpan_opener, hp]
  exact report_of_not (by simp [hline]) _

/-- All stars of a tidy comment, and its close marker, stand in the star column. -/
theorem spaceBeforeStar_of_tidy (hs : s.Sound) (h : (Block.ofSpan s c).Tidy s) :
    spaceBeforeStar s (Block.ofSpan s c) = [] := by
  refine List.filterMap_eq_nil_iff.2 fun t ht => ?_
  obtain ⟨hmem, hkind⟩ := List.mem_filter.1 ht
  have hhas := (hs.mem_between.1 hmem).1
  unfold starViolation?
  split
  · rfl
  · next indent hindent =>
      have hleads := Block.leads_of_lineIndent? hs.toPlaced hhas hindent (Block.ofSpan s c)
      have hkind : t.kind = .docStar ∨ t.kind = .docClose := by simpa using hkind
      exact if_pos (h.star_column t hmem hkind hleads)

/-! ## What is found in a tidy comment -/

/-- In the tags of a tidy comment only the order of the parameters and of equal tags is found at
fault. -/
theorem checkTags_of_tidy (hs : s.Sound) (hc : s.Frames c) {short : Description}
    (hshort : (Block.ofSpan s c).short = some short) (h : (Block.ofSpan s c).TidyLines s short) :
    checkTags s (Block.ofSpan s c) =
      paramGroup ((Block.ofSpan s c).groups s) ++ paramNotFirst ((Block.ofSpan s c).groups s) ++
        tagsNotGrouped (Block.ofSpan s c) := by
  unfold checkTags
  split
  · next hnil =>
      have hgroups : (Block.ofSpan s c).groups s = [] := by
        rw [Block.groups, hnil]
        rfl
      rw [hgroups, tagsNotGrouped, hnil]
      rfl
  · next t ts htags =>
      show spacingBeforeTags s _ t ++ paramGroup _ ++ groupSpacing s _ _ ++ _ ++ _ = _
      rw [spacingBeforeTags_of_tidy hs hc hshort h htags,
        groupSpacing_of_tidy hs hc h fun g hg => hg, List.nil_append, List.append_nil]

/-- In a tidy comment only the descriptions and tags are found at fault. -/
theorem check_of_tidy (hs : s.Sound) (hc : s.Frames c)
    (hfirst : (Block.ofSpan s c).first = some first) (h : (Block.ofSpan s c).Tidy s) :
    check s (Block.ofSpan s c) = checkDescriptions s (Block.ofSpan s c) := by
  obtain ⟨-, -, hto, -, -⟩ := Block.first_spec hs.toPlaced hfirst
  obtain ⟨last, hlast⟩ := exists_lastBetween hs hfirst hto
  have hline := line_last_of_tidy hs hc hfirst h hlast
  unfold check
  rw [hfirst]
  show checkContent s _ first ++ spaceBeforeStar s _ = _
  unfold checkContent
  rw [spaceBeforeStar_of_tidy hs h, contentAfterOpen_of_tidy hs hc hfirst h, Block.ofSpan_opener,
    Block.ofSpan_closer, hlast]
  have hclose : contentBeforeClose s (Block.ofSpan s c) last = [] := by
    refine report_of_not ?_ _
    rw [Block.ofSpan_closer, beq_eq_false_iff_ne]
    omega
  have hafter : spacingAfter s (Block.ofSpan s c) last = [] := by
    refine report_of_not ?_ _
    rw [Block.ofSpan_closer, decide_eq_false_iff_not]
    omega
  simp only [hclose, hafter, List.nil_append, List.append_nil]

/-- In a tidy comment with descriptions only their wording and the order of the tags are found at
fault. -/
theorem checkDescriptions_of_tidy (hs : s.Sound) (hc : s.Frames c) {short : Description}
    (hshort : (Block.ofSpan s c).short = some short) (h : (Block.ofSpan s c).TidyLines s short) :
    checkDescriptions s (Block.ofSpan s c) =
      shortNotCapital short ++ (Block.ofSpan s c).long.elim [] longNotCapital ++
        (paramGroup ((Block.ofSpan s c).groups s) ++
          paramNotFirst ((Block.ofSpan s c).groups s) ++ tagsNotGrouped (Block.ofSpan s c)) := by
  have hbefore : spacingBeforeShort s (Block.ofSpan s c) short = [] := by
    refine report_of_not ?_ _
    rw [decide_eq_false_iff_not, h.short_first]
    exact Nat.lt_irrefl _
  unfold checkDescriptions
  rw [hshort]
  show spacingBeforeShort s _ short ++ shortNotCapital short ++ _ ++ checkTags s _ = _
  rw [hbefore, List.nil_append, checkTags_of_tidy hs hc hshort h]
  cases hlong : (Block.ofSpan s c).long with
  | none => rfl
  | some long =>
      have hbetween : spacingBetween s short long = [] :=
        report_of_not (by simp [h.long_first long hlong]) _
      show _ ++ (spacingBetween s short long ++ longNotCapital long) ++ _ = _
      rw [hbetween]
      rfl

/-- A comment with content is tidy exactly when no layout rule finds anything to fix. -/
theorem silent_iff_tidy (hs : s.Sound) (hc : s.Frames c)
    (hfirst : (Block.ofSpan s c).first = some first) :
    Silent (check s (Block.ofSpan s c)) ↔ (Block.ofSpan s c).Tidy s := by
  refine ⟨tidy_of_silent hs hc hfirst, fun h => ?_⟩
  rw [check_of_tidy hs hc hfirst h]
  cases hshort : (Block.ofSpan s c).short with
  | none =>
      unfold checkDescriptions
      rw [hshort]
      exact silent_report_error true _ _ _ _
  | some short =>
      rw [checkDescriptions_of_tidy hs hc hshort (h.lines short hshort)]
      simp only [silent_append]
      refine ⟨⟨silent_report_error _ _ _ _ _, ?_⟩, ⟨silent_paramGroup _, silent_paramNotFirst _⟩,
        silent_tagsNotGrouped _⟩
      cases (Block.ofSpan s c).long with
      | none => exact silent_nil
      | some long => exact silent_report_error _ _ _ _ _

end Layout

end PhpDoc
