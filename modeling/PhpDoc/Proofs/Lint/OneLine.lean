import PhpDoc.Proofs.Edit.Apart
import PhpDoc.Proofs.Lint.Keep
import PhpDoc.Proofs.Lint.Quiet
import PhpDoc.Proofs.Token.Content
import PhpDoc.Proofs.Token.Neighbour

/-!
# Comments on one line

A doc comment with content on the line of its open marker breaks two layout rules that come with a
fix, and no other (`fixes_of_one_line`). The two changes keep apart, so one pass accepts both
(`Cuts.wrote`), and the markers and the content end up on three lines (`Cuts.text_written`).
-/

namespace PhpDoc

open Text Layout

variable {s : Stream} {c : CommentSpan}

/-- Findings that cannot be fixed propose nothing. -/
theorem filterMap_fix_of_silent {vs : List Violation} (h : Silent vs) :
    vs.filterMap (·.fix) = [] := by
  refine List.filterMap_eq_nil_iff.2 fun v hv => ?_
  simpa [Violation.fixable] using h v hv

namespace Layout

/-- Everything in a comment on one line stands on the line of the open marker. -/
theorem line_eq_of_one_line (hs : s.Sound) (hc : s.Frames c) (hline : c.closer.line = c.opener.line)
    {t : Token} (ht : s.Has t) (hfrom : c.opener.index ≤ t.index) (hto : t.index ≤ c.closer.index) :
    t.line = c.opener.line := by
  have hlow := hs.line_le hc.opener ht hfrom
  have hhigh := hs.line_le ht hc.closer hto
  omega

/-- No star and no close marker of a comment on one line starts its line. -/
theorem spaceBeforeStar_of_one_line (hs : s.Sound) (hc : s.Frames c)
    (hline : c.closer.line = c.opener.line) : spaceBeforeStar s (Block.ofSpan s c) = [] := by
  refine List.filterMap_eq_nil_iff.2 fun t ht => ?_
  obtain ⟨hmem, -⟩ := List.mem_filter.1 ht
  rw [Block.ofSpan_opener, Block.ofSpan_closer] at hmem
  obtain ⟨hhas, hfrom, hto⟩ := hs.mem_between.1 hmem
  have htline := line_eq_of_one_line hs hc hline hhas (by omega) (by omega)
  have hnone : s.lineIndent? t.index = none := by
    by_contra hsome
    obtain ⟨indent, hindent⟩ := Option.ne_none_iff_exists'.1 hsome
    -- the open marker stands in front of the token on its line, and is no blank
    have hleads :=
      Block.leads_of_lineIndent? hs.toPlaced hhas hindent (Block.ofSpan s c) c.opener
    rw [Block.ofSpan_opener] at hleads
    have hkind := hleads (hs.mem_between.2 ⟨hc.opener, Nat.le_refl _, hfrom⟩) htline.symm
    rw [hc.openerKind] at hkind
    cases hkind
  unfold starViolation?
  rw [hnone]

/-- When all content stands on one line, a short description is all there is. -/
theorem short_alone (hs : s.Sound) (hc : s.Frames c) {line : Nat}
    (hline : ∀ t, s.Has t → c.opener.index < t.index → t.index < c.closer.index →
      t.kind.isDocContent = true → t.line = line)
    {short : Description} (hshort : (Block.ofSpan s c).short = some short) :
    (Block.ofSpan s c).long = none ∧ (Block.ofSpan s c).tags = [] := by
  obtain ⟨hfirst, hstring, -⟩ := Block.short_first hs.toPlaced hc hshort
  obtain ⟨hhas, hfrom, hto, -, -⟩ := Block.first_spec hs.toPlaced hfirst
  have hof : ∀ t, s.Has t → c.opener.index < t.index → t.index < c.closer.index →
      t.kind = .docString → t.line = line := by
    intro t ht hlow hhigh hkind
    exact hline t ht hlow hhigh (by rw [hkind]; rfl)
  constructor
  · refine Option.eq_none_iff_forall_ne_some.2 fun long hlong => ?_
    have hstop := hc.stop_le hs.toPlaced
    obtain ⟨hlast, hlastKind, hlow, hhigh⟩ :=
      Block.mem_short_strings hs.toPlaced hc hshort (Block.last_mem_strings short)
    obtain ⟨hlong', hlongKind, hlow', hhigh', -⟩ := Block.long_first hs.toPlaced hc hshort hlong
    have hapart := Block.short_line_lt_long hs.toPlaced hc hshort hlong
    have h₁ := hof _ hlast (by omega) (by omega) hlastKind
    have h₂ := hof _ hlong' (by omega) (by omega) hlongKind
    omega
  · refine List.eq_nil_iff_forall_not_mem.2 fun t ht => ?_
    have hlt := Block.first_lt_tag hs.toPlaced hc hfirst hstring ht
    have hfits := Block.fits_of_mem_tags hs.toPlaced hc ht
    have hto' : t.token.index < c.closer.index := Nat.lt_of_lt_of_le hfits.lt_stop hfits.stop_le
    have hcontent : t.token.kind.isDocContent = true := by
      rw [hfits.kind]
      rfl
    have hbelow := hc.line_lt_of_string hs.toPlaced hhas hfits.token hfrom hto' hstring hcontent hlt
    have h₁ := hof _ hhas hfrom hto hstring
    have h₂ := hline _ hfits.token (by omega) hto' hcontent
    omega

/-- A description on one line has no tags and no other description behind it. -/
theorem silent_checkDescriptions_of_one_line (hs : s.Sound) (hc : s.Frames c)
    (hline : c.closer.line = c.opener.line) :
    Silent (checkDescriptions s (Block.ofSpan s c)) := by
  unfold checkDescriptions
  cases hshort : (Block.ofSpan s c).short with
  | none => exact silent_report_error true _ _ _ _
  | some short =>
      obtain ⟨hlong, htags⟩ := short_alone hs hc
        (fun t ht hfrom hto _ => line_eq_of_one_line hs hc hline ht (by omega) (by omega)) hshort
      obtain ⟨hfirst, -, -⟩ := Block.short_first hs.toPlaced hc hshort
      obtain ⟨hhas, hfrom, hto, -, -⟩ := Block.first_spec hs.toPlaced hfirst
      have hshortLine := line_eq_of_one_line hs hc hline hhas (by omega) (by omega)
      have hbefore : spacingBeforeShort s (Block.ofSpan s c) short = [] := by
        refine report_of_not ?_ _
        rw [Block.ofSpan_opener, decide_eq_false_iff_not]
        omega
      show Silent (spacingBeforeShort s _ short ++ shortNotCapital short ++ _ ++ checkTags s _)
      rw [hbefore, hlong, checkTags, htags]
      simp only [silent_append]
      exact ⟨⟨⟨silent_nil, silent_report_error _ _ _ _ _⟩, silent_nil⟩, silent_nil⟩

/-- In a comment on one line with content there are two things to fix: the content leaves the line
of the open marker, and the close marker that of the content. -/
theorem fixes_of_one_line (hs : s.Sound) (hc : s.Frames c) (hline : c.closer.line = c.opener.line)
    {first last : Token} (hfirst : (Block.ofSpan s c).first = some first)
    (hlast : s.lastBetween (!·.isFiller) c.opener.index c.closer.index = some last) :
    (check s (Block.ofSpan s c)).filterMap (·.fix) =
      [(openLine s (Block.ofSpan s c) first).edits,
        (closeLine s (Block.ofSpan s c) last).edits] := by
  obtain ⟨hfhas, hffrom, hfto, -, -⟩ := Block.first_spec hs.toPlaced hfirst
  obtain ⟨hlhas, hlfrom, hlto, -, -⟩ := hs.lastBetween.1 hlast
  have hopen : (contentAfterOpen s (Block.ofSpan s c) first).filterMap (·.fix) =
      [(openLine s (Block.ofSpan s c) first).edits] := by
    have hsame : (first.line == (Block.ofSpan s c).opener.line) = true := by
      rw [Block.ofSpan_opener, beq_iff_eq]
      exact line_eq_of_one_line hs hc hline hfhas (by omega) (by omega)
    rw [contentAfterOpen, report, hsame]
    rfl
  have hclose : (contentBeforeClose s (Block.ofSpan s c) last).filterMap (·.fix) =
      [(closeLine s (Block.ofSpan s c) last).edits] := by
    have hsame : (last.line == (Block.ofSpan s c).closer.line) = true := by
      rw [Block.ofSpan_closer, beq_iff_eq, hline]
      exact line_eq_of_one_line hs hc hline hlhas hlfrom (by omega)
    rw [contentBeforeClose, report, hsame]
    rfl
  have hafter : spacingAfter s (Block.ofSpan s c) last = [] := by
    have hle := hs.line_le hc.opener hlhas hlfrom
    refine report_of_not ?_ _
    rw [Block.ofSpan_closer, decide_eq_false_iff_not]
    omega
  unfold check
  rw [hfirst]
  show (checkContent s _ first ++ spaceBeforeStar s _).filterMap _ = _
  unfold checkContent
  rw [Block.ofSpan_opener, Block.ofSpan_closer, hlast, spaceBeforeStar_of_one_line hs hc hline]
  simp only [List.filterMap_append, hopen, hclose, hafter, List.append_nil,
    filterMap_fix_of_silent (silent_checkDescriptions_of_one_line hs hc hline),
    List.singleton_append]

end Layout

/-! ## The text that is written -/

/-- The comment is its content between blanks, without a star in front of it. -/
structure Stream.Cuts (s : Stream) (c : CommentSpan) (before lead content trail after : List Token)
    (first last : Token) : Prop where
  tokens : s.tokens.toList =
    before ++ c.opener :: (lead ++ (content ++ (trail ++ c.closer :: after)))
  lead : ∀ t ∈ lead, t.kind = .docBlank
  trail : ∀ t ∈ trail, t.kind = .docBlank
  run : Token.ContentRun content first last

namespace Stream.Cuts

variable {before lead content trail after : List Token} {first last : Token}

/-- The first and the last token of the content belong to it. -/
theorem mem_content (h : s.Cuts c before lead content trail after first last) :
    first ∈ content ∧ last ∈ content := by
  obtain ⟨more, hmore⟩ := h.run.starts
  obtain ⟨front, hfront⟩ := h.run.ends
  exact ⟨hmore ▸ List.mem_cons_self, hfront ▸ List.mem_append_right _ (List.mem_singleton_self _)⟩

/-- What the comment shows of the order of its tokens. -/
structure Ordered (c : CommentSpan) (before lead content trail after : List Token)
    (first last : Token) : Prop where
  before : ∀ t ∈ before, t.index < c.opener.index
  lead : ∀ t ∈ lead, c.opener.index < t.index ∧ t.index < first.index
  content : ∀ t ∈ content, first.index ≤ t.index ∧ t.index ≤ last.index
  trail : ∀ t ∈ trail, last.index < t.index ∧ t.index < c.closer.index
  after : ∀ t ∈ after, c.closer.index < t.index
  first : c.opener.index < first.index
  last : last.index < c.closer.index

/-- The parts of the cut stand in the order of the stream. -/
theorem ordered (hs : s.Placed) (h : s.Cuts c before lead content trail after first last) :
    Ordered c before lead content trail after first last := by
  obtain ⟨hfirst, hlast⟩ := h.mem_content
  obtain ⟨more, hmore⟩ := h.run.starts
  obtain ⟨front, hfront⟩ := h.run.ends
  have hopen : s.tokens.toList =
      (before ++ [c.opener]) ++ (lead ++ (content ++ (trail ++ c.closer :: after))) := by
    simp [h.tokens]
  have hlead : s.tokens.toList =
      (before ++ c.opener :: lead) ++ (content ++ (trail ++ c.closer :: after)) := by
    simp [h.tokens]
  have htrail : s.tokens.toList =
      (before ++ c.opener :: (lead ++ content)) ++ (trail ++ c.closer :: after) := by
    simp [h.tokens]
  have hclose : s.tokens.toList =
      (before ++ c.opener :: (lead ++ (content ++ trail))) ++ (c.closer :: after) := by
    simp [h.tokens]
  refine ⟨fun t ht => ?_, fun t ht => ⟨?_, ?_⟩, fun t ht => ⟨?_, ?_⟩, fun t ht => ⟨?_, ?_⟩,
    fun t ht => ?_, ?_, ?_⟩
  · exact hs.index_lt_of_append h.tokens ht List.mem_cons_self
  · exact hs.index_lt_of_append hopen (by simp) (by simp [ht])
  · exact hs.index_lt_of_append hlead (by simp [ht]) (by simp [hfirst])
  · rcases List.mem_cons.1 (hmore ▸ ht) with rfl | hrest
    · exact Nat.le_refl _
    · have heq : s.tokens.toList = (before ++ c.opener :: (lead ++ [first])) ++
          (more ++ (trail ++ c.closer :: after)) := by
        simp [h.tokens, hmore]
      exact Nat.le_of_lt (hs.index_lt_of_append heq (by simp) (by simp [hrest]))
  · rcases List.mem_append.1 (hfront ▸ ht) with hrest | hrest
    · have heq : s.tokens.toList = (before ++ c.opener :: (lead ++ front)) ++
          (last :: (trail ++ c.closer :: after)) := by
        simp [h.tokens, hfront]
      exact Nat.le_of_lt (hs.index_lt_of_append heq (by simp [hrest]) (by simp))
    · rw [List.mem_singleton.1 hrest]
  · exact hs.index_lt_of_append htrail (by simp [hlast]) (by simp [ht])
  · exact hs.index_lt_of_append hclose (by simp [ht]) (by simp)
  · have heq : s.tokens.toList =
        (before ++ c.opener :: (lead ++ (content ++ (trail ++ [c.closer])))) ++ after := by
      simp [h.tokens]
    exact hs.index_lt_of_append heq (by simp) ht
  · exact hs.index_lt_of_append hopen (by simp) (by simp [hfirst])
  · exact hs.index_lt_of_append hclose (by simp [hlast]) (by simp)

/-- The tokens of the cut are those of the stream. -/
theorem has (hs : s.Placed) (h : s.Cuts c before lead content trail after first last) {t : Token}
    (ht : t ∈ before ++ c.opener :: (lead ++ (content ++ (trail ++ c.closer :: after)))) :
    s.Has t :=
  (has_iff_mem hs).2 (h.tokens ▸ ht)

/-- Between the markers stand blanks, the content and blanks. -/
theorem inside_eq (hs : s.Placed) (h : s.Cuts c before lead content trail after first last) :
    s.inside c = lead ++ content ++ trail := by
  have htokens : s.tokens.toList =
      before ++ c.opener :: ((lead ++ content ++ trail) ++ c.closer :: after) := by
    simp [h.tokens]
  exact hs.inside_of_append htokens

/-- The first content of the comment is the first token of the content. -/
theorem ofSpan_first (hs : s.Placed)
    (h : s.Cuts c before lead content trail after first last) :
    (Block.ofSpan s c).first = some first := by
  obtain ⟨more, hmore⟩ := h.run.starts
  have hlead : lead.find? (!·.kind.isFiller) = none :=
    List.find?_eq_none.2 fun t ht => by
      rw [h.lead t ht]
      decide
  rw [Block.ofSpan_first]
  show (s.inside c).find? (!·.kind.isFiller) = some first
  rw [h.inside_eq hs, List.append_assoc, List.find?_append, hlead, hmore, Option.none_or]
  exact List.find?_cons_of_pos (by simp [Kind.isFiller_of_isDocContent h.run.kind_first])

/-- A comment on one line has no star. -/
theorem star?_eq (hs : s.Placed) (h : s.Cuts c before lead content trail after first last) :
    (Block.ofSpan s c).star? s = none := by
  unfold Block.star?
  rw [Block.ofSpan_opener, Block.ofSpan_closer]
  show (s.inside c).find? (·.kind == .docStar) = none
  rw [h.inside_eq hs]
  refine List.find?_eq_none.2 fun t ht => ?_
  simp only [List.mem_append] at ht
  rcases ht with (ht | ht) | ht
  · simp [h.lead t ht]
  · simpa using h.run.starless t ht
  · simp [h.trail t ht]

/-- The last content of the comment is the last token of the content. -/
theorem lastBetween (hs : s.Placed) (hc : s.Frames c)
    (h : s.Cuts c before lead content trail after first last) :
    s.lastBetween (!·.isFiller) c.opener.index c.closer.index = some last := by
  obtain ⟨front, hfront⟩ := h.run.ends
  have htrail : trail.reverse.find? (!·.kind.isFiller) = none :=
    List.find?_eq_none.2 fun t ht => by
      rw [h.trail t (List.mem_reverse.1 ht)]
      decide
  have hinside : s.between c.opener.index c.closer.index = c.opener :: (lead ++ content ++ trail) :=
    (between_cons hc.opener hc.lt).trans (congrArg (c.opener :: ·) (h.inside_eq hs))
  unfold Stream.lastBetween
  rw [hinside, List.reverse_cons, List.reverse_append, List.reverse_append, hfront,
    List.reverse_append, List.append_assoc, List.find?_append, htrail, Option.none_or]
  exact List.find?_cons_of_pos (by simp [Kind.isFiller_of_isDocContent h.run.kind_last])

end Stream.Cuts

namespace Fixer

variable {f : Fixer} {c₁ c₂ : Changeset}

/-- A token that the second of two changes leaves alone gets its text by the first. -/
theorem Wrote.written_left (h : f.Wrote s [c₁, c₂]) {t : Token} (ht : s.Has t)
    (hkeep : c₂.current t = t.text) : f.written t = c₁.current t := by
  by_cases hchanged : c₁.current t = t.text
  · rw [hchanged]
    exact h.kept ht (by simp [hchanged, hkeep])
  · exact h.changed ht (by simp) hchanged

/-- A token that the first of two changes leaves alone gets its text by the second. -/
theorem Wrote.written_right (h : f.Wrote s [c₁, c₂]) {t : Token} (ht : s.Has t)
    (hkeep : c₁.current t = t.text) : f.written t = c₂.current t := by
  by_cases hchanged : c₂.current t = t.text
  · rw [hchanged]
    exact h.kept ht (by simp [hchanged, hkeep])
  · exact h.changed ht (by simp) hchanged

/-- Tokens that are written as they were make up their own text. -/
theorem flatMap_written {ts : List Token} (h : ∀ t ∈ ts, f.written t = t.text) :
    (ts.flatMap fun t => (f.written t).toList) = (Token.textOf ts).toList := by
  rw [Token.textOf, String.toList_join, List.flatMap_map]
  exact List.flatMap_congr fun t ht => congrArg String.toList (h t ht)

/-- Tokens that are blanked make up no text. -/
theorem flatMap_written_nil {ts : List Token} (h : ∀ t ∈ ts, f.written t = "") :
    (ts.flatMap fun t => (f.written t).toList) = [] :=
  List.flatMap_eq_nil_iff.2 fun t ht => by simp [h t ht]

end Fixer

namespace Stream.Cuts

variable {before lead content trail after : List Token} {first last : Token}

/-- The change at the open marker ends with the first token of the content. -/
theorem current_openLine_of_lt (hs : s.Sound) (hc : s.Frames c)
    (h : s.Cuts c before lead content trail after first last) {t : Token} (ht : s.Has t)
    (hlt : first.index < t.index) : (openLine s (Block.ofSpan s c) first).current t = t.text := by
  have horder := (h.ordered hs.toPlaced).first
  rw [current_openLine hs hc (h.ofSpan_first hs.toPlaced) ht, if_neg (by omega),
    if_neg (by omega), if_neg (by omega)]

/-- The change at the close marker starts behind the content. -/
theorem current_closeLine_of_le (hs : s.Sound) (hc : s.Frames c)
    (h : s.Cuts c before lead content trail after first last) {t : Token} (ht : s.Has t)
    (hle : t.index ≤ last.index) : (closeLine s (Block.ofSpan s c) last).current t = t.text := by
  have horder := (h.ordered hs.toPlaced).last
  rw [current_closeLine hs hc last ht, if_neg (by omega), if_neg (by omega)]

/-- Both changes are accepted. -/
theorem wrote (hs : s.Sound) (hc : s.Frames c)
    (h : s.Cuts c before lead content trail after first last) :
    ((Fixer.ofStream s).after [(openLine s (Block.ofSpan s c) first).edits,
      (closeLine s (Block.ofSpan s c) last).edits]).Wrote s
        [openLine s (Block.ofSpan s c) first, closeLine s (Block.ofSpan s c) last] := by
  have hle := ((h.ordered hs.toPlaced).content first h.mem_content.1).2
  have hopen := Layout.changes_openLine hs hc (h.ofSpan_first hs.toPlaced)
  have hclose := Layout.changes_closeLine hs hc last
  have hapart : (openLine s (Block.ofSpan s c) first).Apart s
      (closeLine s (Block.ofSpan s c) last) := by
    intro t ht hchanged
    refine h.current_closeLine_of_le hs hc ht ?_
    by_contra hlt
    exact hchanged (h.current_openLine_of_lt hs hc ht (by omega))
  have hchanges : ∀ d ∈ [openLine s (Block.ofSpan s c) first,
      closeLine s (Block.ofSpan s c) last], d.Changes s :=
    List.forall_mem_cons.2 ⟨hopen, List.forall_mem_singleton.2 hclose⟩
  exact Fixer.wrote_of_apart hchanges (List.pairwise_pair.2 hapart)

section Written

variable {f : Fixer} (hs : s.Sound) (hc : s.Frames c)
  (h : s.Cuts c before lead content trail after first last)
  (hwrote : f.Wrote s [openLine s (Block.ofSpan s c) first, closeLine s (Block.ofSpan s c) last])
include hs hc h hwrote

/-- Up to the last content, what is written comes from the repair of the open line. -/
theorem written_of_le {t : Token} (ht : s.Has t) (hle : t.index ≤ last.index) :
    f.written t = (openLine s (Block.ofSpan s c) first).current t :=
  hwrote.written_left ht (h.current_closeLine_of_le hs hc ht hle)

/-- Behind the first content, what is written comes from the repair of the close line. -/
theorem written_of_lt {t : Token} (ht : s.Has t) (hlt : first.index < t.index) :
    f.written t = (closeLine s (Block.ofSpan s c) last).current t :=
  hwrote.written_right ht (h.current_openLine_of_lt hs hc ht hlt)

/-- In front of the content, the open marker ends its line and the blanks are gone. -/
theorem written_front : (∀ t ∈ before, f.written t = t.text) ∧
    f.written c.opener = "/**" ++ s.eol ∧ ∀ t ∈ lead, f.written t = "" := by
  have horder := h.ordered hs.toPlaced
  have hopen := horder.first
  have hfirst := h.ofSpan_first hs.toPlaced
  have hle := (horder.content first h.mem_content.1).2
  refine ⟨fun t ht => ?_, ?_, fun t ht => ?_⟩
  · have hhas := h.has hs.toPlaced (t := t) (by simp [ht])
    have hlt := horder.before t ht
    rw [h.written_of_le hs hc hwrote hhas (by omega), current_openLine hs hc hfirst hhas,
      if_neg (by omega), if_neg (by omega), if_neg (by omega)]
  · rw [h.written_of_le hs hc hwrote hc.opener (by omega), current_openLine hs hc hfirst hc.opener,
      if_pos rfl, hc.openerText]
  · have hhas := h.has hs.toPlaced (t := t) (by simp [ht])
    obtain ⟨hlow, hhigh⟩ := horder.lead t ht
    rw [h.written_of_le hs hc hwrote hhas (by omega), current_openLine hs hc hfirst hhas,
      if_neg (by omega), if_neg (by omega), if_pos ⟨hlow, hhigh⟩]

/-- The content starts behind a star and is the same otherwise. -/
theorem written_content : ∃ more, content = first :: more ∧
    f.written first = (Block.ofSpan s c).starIndent s ++ "* " ++ first.text ∧
    ∀ t ∈ more, f.written t = t.text := by
  obtain ⟨more, hmore⟩ := h.run.starts
  have horder := h.ordered hs.toPlaced
  have hopen := horder.first
  refine ⟨more, hmore, ?_, fun t ht => ?_⟩
  · have hhas := h.has hs.toPlaced (t := first) (by simp [hmore])
    have hle := (horder.content first h.mem_content.1).2
    rw [h.written_of_le hs hc hwrote hhas hle,
      current_openLine hs hc (h.ofSpan_first hs.toPlaced) hhas, if_neg (by omega), if_pos rfl]
  · have hhas := h.has hs.toPlaced (t := t) (by simp [hmore, ht])
    have heq : s.tokens.toList = (before ++ c.opener :: (lead ++ [first])) ++
        (more ++ (trail ++ c.closer :: after)) := by
      simp [h.tokens, hmore]
    have hlt := hs.index_lt_of_append heq (t := first) (u := t) (by simp) (by simp [ht])
    rw [h.written_of_lt hs hc hwrote hhas hlt]
    exact h.current_closeLine_of_le hs hc hhas (horder.content t (by simp [hmore, ht])).2

/-- Behind the content, the blanks are gone and the close marker starts a line. -/
theorem written_back : (∀ t ∈ trail, f.written t = "") ∧
    f.written c.closer = s.eol ++ (Block.ofSpan s c).starIndent s ++ "*/" ∧
    ∀ t ∈ after, f.written t = t.text := by
  have horder := h.ordered hs.toPlaced
  have hclose := horder.last
  have hle := (horder.content first h.mem_content.1).2
  refine ⟨fun t ht => ?_, ?_, fun t ht => ?_⟩
  · have hhas := h.has hs.toPlaced (t := t) (by simp [ht])
    obtain ⟨hlow, hhigh⟩ := horder.trail t ht
    rw [h.written_of_lt hs hc hwrote hhas (by omega), current_closeLine hs hc last hhas,
      if_neg (by omega), if_pos ⟨hlow, hhigh⟩]
  · rw [h.written_of_lt hs hc hwrote hc.closer (by omega), current_closeLine hs hc last hc.closer,
      if_pos rfl, hc.closerText]
  · have hhas := h.has hs.toPlaced (t := t) (by simp [ht])
    have hlt := horder.after t ht
    rw [h.written_of_lt hs hc hwrote hhas (by omega), current_closeLine hs hc last hhas,
      if_neg (by omega), if_neg (by omega)]

/-- The markers and the content of the comment are written on three lines. -/
theorem text_written :
    f.text = Token.textOf before ++ "/**" ++ s.eol ++ (Block.ofSpan s c).starIndent s ++ "* " ++
      Token.textOf content ++ s.eol ++ (Block.ofSpan s c).starIndent s ++ "*/" ++
      Token.textOf after := by
  obtain ⟨hbefore, hopener, hlead⟩ := h.written_front hs hc hwrote
  obtain ⟨more, rfl, hfirst, hmore⟩ := h.written_content hs hc hwrote
  obtain ⟨htrail, hcloser, hafter⟩ := h.written_back hs hc hwrote
  have hcontent : Token.textOf (first :: more) = first.text ++ Token.textOf more := by
    simp [Token.textOf]
  rw [← String.toList_inj, hwrote.toList_text hs.toPlaced, h.tokens]
  simp only [List.flatMap_append, List.flatMap_cons, Fixer.flatMap_written hbefore, hopener,
    Fixer.flatMap_written_nil hlead, hfirst, Fixer.flatMap_written hmore,
    Fixer.flatMap_written_nil htrail, hcloser, Fixer.flatMap_written hafter, hcontent,
    String.toList_append, List.append_assoc, List.nil_append]

end Written

end Stream.Cuts

end PhpDoc
