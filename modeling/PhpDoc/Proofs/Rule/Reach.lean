import PhpDoc.Proofs.Rule.Effective

/-!
# Where the repairs write

A repair rewrites tokens of its own comment. The only one that does not drops white space between a
comment and the function that it documents (`Repair.reach`). So the edits of an effective violation
are at tokens of comments, or they empty white space behind one (`Violation.Effective.editable`).
-/

namespace PhpDoc

variable {s : Stream} {c : CommentSpan} {change : Changeset} {p : Token → Prop}

/-- The token stands in the comment, to which the markers belong. -/
def CommentSpan.Covers (c : CommentSpan) (t : Token) : Prop :=
  c.opener.index ≤ t.index ∧ t.index ≤ c.closer.index

/-- The token stands between a function and the close marker of the comment in front of it. -/
def Stream.BehindComment (s : Stream) (t : Token) : Prop :=
  ∃ closer keyword, s.Has closer ∧ closer.kind = .docClose ∧ s.Has keyword ∧
    keyword.kind = .function ∧
    Preceding.find s FunctionRule.isLead keyword.index = .doc closer ∧
    closer.index < t.index ∧ t.index < keyword.index

/-- The token may be rewritten: it belongs to a doc comment, or it is white space between a function
and the comment in front of it. -/
def Stream.Editable (s : Stream) (t : Token) : Prop :=
  t.kind.isDoc = true ∨ t.kind = .whitespace ∧ s.BehindComment t

/-- Blanking tokens between two indices writes between these indices. -/
theorem Changeset.Within.blank_between (hs : s.Placed) (h : change.Within s p) {ts : List Token}
    {i j : Nat} (hts : ts ⊆ s.between i j) (hp : ∀ t, i ≤ t.index → t.index < j → p t) :
    (change.blank ts).Within s p := by
  refine h.blank fun t ht => ?_
  obtain ⟨hhas, hfrom, hto⟩ := hs.mem_between.1 (hts ht)
  exact ⟨hhas, hp t hfrom hto⟩

namespace Tag.Fits

variable {t : Tag}

/-- A comment covers the tokens of its tags. -/
theorem covers_token (ht : t.Fits s c) : c.Covers t.token :=
  ⟨Nat.le_of_lt ht.opener_lt, Nat.le_trans (Nat.le_of_lt ht.lt_stop) ht.stop_le⟩

/-- A comment covers the values of its tags. -/
theorem covers_value (ht : t.Fits s c) {v : Token} (hv : t.value = some v) : c.Covers v := by
  obtain ⟨-, -, -, hstop⟩ := ht.value v hv
  have hfrom := ht.lt_value hv
  have hopener := ht.opener_lt
  have hle := ht.stop_le
  exact ⟨by omega, by omega⟩

/-- A comment covers the blanks between its tags and their values. -/
theorem covers_padding (ht : t.Fits s c) {b : Token} (hb : t.padding = some b) : c.Covers b := by
  obtain ⟨-, -, hindex, v, hv, hvindex⟩ := ht.padding b hb
  obtain ⟨-, hto⟩ := ht.covers_value hv
  have hopener := ht.opener_lt
  exact ⟨by omega, by omega⟩

end Tag.Fits

namespace Layout

/-- Padding a value stays within the comment. -/
theorem within_pad {m : Misalignment} (ht : m.tag.Fits s c) (hvalue : m.tag.value = some m.value) :
    (pad m).Within s c.Covers := by
  unfold pad
  split
  · next blank hblank =>
      exact (Changeset.within_empty s _).replace (ht.padding blank hblank).1
        (ht.covers_padding hblank) _
  · exact (Changeset.within_empty s _).prepend (ht.value _ hvalue).1 (ht.covers_value hvalue) _

/-- Moving a star to its column stays within the comment. -/
theorem within_indent (hs : s.Placed) {t : Token} (ht : s.Has t)
    (hfrom : c.opener.index < t.index) (hto : t.index ≤ c.closer.index) {blank : Option Token}
    (hline : s.lineIndent? t.index = some blank) :
    (indent s (Block.ofSpan s c) t blank).Within s c.Covers := by
  unfold indent
  cases blank with
  | some blank =>
      obtain ⟨hblank, hindex, -⟩ := hs.lineIndent?_some_some hline
      exact (Changeset.within_empty s _).replace hblank ⟨by omega, by omega⟩ _
  | none =>
      exact (Changeset.within_empty s _).prepend ht ⟨Nat.le_of_lt hfrom, hto⟩ _

/-- A repair of the layout rewrites tokens of its comment only. -/
theorem Repair.within (hs : s.Sound) (hc : s.Frames c) (h : Repair s c change) :
    change.Within s c.Covers := by
  have hplaced := hs.toPlaced
  have hempty := Changeset.within_empty s c.Covers
  have hopener : c.Covers c.opener := ⟨Nat.le_refl _, Nat.le_of_lt hc.lt⟩
  have hcloser : c.Covers c.closer := ⟨Nat.le_of_lt hc.lt, Nat.le_refl _⟩
  cases h with
  | @openLine first first_eq line =>
      obtain ⟨hhas, hfrom, hto, -⟩ := Block.first_spec hplaced first_eq
      unfold Layout.openLine
      rw [Block.ofSpan_opener]
      refine ((hempty.append hc.opener hopener _).blank_between hplaced (List.Subset.refl _)
        fun t hi hj => ?_).prepend hhas ⟨by omega, by omega⟩ _
      exact ⟨by omega, by omega⟩
  | @closeLine last last_eq line =>
      obtain ⟨-, hfrom, hto, -⟩ := hplaced.lastBetween.1 last_eq
      unfold Layout.closeLine
      rw [Block.ofSpan_closer]
      refine (hempty.blank_between hplaced (List.Subset.refl _) fun t hi hj => ?_).prepend
        hc.closer hcloser _
      exact ⟨by omega, by omega⟩
  | @blankBeforeClose last last_eq line =>
      obtain ⟨-, hfrom, hto, -⟩ := hplaced.lastBetween.1 last_eq
      unfold Layout.blankBeforeClose
      rw [Block.ofSpan_closer]
      refine hempty.blank_between hplaced (beforeLine_sublist _ _).subset fun t hi hj => ?_
      exact ⟨by omega, by omega⟩
  | @blankBeforeShort short short_eq line =>
      obtain ⟨hfirst, -⟩ := Block.short_first hplaced hc short_eq
      obtain ⟨-, hfrom, hto, -⟩ := Block.first_spec hplaced hfirst
      unfold Layout.blankBeforeShort
      rw [Block.ofSpan_opener]
      refine hempty.blank_between hplaced List.filter_sublist.subset fun t hi hj => ?_
      exact ⟨by omega, by omega⟩
  | @blankBetween short long short_eq long_eq line =>
      obtain ⟨hfirst, -⟩ := Block.short_first hplaced hc short_eq
      obtain ⟨-, hfrom, -⟩ := Block.first_spec hplaced hfirst
      obtain ⟨-, -, hshort, -⟩ :=
        Block.mem_short_strings hplaced hc short_eq (Block.last_mem_strings short)
      obtain ⟨-, -, -, hstop, -⟩ := Block.long_first hplaced hc short_eq long_eq
      have hclose := hc.stop_le hplaced
      unfold Layout.blankBetween
      refine hempty.blank_between hplaced List.filter_sublist.subset fun t hi hj => ?_
      exact ⟨by omega, by omega⟩
  | @blankBeforeTag previous t tag previous_eq line =>
      obtain ⟨-, hto⟩ := (Block.fits_of_mem_tags hplaced hc tag).covers_token
      obtain ⟨hhas, hfrom, hlt, -⟩ := hplaced.lastBetween.1 previous_eq
      unfold singleBlankLine
      refine (hempty.blank_between hplaced List.filter_sublist.subset fun u hi hj => ?_).append
        hhas ⟨by omega, by omega⟩ _
      exact ⟨by omega, by omega⟩
  | @pad g m group misaligned =>
      obtain ⟨t, ht, hmis⟩ := TagGroup.mem_misaligned.1 misaligned
      obtain ⟨value, hvalue, -, rfl⟩ := TagGroup.misalignment?_eq_some.1 hmis
      have hfits := Block.fits_of_mem_tags hplaced hc (Block.mem_tags_of_groups group ht)
      exact within_pad hfits hvalue
  | indent has opener_lt le_closer kind indent_eq column =>
      exact within_indent hplaced has opener_lt le_closer indent_eq

end Layout

namespace ParamTag

variable {p : ParamTag}

/-- The lines that continue a parameter tag stand behind its value. -/
theorem mem_more {t : Tag} {line : Token} (h : line ∈ (ofTag s t).more) :
    ∃ v, t.value = some v ∧ line ∈ s.between (v.index + 1) t.stop := by
  unfold ofTag at h
  split at h
  · cases h
  · next value hvalue =>
      obtain ⟨v, hv, -⟩ := Option.bind_eq_some_iff.1 hvalue
      simp only at h
      split at h
      · have hcontinuation := List.mem_of_mem_filter h
        rw [hv] at hcontinuation
        exact ⟨v, hv, hcontinuation⟩
      · cases h

/-- The value of a parameter tag stands in its comment. -/
theorem covers_value (hs : s.Placed) (hc : s.Frames c) (hp : p ∈ (Block.ofSpan s c).paramTags s)
    {v : Token} (hv : p.tag.value = some v) : s.Has v ∧ c.Covers v := by
  obtain ⟨t, ht, -, htag⟩ := exists_of_mem_paramTags hp
  have hfits := Block.fits_of_mem_tags hs hc ht
  rw [htag] at hv
  exact ⟨(hfits.value v hv).1, hfits.covers_value hv⟩

/-- What indents a line that continues a parameter tag stands in the comment. -/
theorem covers_indent (hs : s.Placed) (hc : s.Frames c) (hp : p ∈ (Block.ofSpan s c).paramTags s)
    {line blank : Token} (hline : line ∈ p.more) (hblank : indentToken? s line = some blank) :
    s.Has blank ∧ c.Covers blank := by
  obtain ⟨t, ht, rfl, -⟩ := exists_of_mem_paramTags hp
  obtain ⟨v, hv, hbetween⟩ := mem_more hline
  obtain ⟨-, hfrom, hto⟩ := hs.mem_between.1 hbetween
  obtain ⟨hhas, hindex, -⟩ := has_of_indentToken? hs hblank
  have hfits := Block.fits_of_mem_tags hs hc ht
  obtain ⟨hopener, -⟩ := hfits.covers_value hv
  have hle := hfits.stop_le
  exact ⟨hhas, by omega, by omega⟩

end ParamTag

namespace FunctionRule

/-- The fix of a padding rewrites tokens of the comment only. -/
theorem within_respace (hs : s.Placed) (hc : s.Frames c) {p : ParamTag}
    (hp : p ∈ (Block.ofSpan s c).paramTags s) (content : String) (required found : Int) :
    (respace s p content required found).Within s c.Covers := by
  have hempty := Changeset.within_empty s c.Covers
  refine respace_induction (fun _ => hempty) (fun v hv => ?_)
    fun line hline blank hblank change n hchange => ?_
  · obtain ⟨hhas, hcovers⟩ := ParamTag.covers_value hs hc hp hv
    exact hempty.replace hhas hcovers content
  · obtain ⟨hhas, hcovers⟩ := ParamTag.covers_indent hs hc hp hline hblank
    exact hchange.replace hhas hcovers _

/-- What is written behind the comment of a function is nothing, in place of white space on blank
lines. -/
theorem current_blankAfterComment (hs : s.Placed) {closer keyword following t : Token}
    (ht : s.Has t)
    (hne : (blankAfterComment s closer keyword following).current t ≠ t.text) :
    t.kind = .whitespace ∧ closer.index < t.index ∧ t.index < keyword.index ∧
      closer.line < t.line ∧ t.line < following.line ∧
      (blankAfterComment s closer keyword following).current t = "" := by
  unfold blankAfterComment at hne ⊢
  rw [Changeset.current_blank _ (fun u hu => hs.has_of_mem_filter hu) ht] at hne ⊢
  split at hne
  · next hmem =>
      obtain ⟨hbetween, hblank⟩ := List.mem_filter.1 hmem
      obtain ⟨-, hfrom, hto⟩ := hs.mem_between.1 hbetween
      simp only [Bool.and_eq_true, beq_iff_eq, decide_eq_true_eq] at hblank
      obtain ⟨⟨hkind, hline⟩, hbefore⟩ := hblank
      rw [if_pos hmem]
      exact ⟨hkind, hfrom, hto, hline, hbefore, rfl⟩
  · exact absurd (Changeset.current_empty t) hne

end FunctionRule

/-- A repair writes in its comment, or it drops the blank lines between the comment and the function
that the comment documents. -/
theorem Repair.within_or_behind (hs : s.Sound) (h : Repair s change) :
    (∃ c, s.Frames c ∧ change.Within s c.Covers) ∨ ∃ c keyword following, s.Frames c ∧
      s.Has keyword ∧ keyword.kind = .function ∧
      Preceding.find s FunctionRule.isLead keyword.index = .doc c.closer ∧
      c.closer.index < keyword.index ∧ (s.firstBetween (· != .whitespace) (c.closer.index + 1)
        keyword.index).getD keyword = following ∧
      change = FunctionRule.blankAfterComment s c.closer keyword following := by
  have hplaced := hs.toPlaced
  cases h with
  | layout frames repair => exact .inl ⟨_, frames, repair.within hs frames⟩
  | @paramType c p value frames param type value_eq change =>
      obtain ⟨hhas, hcovers⟩ := ParamTag.covers_value hplaced frames param value_eq
      exact .inl ⟨c, frames, (Changeset.within_empty s _).replace hhas hcovers _⟩
  | @firstWord c t value frames tag value_eq change =>
      have hfits := Block.fits_of_mem_tags hplaced frames tag
      exact .inl ⟨c, frames, (Changeset.within_empty s _).replace (hfits.value _ value_eq).1
        (hfits.covers_value value_eq) _⟩
  | padType frames param type var space =>
      exact .inl ⟨_, frames, FunctionRule.within_respace hplaced frames param _ _ _⟩
  | padName frames param type var comment space =>
      exact .inl ⟨_, frames, FunctionRule.within_respace hplaced frames param _ _ _⟩
  | blankAfterComment frames has kind documents lt following_eq line =>
      exact .inr ⟨_, _, _, frames, has, kind, documents, lt, following_eq, rfl⟩

/-- A repair writes in its comment, or it drops white space between the comment and the function
that the comment documents. -/
theorem Repair.reach (hs : s.Sound) (h : Repair s change) :
    ∃ c, s.Frames c ∧ ∀ t, s.Has t → change.current t ≠ t.text →
      c.Covers t ∨ t.kind = .whitespace ∧ s.BehindComment t ∧ change.current t = "" := by
  rcases h.within_or_behind hs with ⟨c, hc, hwithin⟩ | ⟨c, keyword, following, hc, has, kind,
    documents, -, -, rfl⟩
  · exact ⟨c, hc, fun t ht hne => .inl (hwithin t ht hne)⟩
  · refine ⟨c, hc, fun t ht hne => ?_⟩
    obtain ⟨hkind, hfrom, hto, -, -, hempty⟩ :=
      FunctionRule.current_blankAfterComment hs.toPlaced ht hne
    exact .inr ⟨hkind, ⟨c.closer, keyword, hc.closer, hc.closerKind, has, kind, documents, hfrom,
      hto⟩, hempty⟩

/-- Right behind a comment there is white space up to the token, which stands on a later line. -/
def Stream.Trails (s : Stream) (t : Token) : Prop :=
  ∃ closer, s.Has closer ∧ closer.kind = .docClose ∧ closer.index < t.index ∧
    closer.line < t.line ∧
    ∀ u, s.Has u → closer.index < u.index → u.index ≤ t.index → u.kind = .whitespace

/-- Outside of comments a repair drops white space behind a comment, and nothing else. -/
theorem Repair.trails (hs : s.Sound) (h : Repair s change) {t : Token} (ht : s.Has t)
    (hkind : t.kind.isDoc = false) (hne : change.current t ≠ t.text) :
    change.current t = "" ∧ s.Trails t := by
  rcases h.within_or_behind hs with ⟨c, hc, hwithin⟩ | ⟨c, keyword, following, hc, has, -, -, hlt,
    hfollowing, rfl⟩
  · obtain ⟨hfrom, hto⟩ := hwithin t ht hne
    rw [hc.isDoc_of_mem ht hfrom hto] at hkind
    cases hkind
  · obtain ⟨hhas, -, -, hspace⟩ := FunctionRule.following_spec hs.toPlaced has hlt hfollowing
    obtain ⟨-, hbehind, -, hline, hbefore, hempty⟩ :=
      FunctionRule.current_blankAfterComment hs.toPlaced ht hne
    refine ⟨hempty, c.closer, hc.closer, hc.closerKind, hbehind, hline, fun u hu hfrom hto => ?_⟩
    refine hspace u hu hfrom ?_
    by_contra hnot
    have := hs.line_le hhas ht (by omega)
    omega

namespace Violation

variable {v : Violation}

/-- The edits of an effective violation are at different tokens, all of which may be rewritten, and
white space among them is emptied. -/
theorem Effective.editable (hs : s.Sound) (h : v.Effective s) :
    (v.edits.map (·.index)).Nodup ∧ ∀ e ∈ v.edits, ∃ t, s.get? e.index = some t ∧
      e.oldText = t.text ∧ e.newText ≠ e.oldText ∧ s.Editable t ∧
      (t.kind = .whitespace → e.newText = "") := by
  rcases h with h | ⟨change, hrepair, h⟩
  · simp [edits, h]
  · have hover := (hrepair.changes hs).fits
    rw [edits, h]
    refine ⟨hover.nodup_edits, fun e he => ?_⟩
    obtain ⟨t, ht, hne, rfl⟩ := hover.mem_edits.1 he
    refine ⟨t, ht, rfl, hne, ?_⟩
    obtain ⟨c, hc, hreach⟩ := hrepair.reach hs
    rcases hreach t ht hne with ⟨hfrom, hto⟩ | ⟨hkind, hbehind, hempty⟩
    · have hdoc := hc.isDoc_of_mem ht hfrom hto
      refine ⟨.inl hdoc, fun hspace => ?_⟩
      rw [hspace] at hdoc
      cases hdoc
    · exact ⟨.inr ⟨hkind, hbehind⟩, fun _ => hempty⟩

end Violation

end PhpDoc
