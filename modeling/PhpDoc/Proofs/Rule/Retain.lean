import PhpDoc.Proofs.Rule.Breaks

/-!
# The line breaks that repairs keep

A repair that breaks no line drops line breaks for few reasons (`Stream.Spare`): another line break
stands in front of the token, or nothing but blank lines stands between the token and the close
marker of its comment, and another line break follows. So repairs that rewrite each token at most
once leave a line break in a text that has one (`Fixer.Wrote.exists_broken`).
-/

namespace PhpDoc

open Text

variable {s : Stream} {c : CommentSpan} {change : Changeset} {t : Token}

/-- The token holds a line break. -/
def Token.Broken (t : Token) : Prop :=
  ¬ Unbroken t.text.toList

namespace Stream

/-- A line break stands in front of the token. -/
def BrokenBefore (s : Stream) (t : Token) : Prop :=
  ∃ u, s.Has u ∧ u.index < t.index ∧ u.Broken

/-- The reasons for which the line break of a token may be dropped. -/
inductive Spare (s : Stream) (t : Token) : Prop where
  /-- It ends a blank line above content of its comment. -/
  | above {c : CommentSpan} {content : Token} (frames : s.Frames c) (covers : c.Covers t)
      (contains : c.Contains s content) (lt : t.index < content.index) (before : s.BrokenBefore t)
  /-- It ends a blank line between a comment and a function. -/
  | behind (kind : t.kind = .whitespace) (before : s.BrokenBefore t)
  /-- It ends a blank line above the close marker of its comment. -/
  | below {c : CommentSpan} {next : Token} (frames : s.Frames c) (covers : c.Covers t)
      (vacant : s.Vacant t.index c.closer.index) (has : s.Has next)
      (index : next.index = t.index + 1) (line : next.line < c.closer.line)

/-- Between the lines of two tokens there is a line break. -/
theorem Placed.exists_broken (hs : s.Placed) (ht : s.Has t) {u : Token} (hu : s.Has u)
    (hline : t.line < u.line) : ∃ v, s.Has v ∧ t.index ≤ v.index ∧ v.index < u.index ∧ v.Broken := by
  induction hn : u.index - t.index generalizing u with
  | zero =>
      have := hs.line_le hu ht (by omega)
      omega
  | succ n ih =>
      obtain ⟨v, hv, hindex⟩ := hs.has_of_le (i := u.index - 1) hu (by omega)
      by_cases hbroken : v.Broken
      · exact ⟨v, hv, by omega, by omega, hbroken⟩
      · have hsame := (hs.unbroken_next hv hu (by omega) (not_not.1 hbroken)).1
        obtain ⟨w, hw, htw, hwv, hwbroken⟩ := ih hv (by omega) (by omega)
        exact ⟨w, hw, htw, by omega, hwbroken⟩

/-- A line break stands in front of a token that is on a later line than another one. -/
theorem Placed.brokenBefore (hs : s.Placed) (ht : s.Has t) {u : Token} (hu : s.Has u)
    (hline : u.line < t.line) : s.BrokenBefore t := by
  obtain ⟨v, hv, -, hlt, hbroken⟩ := hs.exists_broken hu ht hline
  exact ⟨v, hv, hlt, hbroken⟩

/-- In a stream with a line break there is one with none in front of it. -/
theorem exists_first_broken (ht : s.Has t) (hbroken : t.Broken) :
    ∃ u, s.Has u ∧ u.Broken ∧ ¬ s.BrokenBefore u := by
  induction hn : t.index using Nat.strong_induction_on generalizing t with
  | _ n ih =>
      by_cases hbefore : s.BrokenBefore t
      · obtain ⟨u, hu, hlt, hubroken⟩ := hbefore
        exact ih u.index (by omega) hu hubroken rfl
      · exact ⟨t, ht, hbroken, hbefore⟩

/-- The line ending of a stream breaks a line. -/
theorem not_unbroken_eol (s : Stream) : ¬ Unbroken s.eol.toList := by
  rcases s.eol_eq with h | h <;> rw [h] <;> decide

end Stream

namespace Changeset

/-- The change breaks the line of a token. -/
def BreaksLine (s : Stream) (change : Changeset) : Prop :=
  ∃ t, s.Has t ∧ Unbroken t.text.toList ∧ ¬ Unbroken (change.current t).toList

/-- The change keeps tokens with line breaks, but for those that can be spared. -/
def Retains (s : Stream) (change : Changeset) : Prop :=
  ∀ t, s.Has t → t.Broken → change.current t = t.text ∨ s.Spare t

/-- A change of tokens without line breaks keeps all line breaks. -/
theorem Within.retains (h : change.Within s fun t => Unbroken t.text.toList) :
    change.Retains s := by
  intro t ht hbroken
  by_contra hnot
  exact hbroken (h t ht (not_or.1 hnot).1)

/-- Blanking keeps the line breaks if those of the blanked tokens can be spared. -/
theorem retains_blank {ts : List Token} (hts : ∀ u ∈ ts, s.Has u)
    (h : ∀ u ∈ ts, u.Broken → s.Spare u) : (empty.blank ts).Retains s := by
  intro t ht hbroken
  rw [current_blank _ hts ht, current_empty]
  split
  · next hmem => exact .inr (h t hmem hbroken)
  · exact .inl rfl

end Changeset

/-- A blank that ends no line holds no line break. -/
theorem Stream.Sound.unbroken_docBlank (hs : s.Sound) (ht : s.Has t) (hkind : t.kind = .docBlank)
    (hends : endsLine t.text = false) : Unbroken t.text.toList :=
  (hs.lined ht (by rw [hkind]; rfl)).unbroken_of_not_endsLine hends

namespace Layout

/-- Lines that are dropped between a token and content further down can be spared: above them a line
ends, which is kept. -/
theorem retains_lines (hs : s.Placed) (hc : s.Frames c) {upper content : Token}
    (hupper : s.Has upper) (hcontent : c.Contains s content) {i : Nat} (hi : c.opener.index ≤ i)
    {p : Token → Bool} (hp : ∀ t, p t = true → upper.line < t.line) :
    (Changeset.empty.blank ((s.between i content.index).filter p)).Retains s := by
  refine Changeset.retains_blank (fun t ht => hs.has_of_mem_filter ht) fun t ht _ => ?_
  obtain ⟨hbetween, hbelow⟩ := List.mem_filter.1 ht
  obtain ⟨hhas, hfrom, hto⟩ := hs.mem_between.1 hbetween
  have hcloser := hcontent.lt_closer
  exact .above hc ⟨by omega, by omega⟩ hcontent hto (hs.brokenBefore hhas hupper (hp t hbelow))

/-- A fix of the layout breaks a line, or it keeps the line breaks that cannot be spared. -/
theorem Repair.retains (hs : s.Sound) (hc : s.Frames c) (h : Repair s c change) :
    change.BreaksLine s ∨ change.Retains s := by
  have hplaced := hs.toPlaced
  have hempty := Changeset.within_empty s fun t => Unbroken t.text.toList
  cases h with
  | openLine first_eq line =>
      refine .inl ⟨c.opener, hc.opener, hc.openerText ▸ by decide, ?_⟩
      rw [current_openLine hs hc first_eq hc.opener, if_pos rfl, String.toList_append,
        unbroken_append]
      exact fun hunbroken => s.not_unbroken_eol hunbroken.2
  | closeLine last_eq line =>
      refine .inl ⟨c.closer, hc.closer, hc.closerText ▸ by decide, ?_⟩
      rw [current_closeLine hs hc _ hc.closer, if_pos rfl, String.toList_append,
        String.toList_append, unbroken_append, unbroken_append]
      exact fun hunbroken => s.not_unbroken_eol hunbroken.1.1
  | @blankBeforeClose last last_eq line =>
      -- what is dropped ends in front of the line break above the line of the close marker
      obtain ⟨hhas, hfrom, hto, -, hfiller⟩ := hplaced.lastBetween.1 last_eq
      obtain ⟨bottom, hbottom, hlt, hle, -⟩ := hc.exists_firstOn hplaced hhas hc.closer hfrom
        (Nat.le_refl _) c.closer.line (by omega) (Nat.le_refl _)
      refine .inr fun t ht _ => ?_
      rw [drops_blankBeforeClose hplaced hc hbottom hlt t ht]
      split
      · next hrange =>
          obtain ⟨next, hnext, hindex⟩ := hplaced.has_of_le (i := t.index + 1) hc.closer (by omega)
          have hline := (hbottom.lt_iff hnext).1 (by omega)
          refine .inr (.below hc ⟨by omega, by omega⟩ (fun u hu hfrom hbefore => ?_) hnext hindex
            hline)
          simpa using hfiller u hu (by omega) hbefore
      · exact .inl rfl
  | @blankBeforeShort short short_eq line =>
      obtain ⟨hfirst, hkind, -⟩ := Block.short_first hplaced hc short_eq
      obtain ⟨hhas, hfrom, hto, -⟩ := Block.first_spec hplaced hfirst
      have hcontent : c.Contains s short.first := ⟨hhas, hfrom, hto, by rw [hkind]; rfl⟩
      unfold Layout.blankBeforeShort
      rw [Block.ofSpan_opener]
      refine .inr (retains_lines hplaced hc hc.opener hcontent (Nat.le_refl _) fun t ht => ?_)
      simp only [Bool.and_eq_true, decide_eq_true_eq] at ht
      exact ht.1
  | @blankBetween short long short_eq long_eq line =>
      obtain ⟨hfirst, -⟩ := Block.short_first hplaced hc short_eq
      obtain ⟨-, hfrom, -⟩ := Block.first_spec hplaced hfirst
      obtain ⟨hdhas, -, hle, -⟩ :=
        Block.mem_short_strings hplaced hc short_eq (Block.last_mem_strings short)
      obtain ⟨hlhas, hkind, hlt, hstop, -⟩ := Block.long_first hplaced hc short_eq long_eq
      have hclose := hc.stop_le hplaced
      have hcontent : c.Contains s long.first := ⟨hlhas, by omega, by omega, by rw [hkind]; rfl⟩
      unfold Layout.blankBetween
      refine .inr (retains_lines hplaced hc hdhas hcontent (by omega) fun t ht => ?_)
      simp only [Bool.and_eq_true, decide_eq_true_eq] at ht
      exact ht.1
  | @blankBeforeTag previous t tag previous_eq line =>
      have hfits := Block.fits_of_mem_tags hplaced hc tag
      obtain ⟨hhas, hfrom, hto, hkind, -⟩ := hplaced.lastBetween.1 previous_eq
      have hstop := hfits.lt_stop
      have hclose := hfits.stop_le
      obtain ⟨bottom, hbottom, -⟩ := hplaced.exists_firstOn hfits.token
      refine .inl ⟨previous, hhas, hc.unbroken hhas (by omega) (by omega) ?_, ?_⟩
      · intro hblank
        rw [hblank] at hkind
        cases hkind
      · rw [current_singleBlankLine hplaced hhas hfits.token hbottom _ hhas, if_pos rfl,
          String.toList_append, unbroken_append]
        intro hunbroken
        rw [String.toList_append, unbroken_append] at hunbroken
        exact s.not_unbroken_eol hunbroken.2.2
  | @pad g m group misaligned =>
      obtain ⟨t, ht, hmis⟩ := TagGroup.mem_misaligned.1 misaligned
      obtain ⟨value, hvalue, -, rfl⟩ := TagGroup.misalignment?_eq_some.1 hmis
      have hfits := Block.fits_of_mem_tags hplaced hc (Block.mem_tags_of_groups group ht)
      refine .inr (Changeset.Within.retains ?_)
      unfold Layout.pad
      split
      · next blank hblank =>
          exact hempty.replace (hfits.padding blank hblank).1
            (hfits.unbroken_padding hs hblank) _
      · exact hempty.prepend (hfits.value value hvalue).1 (hfits.unbroken_value hc hvalue) _
  | @indent t blank has opener_lt le_closer kind indent_eq column =>
      refine .inr (Changeset.Within.retains ?_)
      unfold Layout.indent
      cases blank with
      | some blank =>
          obtain ⟨hblank, -, hkind, hends, -⟩ := hplaced.lineIndent?_some_some indent_eq
          exact hempty.replace hblank (hs.unbroken_docBlank hblank hkind hends) _
      | none =>
          refine hempty.prepend has (hc.unbroken has (Nat.le_of_lt opener_lt) le_closer ?_) _
          rcases kind with h | h <;> rw [h] <;> decide

end Layout

namespace FunctionRule

/-- Another padding in a parameter tag keeps all line breaks. -/
theorem retains_respace (hs : s.Sound) (hc : s.Frames c) {p : ParamTag}
    (hp : p ∈ (Block.ofSpan s c).paramTags s) (content : String) (required found : Int) :
    (respace s p content required found).Retains s := by
  have hempty := Changeset.within_empty s fun t => Unbroken t.text.toList
  refine (respace_induction (fun _ => hempty) (fun v hv => ?_)
    fun line _ blank hblank change n hchange => ?_ :
      (respace s p content required found).Within s fun t => Unbroken t.text.toList).retains
  · exact hempty.replace (ParamTag.covers_value hs.toPlaced hc hp hv).1
      (ParamTag.unbroken_value hs.toPlaced hc hp hv) content
  · obtain ⟨hhas, -, hkind, hends⟩ := ParamTag.has_of_indentToken? hs.toPlaced hblank
    exact hchange.replace hhas (hs.unbroken_docBlank hhas hkind hends) _

/-- Another spelling of a type keeps all line breaks. -/
theorem retains_retype {value : Token} (hvalue : s.Has value)
    (hline : Unbroken value.text.toList) (old new : String) : (retype value old new).Retains s :=
  ((Changeset.within_empty s fun t => Unbroken t.text.toList).replace hvalue hline _).retains

end FunctionRule

/-- A repair breaks a line, or it keeps the line breaks that cannot be spared. -/
theorem Repair.retains (hs : s.Sound) (h : Repair s change) :
    change.BreaksLine s ∨ change.Retains s := by
  have hplaced := hs.toPlaced
  cases h with
  | layout frames repair => exact repair.retains hs frames
  | paramType frames param type value_eq change =>
      exact .inr (FunctionRule.retains_retype
        (ParamTag.covers_value hplaced frames param value_eq).1
        (ParamTag.unbroken_value hplaced frames param value_eq) _ _)
  | firstWord frames tag value_eq change =>
      have hfits := Block.fits_of_mem_tags hplaced frames tag
      exact .inr (FunctionRule.retains_retype (hfits.value _ value_eq).1
        (hfits.unbroken_value frames value_eq) _ _)
  | padType frames param type var space =>
      exact .inr (FunctionRule.retains_respace hs frames param _ _ _)
  | padName frames param type var comment space =>
      exact .inr (FunctionRule.retains_respace hs frames param _ _ _)
  | @blankAfterComment c keyword following frames has kind documents lt following_eq line =>
      unfold FunctionRule.blankAfterComment
      refine .inr (Changeset.retains_blank (fun u hu => hs.has_of_mem_filter hu) fun u hu _ => ?_)
      obtain ⟨hbetween, hline⟩ := List.mem_filter.1 hu
      simp only [Bool.and_eq_true, beq_iff_eq, decide_eq_true_eq] at hline
      obtain ⟨⟨hkind, hbehind⟩, -⟩ := hline
      exact .behind hkind (hplaced.brokenBefore (hs.mem_between.1 hbetween).1 frames.closer hbehind)

/-! ## Line breaks that all repairs keep -/

namespace Stream

/-- The first line break of a stream is spared only above a close marker. -/
theorem Spare.exists_below (h : s.Spare t) (hfirst : ¬ s.BrokenBefore t) :
    ∃ c next, s.Frames c ∧ c.Covers t ∧ s.Vacant t.index c.closer.index ∧ s.Has next ∧
      next.index = t.index + 1 ∧ next.line < c.closer.line := by
  cases h with
  | above frames covers contains lt before => exact absurd before hfirst
  | behind kind before => exact absurd before hfirst
  | below frames covers vacant has index line =>
      exact ⟨_, _, frames, covers, vacant, has, index, line⟩

/-- The line break in front of the last line of a comment cannot be spared when no content follows
it. -/
theorem Frames.not_spare (hc : s.Frames c) {bottom : Token}
    (hbottom : s.FirstOn bottom c.closer.line) (hcovers : c.Covers t)
    (hvacant : s.Vacant t.index c.closer.index) (ht : s.Has t) (hindex : t.index + 1 = bottom.index) :
    ¬ s.Spare t := by
  intro h
  have hdoc := hc.isDoc_of_mem ht hcovers.1 hcovers.2
  cases h with
  | @above d content frames covers contains lt before =>
      obtain rfl := hc.eq_of_mem frames hcovers.1 hcovers.2 covers.1 covers.2
      have hfiller := hvacant content contains.has (Nat.le_of_lt lt) contains.lt_closer
      rw [(hc.isFiller_eq_false contains.has contains.opener_lt contains.lt_closer).2
        contains.content] at hfiller
      cases hfiller
  | behind kind before =>
      rw [kind] at hdoc
      cases hdoc
  | @below d next frames covers vacant has index line =>
      obtain rfl := hc.eq_of_mem frames hcovers.1 hcovers.2 covers.1 covers.2
      obtain rfl := has.eq hbottom.has (by omega)
      rw [hbottom.line_eq] at line
      exact Nat.lt_irrefl _ line

/-- In a stream with a line break there is one that cannot be spared, or that of a token which
blank lines and a close marker follow, and then one behind it cannot. -/
theorem Placed.exists_not_spare (hs : s.Placed) (ht : s.Has t) (hbroken : t.Broken) :
    ∃ u, s.Has u ∧ u.Broken ∧ ¬ s.Spare u := by
  obtain ⟨first, hhas, hfirst, hbefore⟩ := exists_first_broken ht hbroken
  by_cases hspare : s.Spare first
  · -- the line break in front of the line of the close marker stays
    obtain ⟨c, next, hc, hcovers, hvacant, hnext, hindex, hline⟩ := hspare.exists_below hbefore
    obtain ⟨bottom, hbottom, hle⟩ := hs.exists_firstOn hc.closer
    have hlt := (hbottom.lt_iff hnext).2 hline
    obtain ⟨u, hu, huindex⟩ := hs.has_of_le (i := bottom.index - 1) hbottom.has (by omega)
    refine ⟨u, hu, fun hunbroken => ?_, ?_⟩
    · have hsame := (hs.unbroken_next hu hbottom.has (by omega) hunbroken).1
      have huline := (hbottom.lt_iff hu).1 (by omega)
      rw [hbottom.line_eq] at hsame
      omega
    · obtain ⟨hfrom, -⟩ := hcovers
      refine hc.not_spare hbottom ⟨by omega, by omega⟩ (fun v hv hfrom hto => ?_) hu (by omega)
      exact hvacant v hv (by omega) hto
  · exact ⟨first, hhas, hfirst, hspare⟩

end Stream

/-- Repairs leave a line break in a text that has one. -/
theorem Fixer.Wrote.exists_broken {f : Fixer} {cs : List Changeset} (hs : s.Sound)
    (h : f.Wrote s cs) (hcs : ∀ change ∈ cs, Repair s change) (ht : s.Has t)
    (hbroken : t.Broken) : ∃ u, s.Has u ∧ ¬ Unbroken (f.written u).toList := by
  by_cases hbreaks : ∃ change ∈ cs, change.BreaksLine s
  -- a change that breaks a line writes the line break that is left
  · obtain ⟨change, hchange, u, hu, hline, hcurrent⟩ := hbreaks
    refine ⟨u, hu, ?_⟩
    rwa [h.changed hu hchange fun heq => hcurrent (heq ▸ hline)]
  · obtain ⟨u, hu, hubroken, hspare⟩ := hs.toPlaced.exists_not_spare ht hbroken
    refine ⟨u, hu, ?_⟩
    rwa [h.kept hu fun change hchange => ?_]
    have hretains := ((hcs change hchange).retains hs).resolve_left fun hbreak =>
      hbreaks ⟨change, hchange, hbreak⟩
    exact (hretains u hu hubroken).resolve_right hspare

end PhpDoc
