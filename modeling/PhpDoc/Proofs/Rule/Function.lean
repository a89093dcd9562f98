import PhpDoc.Proofs.Comment.Preceding
import PhpDoc.Proofs.Rule.Param

/-!
# Fixes of function and property comments change something

The repair of a return or variable type puts another type in front of the rest of the value, and the
blank lines behind the comment of a function are not empty. The rules for functions and member
variables propose these repairs, and those for parameters, only.
-/

namespace PhpDoc

open Text

variable {s : Stream} {c : CommentSpan} {v : Violation}

/-- A text starts with its part before a separator. -/
theorem Text.exists_eq_before_append (sep : Char) (text : String) :
    ∃ rest, text.toList = (before sep text).toList ++ rest := by
  refine ⟨text.toList.dropWhile (· != sep), ?_⟩
  rw [before, String.toList_ofList, List.takeWhile_append_dropWhile]

namespace FunctionRule

/-- Cross references are reported without a fix. -/
theorem fixedBy_checkSees {q : Changeset → Prop} {b : Block} (h : v ∈ checkSees b) :
    v.FixedBy q := by
  obtain ⟨t, -, hv⟩ := List.mem_flatMap.1 h
  exact Violation.fixedBy_of_mem_report hv

/-- The exit of a function is reported without a fix. -/
theorem fixedBy_checkExit {q : Changeset → Prop} {f : Function} {t : Tag} {type : String}
    (h : v ∈ checkExit s f t type) : v.FixedBy q := by
  unfold checkExit at h
  split at h
  · cases h
  · split at h
    · exact Violation.fixedBy_of_mem_report h
    · exact Violation.fixedBy_of_mem_report h
    · exact Violation.fixedBy_of_mem_report h

/-- Another spelling of the first word of a value changes the value. -/
theorem changes_firstWord (hs : s.Placed) (hc : s.Frames c) {t : Tag}
    (ht : t ∈ (Block.ofSpan s c).tags) {value : Token} (hvalue : t.value = some value)
    (hne : TypeName.normalize (before ' ' value.text) ≠ before ' ' value.text) :
    (retype value (before ' ' value.text)
      (TypeName.normalize (before ' ' value.text))).Changes s := by
  obtain ⟨rest, htext⟩ := exists_eq_before_append ' ' value.text
  exact changes_retype ((Block.fits_of_mem_tags hs hc ht).value value hvalue).1 rest htext hne

/-- The type in a return tag is fixed by a repair. -/
theorem effective_checkReturnType (hc : s.Frames c) {f : Function} {t : Tag}
    (ht : t ∈ (Block.ofSpan s c).tags) {value : Token} (hvalue : t.value = some value)
    (h : v ∈ checkReturnType s f t value) : v.Effective s := by
  unfold checkReturnType at h
  simp only at h
  rcases List.mem_append.1 h with h | h
  · refine Violation.fixedBy_of_mem_report_fixed h fun hne => ?_
    rw [Bool.and_eq_true] at hne
    exact .firstWord hc ht hvalue (bne_iff_ne.1 hne.1)
  · exact fixedBy_checkExit h

/-- What is reported of return tags is fixed by repairs. -/
theorem effective_checkReturn (hc : s.Frames c) {f : Function}
    (h : v ∈ checkReturn s (Block.ofSpan s c) f) : v.Effective s := by
  unfold checkReturn at h
  split at h
  · rw [List.mem_singleton.1 h]
    exact Violation.fixedBy_error _ _ _ _
  · split at h
    · cases h
    · split at h
      · rw [List.mem_singleton.1 h]
        exact Violation.fixedBy_error _ _ _ _
      · next t ts htags =>
          split at h
          · rw [List.mem_singleton.1 h]
            exact Violation.fixedBy_error _ _ _ _
          · next value hvalue =>
              have ht : t ∈ (Block.ofSpan s c).tagsNamed "@return" := htags ▸ List.mem_cons_self
              exact effective_checkReturnType hc (List.mem_filter.1 ht).1 hvalue h

/-- Throws tags are reported without a fix. -/
theorem fixedBy_checkThrows {q : Changeset → Prop} {b : Block} (h : v ∈ checkThrows s b) :
    v.FixedBy q := by
  obtain ⟨t, -, hv⟩ := List.mem_flatMap.1 h
  split at hv
  · rw [List.mem_singleton.1 hv]
    exact Violation.fixedBy_error _ _ _ _
  · unfold checkThrown at hv
    split at hv
    · rw [List.mem_singleton.1 hv]
      exact Violation.fixedBy_error _ _ _ _
    · rw [List.mem_singleton.1 hv]
      exact Violation.fixedBy_error _ _ _ _
    · simp only [List.mem_append] at hv
      rcases hv with hv | hv
      · exact Violation.fixedBy_of_mem_report hv
      · exact Violation.fixedBy_of_mem_report hv

/-- What follows the comment of a function: the first token that is no white space. -/
theorem following_spec (hs : s.Placed) {closer keyword : Token} (hf : s.Has keyword)
    (hlt : closer.index < keyword.index) {following : Token}
    (h : (s.firstBetween (· != .whitespace) (closer.index + 1) keyword.index).getD keyword =
      following) :
    s.Has following ∧ closer.index < following.index ∧ following.index ≤ keyword.index ∧
      ∀ u, s.Has u → closer.index < u.index → u.index < following.index →
        u.kind = .whitespace := by
  cases hfirst : s.firstBetween (· != .whitespace) (closer.index + 1) keyword.index with
  | none =>
      rw [hfirst] at h
      obtain rfl : keyword = following := h
      refine ⟨hf, hlt, Nat.le_refl _, fun u hu hcloser huf => ?_⟩
      simpa using hs.firstBetween_eq_none.1 hfirst u hu hcloser huf
  | some t =>
      rw [hfirst] at h
      obtain rfl : t = following := h
      obtain ⟨hhas, hfrom, hto, -, hbefore⟩ := hs.firstBetween.1 hfirst
      refine ⟨hhas, hfrom, Nat.le_of_lt hto, fun u hu hcloser hut => ?_⟩
      simpa using hbefore u hu hcloser hut

/-- The blank lines behind a comment are not empty. -/
theorem changes_blankAfterComment (hs : s.Sound) (hc : s.Frames c) {keyword following : Token}
    (hf : s.Has keyword) (hlt : c.closer.index < keyword.index)
    (hfollowing : (s.firstBetween (· != .whitespace) (c.closer.index + 1)
      keyword.index).getD keyword = following)
    (hline : c.closer.line + 1 < following.line) :
    (blankAfterComment s c.closer keyword following).Changes s := by
  have hcloser := hc.closer
  have hkind := hc.closerKind
  generalize c.closer = closer at hcloser hkind hlt hfollowing hline
  unfold blankAfterComment
  obtain ⟨hhas, hfrom, hto, hspace⟩ := following_spec hs.toPlaced hf hlt hfollowing
  -- between them stands white space only, which is cut at every line break
  have hshort : ∀ u, s.Has u → closer.index ≤ u.index → u.index < following.index → u.Short := by
    intro u hu hcu huf
    rcases Nat.eq_or_lt_of_le hcu with heq | hcu
    · rw [← hcloser.eq hu heq]
      exact Token.short_of_lined (hs.lined hcloser (by rw [hkind]; rfl))
    · exact Token.short_of_lined (hs.lined hu (by rw [hspace u hu hcu huf]; rfl))
  obtain ⟨t, ht, hct, htf, htline⟩ := hs.exists_on_line hcloser hhas (Nat.le_of_lt hfrom) hshort
    (closer.line + 1) (by omega) (by omega)
  have hafter := hcloser.index_lt ht hct (by omega)
  have hbefore := ht.index_lt hhas htf (by omega)
  have hmem : t ∈ (s.between (closer.index + 1) keyword.index).filter fun t =>
      t.kind == .whitespace && closer.line < t.line && t.line < following.line := by
    rw [List.mem_filter]
    refine ⟨hs.mem_between.2 ⟨ht, by omega, by omega⟩, ?_⟩
    simp only [hspace t ht (by omega) (by omega), beq_self_eq_true, Bool.true_and,
      Bool.and_eq_true, decide_eq_true_eq]
    omega
  exact Changeset.changes_blank hs (fun u hu => hs.has_of_mem_filter hu) hmem

/-- Blank lines behind the comment of a function are fixed by a repair. -/
theorem effective_spacingAfterComment (hs : s.Placed) (hc : s.Frames c) {f : Function}
    (hf : s.Has f.token) (hkind : f.token.kind = .function)
    (hfind : Preceding.find s isLead f.token.index = .doc c.closer)
    (h : v ∈ spacingAfterComment s c.closer f) : v.Effective s := by
  have hlt := (Preceding.find_eq_doc hs hfind).2.2
  unfold spacingAfterComment at h
  exact Violation.fixedBy_of_mem_report_fixed h fun hline =>
    .blankAfterComment hc hf hkind hfind hlt rfl (by simpa using hline)

/-- Every finding about the comment of a function is effective. -/
theorem effective_checkComment (hs : s.Sound) (hc : s.Frames c) {f : Function}
    (hf : s.Has f.token) (hkind : f.token.kind = .function)
    (hfind : Preceding.find s isLead f.token.index = .doc c.closer) {scalarHints : Bool}
    (h : v ∈ checkComment scalarHints s f c.closer c) : v.Effective s := by
  unfold checkComment at h
  simp only [List.mem_append] at h
  rcases h with (((h | h) | h) | h) | h
  · exact effective_spacingAfterComment hs.toPlaced hc hf hkind hfind h
  · exact fixedBy_checkSees h
  · exact effective_checkParams hc h
  · exact effective_checkReturn hc h
  · exact fixedBy_checkThrows h

end FunctionRule

namespace PropertyRule

/-- Tags in the comment of a member variable are reported without a fix. -/
theorem effective_checkTag {t : Tag} (h : v ∈ checkTag t) : v.Effective s := by
  unfold checkTag at h
  split at h
  · rw [List.mem_singleton.1 h]
    exact Violation.fixedBy_error _ _ _ _
  · split at h
    · exact Violation.fixedBy_of_mem_report h
    · rw [List.mem_singleton.1 h]
      exact Violation.fixedBy_warning _ _ _ _

/-- The type in a `@var` tag is fixed by a repair. -/
theorem effective_checkVarType (hc : s.Frames c) {t : Tag} (ht : t ∈ (Block.ofSpan s c).tags)
    {value : Token} (hvalue : t.value = some value) (h : v ∈ checkVarType value) :
    v.Effective s := by
  unfold checkVarType at h
  exact Violation.fixedBy_of_mem_report_fixed h fun hne =>
    .firstWord hc ht hvalue (bne_iff_ne.1 hne)

/-- Every finding about the comment of a member variable is effective. -/
theorem effective_checkComment (hc : s.Frames c) (h : v ∈ checkComment s c) :
    v.Effective s := by
  unfold checkComment at h
  rcases List.mem_append.1 h with h | h
  · obtain ⟨t, -, hv⟩ := List.mem_flatMap.1 h
    exact effective_checkTag hv
  · split at h
    · rw [List.mem_singleton.1 h]
      exact Violation.fixedBy_error _ _ _ _
    · next t ht =>
        unfold checkVar at h
        rcases List.mem_append.1 h with h | h
        · exact Violation.fixedBy_of_mem_report h
        · split at h
          · rw [List.mem_singleton.1 h]
            exact Violation.fixedBy_error _ _ _ _
          · next value hvalue =>
              exact effective_checkVarType hc (List.mem_of_find?_eq_some ht) hvalue h

end PropertyRule

end PhpDoc
