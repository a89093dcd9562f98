import PhpDoc.Proofs.Rule.Function
import PhpDoc.Proofs.Rule.Layout

/-!
# Effective violations

Every repair gives some token another text, rule by rule. So the fix of an effective violation has
edits, and they are computed from the tokens of the stream.
-/

namespace PhpDoc

variable {s : Stream}

/-- Every repair of the layout changes something. -/
theorem Layout.Repair.changes (hs : s.Sound) {c : CommentSpan} (frames : s.Frames c)
    {change : Changeset} (h : Layout.Repair s c change) : change.Changes s := by
  cases h with
  | openLine first_eq line => exact changes_openLine hs frames first_eq
  | closeLine last_eq line => exact changes_closeLine hs frames _
  | blankBeforeClose last_eq line => exact changes_blankBeforeClose hs frames last_eq line
  | blankBeforeShort short_eq line => exact changes_blankBeforeShort hs frames short_eq line
  | blankBetween short_eq long_eq line =>
      exact changes_blankBetween hs frames short_eq long_eq line
  | blankBeforeTag tag previous_eq line =>
      exact changes_singleBlankLine hs (hs.lastBetween.1 previous_eq).1 _
  | @pad g m group misaligned =>
      refine changes_pad (c := c) (fun t ht => ?_) misaligned
      exact Block.fits_of_mem_tags hs.toPlaced frames (Block.mem_tags_of_groups group ht)
  | indent has opener_lt le_closer kind indent_eq column =>
      refine changes_indent hs ?_ has indent_eq column
      rw [Block.ofSpan_opener]
      exact frames.opener

/-- Every repair changes something. -/
theorem Repair.changes (hs : s.Sound) {change : Changeset} (h : Repair s change) :
    change.Changes s := by
  cases h with
  | layout frames repair => exact repair.changes hs frames
  | paramType frames param type value_eq change =>
      exact FunctionRule.changes_paramType hs.toPlaced frames param type value_eq change
  | firstWord frames tag value_eq change =>
      exact FunctionRule.changes_firstWord hs.toPlaced frames tag value_eq change
  | padType frames param type var space =>
      exact FunctionRule.changes_padType hs frames param type var space
  | padName frames param type var comment space =>
      exact FunctionRule.changes_padName hs frames param type var space
  | blankAfterComment frames has kind documents lt following_eq line =>
      exact FunctionRule.changes_blankAfterComment hs frames has lt following_eq line

namespace Violation

variable {v : Violation}

/-- A fixable violation that is effective has edits. -/
theorem Effective.edits_ne_nil (hs : s.Sound) (h : v.Effective s) (hfixable : v.fixable = true) :
    v.edits ≠ [] := by
  rcases h with h | ⟨c, hc, h⟩
  · simp [fixable, h] at hfixable
  · have hchanges := hc.changes hs
    obtain ⟨t, ht, hne⟩ := hchanges.changed
    rw [edits, h]
    exact hchanges.fits.edits_ne_nil ht hne

/-- The edits of an effective violation are computed from the tokens of the stream. -/
theorem Effective.fits (hs : s.Sound) (h : v.Effective s) {e : Edit} (he : e ∈ v.edits) :
    e.Fits s := by
  rcases h with h | ⟨c, hc, h⟩
  · simp [edits, h] at he
  · rw [edits, h] at he
    obtain ⟨t, ht, -, rfl⟩ := (hc.changes hs).fits.mem_edits.1 he
    exact ⟨t, ht, rfl, rfl⟩

end Violation

end PhpDoc
