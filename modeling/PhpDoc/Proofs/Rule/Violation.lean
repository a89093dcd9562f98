import PhpDoc.Proofs.Edit.Fixer
import PhpDoc.Proofs.Token.Sound
import PhpDoc.Rule.Violation

/-!
# Changes of a stream

A changeset changes a stream when it is over the stream and gives at least one token another text.
The rules are shown to propose such changesets only, so a fix is never without edits.
-/

namespace PhpDoc

variable {s : Stream} {v w : Violation} {condition : Bool}

/-- What is reported under a condition is reported when the condition holds. -/
theorem mem_report : w ∈ report condition v ↔ condition = true ∧ w = v := by
  unfold report
  split
  · next h => simp [h]
  · next h => simp [h]

namespace Changeset

/-- The changeset is over the stream and gives one of its tokens another text. -/
structure Changes (s : Stream) (c : Changeset) : Prop where
  fits : Over s c
  changed : ∃ t, s.Has t ∧ c.current t ≠ t.text

/-- Blanking tokens of the stream, of which there is one, changes something. -/
theorem changes_blank (hs : s.Sound) {ts : List Token} (hts : ∀ t ∈ ts, s.Has t) {t : Token}
    (ht : t ∈ ts) : (empty.blank ts).Changes s := by
  refine ⟨(over_empty s).blank hts, t, hts t ht, ?_⟩
  rw [current_blank_of_mem _ ⟨t, ht, rfl⟩]
  intro h
  have hne := hs.text_ne_nil (hts t ht)
  rw [← h] at hne
  exact hne rfl

/-- A replacement that changes something gives the token another text. -/
theorem Changes.ne_of_replace {text : String} {t : Token} (h : (empty.replace t text).Changes s)
    (ht : s.Has t) : text ≠ t.text := by
  obtain ⟨u, hu, hne⟩ := h.changed
  rw [current_replace, current_empty] at hne
  split at hne
  · next hindex => rwa [hu.eq ht hindex] at hne
  · exact absurd rfl hne

/-- What is put in front of a token and changes something is not empty. -/
theorem Changes.ne_of_prepend {text : String} {t : Token} (h : (empty.prepend t text).Changes s)
    (ht : s.Has t) : text ≠ "" := by
  rintro rfl
  obtain ⟨u, hu, hne⟩ := h.changed
  rw [current_prepend_empty ht hu, String.empty_append, ite_self] at hne
  exact hne rfl

end Changeset

end PhpDoc
