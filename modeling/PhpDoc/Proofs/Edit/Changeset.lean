import PhpDoc.Edit.Changeset
import PhpDoc.Proofs.Token.Place
import Mathlib.Data.List.Nodup

/-!
# What a changeset writes

A changeset is known by the text that every token finally has: `current_replace`, `current_append`,
`current_prepend` and `current_blank` say how each operation changes it. A changeset over a stream
touches only tokens of the stream and computes against their texts (`Changeset.Over`), so its edits
are the tokens that it gives another text (`mem_edits`). What its operations name bounds where it
writes (`Changeset.Within`).
-/

namespace PhpDoc

namespace Changeset

variable {c : Changeset} {t u : Token} {text : String}

/-- Writing a token changes what is found for the token, and for no other one. -/
theorem find?_write (i : Nat) (t : Token) (text : String) (es : List Edit) :
    ((write t text es).find? (·.index == i)).map (·.newText) =
      if i = t.index then some text else (es.find? (·.index == i)).map (·.newText) := by
  induction es with
  | nil =>
      by_cases h : i = t.index
      · simp [write, h]
      · have h' : ¬ t.index = i := fun heq => h heq.symm
        simp [write, h, h']
  | cons e es ih =>
      rw [write]
      by_cases he : e.index = t.index
      · have he' : (e.index == t.index) = true := by simpa using he
        rw [if_pos he']
        by_cases h : i = t.index
        · simp [h, he]
        · have h' : ¬ e.index = i := fun heq => h (heq ▸ he)
          simp [h, h']
      · have he' : ¬ (e.index == t.index) = true := by simpa using he
        rw [if_neg he', List.find?_cons, List.find?_cons]
        by_cases hi : e.index = i
        · have h : ¬ i = t.index := fun heq => he (hi.trans heq)
          simp [hi, h]
        · have hi' : (e.index == i) = false := by simpa using hi
          rw [hi']
          exact ih

/-- Without edits every token has its own text. -/
@[simp] theorem current_empty (t : Token) : empty.current t = t.text := rfl

/-- A replaced token has the new text, and other tokens keep theirs. -/
theorem current_replace (c : Changeset) (t : Token) (text : String) (u : Token) :
    (c.replace t text).current u = if u.index = t.index then text else c.current u := by
  unfold current replace
  rw [find?_write]
  split <;> rfl

/-- What is appended to a token stands behind the text it had before. -/
theorem current_append (c : Changeset) (t : Token) (text : String) (u : Token) :
    (c.append t text).current u =
      if u.index = t.index then c.current t ++ text else c.current u :=
  current_replace c t _ u

/-- What is prepended to a token stands in front of the text it had before. -/
theorem current_prepend (c : Changeset) (t : Token) (text : String) (u : Token) :
    (c.prepend t text).current u =
      if u.index = t.index then text ++ c.current t else c.current u :=
  current_replace c t _ u

/-- Tokens that are not blanked keep their texts. -/
theorem current_blank_of_not_mem {ts : List Token} (c : Changeset)
    (h : ∀ t ∈ ts, t.index ≠ u.index) : (c.blank ts).current u = c.current u := by
  unfold blank
  induction ts generalizing c with
  | nil => rfl
  | cons t ts ih =>
      rw [List.foldl_cons, ih _ fun v hv => h v (List.mem_cons_of_mem _ hv), current_replace,
        if_neg fun heq => h t List.mem_cons_self heq.symm]

/-- Blanked tokens are empty. -/
theorem current_blank_of_mem {ts : List Token} (c : Changeset)
    (h : ∃ t ∈ ts, t.index = u.index) : (c.blank ts).current u = "" := by
  induction ts generalizing c with
  | nil => simp at h
  | cons t ts ih =>
      change ((c.replace t "").blank ts).current u = ""
      by_cases hlater : ∃ t ∈ ts, t.index = u.index
      · exact ih _ hlater
      · have ht : u.index = t.index := by
          obtain ⟨v, hv, heq⟩ := h
          rcases List.mem_cons.1 hv with rfl | hv
          · exact heq.symm
          · exact absurd ⟨v, hv, heq⟩ hlater
        rw [current_blank_of_not_mem _ fun v hv heq => hlater ⟨v, hv, heq⟩, current_replace,
          if_pos ht]

/-! ## Changesets over a stream -/

/-- Blanked tokens are empty, and other tokens keep their texts. -/
theorem current_blank {s : Stream} (c : Changeset) {ts : List Token} (hts : ∀ u ∈ ts, s.Has u)
    (ht : s.Has t) : (c.blank ts).current t = if t ∈ ts then "" else c.current t := by
  by_cases h : t ∈ ts
  · rw [if_pos h, current_blank_of_mem c ⟨t, h, rfl⟩]
  · rw [if_neg h, current_blank_of_not_mem c fun u hu heq => h ((hts u hu).eq ht heq ▸ hu)]

/-- One token gets a text in front of its own. -/
theorem current_prepend_empty {s : Stream} (ht : s.Has t) (hu : s.Has u) (text : String) :
    (empty.prepend t text).current u = if u.index = t.index then text ++ u.text else u.text := by
  rw [current_prepend, current_empty, current_empty]
  split
  · next heq => rw [hu.eq ht heq]
  · rfl

/-- The changeset touches tokens of the stream, each once, and computes against their texts. -/
structure Over (s : Stream) (c : Changeset) : Prop where
  old : ∀ e ∈ c.pending, ∃ t, s.Has t ∧ e.index = t.index ∧ e.oldText = t.text
  nodup : (c.pending.map (·.index)).Nodup

variable {s : Stream}

/-- The empty changeset is over every stream. -/
theorem over_empty (s : Stream) : Over s empty :=
  ⟨by simp [empty], by simp [empty]⟩

/-- Writing a token adds its index unless the token was written before. -/
theorem map_index_write (t : Token) (text : String) (es : List Edit) :
    (write t text es).map (·.index) =
      if t.index ∈ es.map (·.index) then es.map (·.index) else es.map (·.index) ++ [t.index] := by
  induction es with
  | nil => rfl
  | cons e es ih =>
      rw [write]
      by_cases he : e.index = t.index
      · simp [he]
      · have hne : ¬ t.index = e.index := fun heq => he heq.symm
        simp only [beq_iff_eq, he, ↓reduceIte, List.map_cons, ih, List.mem_cons, hne, false_or]
        split <;> rfl

/-- Replacing a token of the stream leaves a changeset over the stream. -/
theorem Over.replace (h : Over s c) (ht : s.Has t) (text : String) :
    Over s (c.replace t text) := by
  constructor
  · have hold := h.old
    change ∀ e ∈ write t text c.pending, _
    generalize c.pending = es at hold ⊢
    induction es with
    | nil =>
        intro e he
        rw [List.mem_singleton.1 he]
        exact ⟨t, ht, rfl, rfl⟩
    | cons d es ih =>
        obtain ⟨hd, hes⟩ := List.forall_mem_cons.1 hold
        intro e he
        rw [write] at he
        split at he
        · rcases List.mem_cons.1 he with rfl | he
          · exact hd
          · exact hes e he
        · rcases List.mem_cons.1 he with rfl | he
          · exact hd
          · exact ih hes e he
  · change ((write t text c.pending).map (·.index)).Nodup
    rw [map_index_write]
    split
    · exact h.nodup
    · next hnot =>
        rw [List.nodup_append]
        refine ⟨h.nodup, by simp, ?_⟩
        rintro i hi j hj rfl
        rw [List.mem_singleton.1 hj] at hi
        exact hnot hi

/-- Appending to a token of the stream leaves a changeset over the stream. -/
theorem Over.append (h : Over s c) (ht : s.Has t) (text : String) : Over s (c.append t text) :=
  h.replace ht _

/-- Prepending to a token of the stream leaves a changeset over the stream. -/
theorem Over.prepend (h : Over s c) (ht : s.Has t) (text : String) : Over s (c.prepend t text) :=
  h.replace ht _

/-- Blanking tokens of the stream leaves a changeset over the stream. -/
theorem Over.blank (h : Over s c) {ts : List Token} (hts : ∀ t ∈ ts, s.Has t) :
    Over s (c.blank ts) := by
  induction ts generalizing c with
  | nil => exact h
  | cons t ts ih =>
      obtain ⟨ht, hts⟩ := List.forall_mem_cons.1 hts
      exact ih (h.replace ht "") hts

/-- What is pending for a token is the text that it finally has. -/
theorem Over.current_of_mem (h : Over s c) {e : Edit} (he : e ∈ c.pending) (ht : s.Has t)
    (hindex : e.index = t.index) : e.oldText = t.text ∧ e.newText = c.current t := by
  obtain ⟨u, hu, huindex, hold⟩ := h.old e he
  obtain rfl := hu.eq ht (by omega)
  refine ⟨hold, ?_⟩
  have hfind : c.pending.find? (·.index == u.index) = some e := by
    cases hfound : c.pending.find? (·.index == u.index) with
    | none =>
        have := List.find?_eq_none.1 hfound e he
        simp [huindex] at this
    | some d =>
        have hd := List.mem_of_find?_eq_some hfound
        have hdindex : d.index = u.index := by simpa using List.find?_some hfound
        rw [List.inj_on_of_nodup_map h.nodup hd he (by omega)]
  simp [current, hfind]

/-- The edits of a changeset are at different tokens. -/
theorem Over.nodup_edits (h : Over s c) : (c.edits.map (·.index)).Nodup :=
  h.nodup.sublist (List.filter_sublist.map _)

/-- An edit changes the text that it was computed against. -/
theorem ne_of_mem_edits {e : Edit} (h : e ∈ c.edits) : e.newText ≠ e.oldText := by
  simpa using (List.mem_filter.1 h).2

/-- The edits of a changeset are the tokens that it gives another text. -/
theorem Over.mem_edits (h : Over s c) {e : Edit} :
    e ∈ c.edits ↔ ∃ t, s.Has t ∧ c.current t ≠ t.text ∧ e = ⟨t.index, t.text, c.current t⟩ := by
  rw [edits, List.mem_filter]
  constructor
  · rintro ⟨he, hne⟩
    obtain ⟨t, ht, hindex, -⟩ := h.old e he
    obtain ⟨hold, hnew⟩ := h.current_of_mem he ht hindex
    have hne : e.newText ≠ e.oldText := by simpa using hne
    rw [hnew, hold] at hne
    refine ⟨t, ht, hne, ?_⟩
    rw [← hindex, ← hold, ← hnew]
  · rintro ⟨t, ht, hne, rfl⟩
    refine ⟨?_, by simpa using hne⟩
    cases hfound : c.pending.find? (·.index == t.index) with
    | none => simp [current, hfound] at hne
    | some d =>
        have hd := List.mem_of_find?_eq_some hfound
        have hdindex : d.index = t.index := by simpa using List.find?_some hfound
        obtain ⟨hold, hnew⟩ := h.current_of_mem hd ht hdindex
        rw [← hdindex, ← hold, ← hnew]
        exact hd

/-- A changeset that gives a token of the stream another text has edits. -/
theorem Over.edits_ne_nil (h : Over s c) (ht : s.Has t) (hne : c.current t ≠ t.text) :
    c.edits ≠ [] :=
  List.ne_nil_of_mem (h.mem_edits.2 ⟨t, ht, hne, rfl⟩)

/-! ## Where a changeset writes -/

variable {p : Token → Prop}

/-- The changeset gives other texts to tokens with the property only. -/
def Within (s : Stream) (p : Token → Prop) (c : Changeset) : Prop :=
  ∀ t, s.Has t → c.current t ≠ t.text → p t

/-- The empty changeset changes no token, so it stays within any class of tokens. -/
theorem within_empty (s : Stream) (p : Token → Prop) : empty.Within s p :=
  fun t _ hne => absurd (current_empty t) hne

/-- Replacing a token of the class stays within the class. -/
theorem Within.replace (h : c.Within s p) (ht : s.Has t) (hp : p t) (text : String) :
    (c.replace t text).Within s p := by
  intro u hu hne
  rw [current_replace] at hne
  split at hne
  · next hindex => rwa [hu.eq ht hindex]
  · exact h u hu hne

/-- Appending to a token of the class stays within the class. -/
theorem Within.append (h : c.Within s p) (ht : s.Has t) (hp : p t) (text : String) :
    (c.append t text).Within s p :=
  h.replace ht hp _

/-- Prepending to a token of the class stays within the class. -/
theorem Within.prepend (h : c.Within s p) (ht : s.Has t) (hp : p t) (text : String) :
    (c.prepend t text).Within s p :=
  h.replace ht hp _

/-- Blanking tokens of the class stays within the class. -/
theorem Within.blank (h : c.Within s p) {ts : List Token} (hts : ∀ t ∈ ts, s.Has t ∧ p t) :
    (c.blank ts).Within s p := by
  induction ts generalizing c with
  | nil => exact h
  | cons t ts ih =>
      obtain ⟨⟨ht, hp⟩, hts⟩ := List.forall_mem_cons.1 hts
      exact ih (h.replace ht hp "") hts

end Changeset

end PhpDoc
