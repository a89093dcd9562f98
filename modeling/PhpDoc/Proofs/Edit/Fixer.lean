import PhpDoc.Edit.Fixer
import PhpDoc.Proofs.Edit.Changeset

/-!
# What a fixer holds

A fixer that accepted some changes over a stream holds, for every token, the text that one of them
gives it, or the text of the stream when none of them changes it, and no token is changed by two of
them (`Fixer.Wrote`). A change is accepted only when no token that it changes was changed before and
all of them hold the texts that it was computed against (`verdict_eq_accepted`), and what is
accepted is written as a whole (`getElem?_foldl_of_mem`, `getElem?_foldl_of_not_mem`).
-/

namespace PhpDoc

variable {s : Stream}

/-- The edit is computed from a token of the stream. -/
def Edit.Fits (s : Stream) (e : Edit) : Prop :=
  ∃ t, s.Has t ∧ e.index = t.index ∧ e.oldText = t.text

namespace Fixer

/-- Nothing stands in the way of edits exactly when each is at a token that was not changed before
and that holds the text the edit was computed against. -/
theorem obstacle?_eq_none {f : Fixer} {edits : List Edit} :
    f.obstacle? edits = none ↔
      ∀ e ∈ edits, e.index ∉ f.touched ∧ f.texts[e.index]? = some e.oldText := by
  induction edits with
  | nil => simp [obstacle?]
  | cons e es ih =>
      rw [obstacle?, List.forall_mem_cons, ← ih]
      split
      · next htouched =>
          have htouched : e.index ∈ f.touched := by simpa using htouched
          simp [htouched]
      · next htouched =>
          have htouched : e.index ∉ f.touched := by simpa using htouched
          split
          · next hnone => simp [hnone]
          · next text hsome =>
              by_cases hold : text = e.oldText
              · simp [hsome, htouched, hold]
              · simp [hsome, htouched, hold]

/-- What stands in the way of edits is no acceptance. -/
theorem obstacle?_ne_accepted {f : Fixer} {edits : List Edit} {v : Verdict}
    (h : f.obstacle? edits = some v) : v ≠ .accepted := by
  induction edits with
  | nil => cases h
  | cons d es ih =>
      rw [obstacle?] at h
      split at h
      · cases h
        simp
      · split at h
        · cases h
          simp
        · split at h
          · exact ih h
          · cases h
            simp

/-- Edits are accepted exactly when there are some and nothing stands in their way. -/
theorem verdict_eq_accepted {f : Fixer} {edits : List Edit} :
    f.verdict edits = .accepted ↔ edits ≠ [] ∧
      ∀ e ∈ edits, e.index ∉ f.touched ∧ f.texts[e.index]? = some e.oldText := by
  rw [← obstacle?_eq_none, verdict]
  split
  · next hempty => simp [List.isEmpty_iff.1 hempty]
  · next hne =>
      have hne : edits ≠ [] := by simpa using hne
      cases hobstacle : f.obstacle? edits with
      | none => simp [hne]
      | some v => simpa [hne] using obstacle?_ne_accepted hobstacle

/-- A fresh fixer accepts edits that were computed from its tokens. -/
theorem verdict_ofStream {edits : List Edit} (hne : edits ≠ []) (h : ∀ e ∈ edits, e.Fits s) :
    (ofStream s).verdict edits = .accepted := by
  refine verdict_eq_accepted.2 ⟨hne, fun e he => ?_⟩
  obtain ⟨t, ht, hindex, hold⟩ := h e he
  have ht : s.tokens[t.index]? = some t := ht
  refine ⟨by simp [ofStream], ?_⟩
  simp only [ofStream, Array.getElem?_map, hindex, ht, Option.map_some, hold]

/-- The text that the fixer holds for a token. -/
def written (f : Fixer) (t : Token) : String :=
  (f.texts[t.index]?).getD ""

/-- The fixer accepted the changes `cs` over the stream, and nothing else. -/
structure Wrote (s : Stream) (cs : List Changeset) (f : Fixer) : Prop where
  size : f.texts.size = s.size
  accepted : f.accepted = cs.length
  touched : ∀ {t}, s.Has t → (t.index ∈ f.touched ↔ ∃ c ∈ cs, c.current t ≠ t.text)
  changed : ∀ {t c}, s.Has t → c ∈ cs → c.current t ≠ t.text → f.written t = c.current t
  kept : ∀ {t}, s.Has t → (∀ c ∈ cs, c.current t = t.text) → f.written t = t.text
  alone : ∀ {t c d}, s.Has t → c ∈ cs → d ∈ cs → c.current t ≠ t.text → d.current t ≠ t.text → c = d

/-- What a fixer holds for a token is its text, or what a change that rewrites it writes. -/
theorem Wrote.written_cases {cs : List Changeset} {f : Fixer} (h : f.Wrote s cs) {t : Token}
    (ht : s.Has t) : f.written t = t.text ∨
      ∃ c ∈ cs, c.current t ≠ t.text ∧ f.written t = c.current t := by
  by_cases hchanged : ∃ c ∈ cs, c.current t ≠ t.text
  · obtain ⟨c, hc, hne⟩ := hchanged
    exact .inr ⟨c, hc, hne, h.changed ht hc hne⟩
  · push Not at hchanged
    exact .inl (h.kept ht hchanged)

/-- An edit at another index keeps the text. -/
theorem getElem?_foldl_of_not_mem {edits : List Edit} (texts : Array String) {i : Nat}
    (h : ∀ e ∈ edits, e.index ≠ i) :
    (edits.foldl (fun texts e => texts.setIfInBounds e.index e.newText) texts)[i]? = texts[i]? := by
  induction edits generalizing texts with
  | nil => rfl
  | cons e es ih =>
      obtain ⟨he, hes⟩ := List.forall_mem_cons.1 h
      rw [List.foldl_cons, ih _ hes, Array.getElem?_setIfInBounds_ne he]

/-- The edit at an index, of which there is only one, writes its text. -/
theorem getElem?_foldl_of_mem {edits : List Edit} (texts : Array String)
    (hnodup : (edits.map (·.index)).Nodup) {e : Edit} (he : e ∈ edits)
    (hsize : e.index < texts.size) :
    (edits.foldl (fun texts e => texts.setIfInBounds e.index e.newText) texts)[e.index]? =
      some e.newText := by
  induction edits generalizing texts with
  | nil => cases he
  | cons d es ih =>
      rw [List.map_cons, List.nodup_cons] at hnodup
      rw [List.foldl_cons]
      rcases List.mem_cons.1 he with rfl | he
      · have hother : ∀ d ∈ es, d.index ≠ e.index := by
          intro d hd heq
          exact hnodup.1 (List.mem_map.2 ⟨d, hd, heq⟩)
        rw [getElem?_foldl_of_not_mem _ hother, Array.getElem?_setIfInBounds_self_of_lt hsize]
      · exact ih _ hnodup.2 he (by simpa using hsize)

/-- Writing edits into texts does not change how many texts there are. -/
theorem size_foldl (edits : List Edit) (texts : Array String) :
    (edits.foldl (fun texts e => texts.setIfInBounds e.index e.newText) texts).size =
      texts.size := by
  induction edits generalizing texts with
  | nil => rfl
  | cons e es ih => rw [List.foldl_cons, ih, Array.size_setIfInBounds]

end Fixer

end PhpDoc
