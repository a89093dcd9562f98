import PhpDoc.Proofs.Comment.Geometry

/-!
# The width of an indentation

The column of a token that leads its line is one more than the width of the white space in front of
it. So the indentation of the stars of a block is as wide as their column asks for
(`length_starIndent`).
-/

namespace PhpDoc

open Text

namespace Stream

variable {s : Stream} {t u : Token}

/-- The token behind a whole line of white space stands in the column behind it. -/
theorem Sound.column_of_leading (hs : s.Sound) (ht : s.Has t) (hu : s.Has u)
    (hindex : u.index = t.index + 1) (hkind : t.kind = .whitespace ∨ t.kind = .docBlank)
    (hends : endsLine t.text = false)
    (hstart : t.index = 0 ∨ ∃ w, s.Has w ∧ w.index + 1 = t.index ∧ endsLine w.text = true) :
    u.column = t.text.length + 1 := by
  have hcode : t.kind.isCode = false := by
    rcases hkind with h | h <;> rw [h] <;> rfl
  have hub := (hs.lined ht hcode).unbroken_of_not_endsLine hends
  have hcolumn := (hs.unbroken_next ht hu hindex hub).2
  have hone : t.column = 1 := by
    rcases hstart with hzero | ⟨w, hw, hwindex, hw'⟩
    · have hfirst : s.get? 0 = some t := hzero ▸ ht
      exact congrArg Position.column (hs.first hfirst)
    · exact hs.column_of_endsLine hw ht hwindex.symm hw'
  omega

/-- The token leads its line, and it does not end it: at most a line break stands in front of it. -/
def Leading (s : Stream) (t : Token) : Prop :=
  endsLine t.text = false ∧
    (t.index = 0 ∨ ∃ u, s.Has u ∧ u.index + 1 = t.index ∧ endsLine u.text = true)

/-- The white space in front of a token is that of the token before it, if there is any. -/
theorem Placed.leadingWhitespace?_eq_some (hs : s.Placed) {i : Nat} {leading : String}
    (h : s.leadingWhitespace? i = some leading) :
    (leading = "" ∧
        (s.before? i = none ∨ ∃ t, s.Has t ∧ t.index + 1 = i ∧ endsLine t.text = true)) ∨
      ∃ t, s.Has t ∧ t.index + 1 = i ∧ leading = t.text ∧
        (t.kind = .whitespace ∨ t.kind = .docBlank) ∧ s.Leading t := by
  unfold leadingWhitespace? at h
  split at h
  · next hnone =>
      cases h
      exact .inl ⟨rfl, .inl hnone⟩
  · next t hbefore =>
      obtain ⟨ht, hindex⟩ := hs.before?.1 hbefore
      split at h
      · next hends =>
          cases h
          exact .inl ⟨rfl, .inr ⟨t, ht, hindex, hends⟩⟩
      · next hends =>
          have hends : endsLine t.text = false := by simpa using hends
          split at h
          · next hkind =>
              have hkind : t.kind = .whitespace ∨ t.kind = .docBlank := by simpa using hkind
              split at h
              · next hnone =>
                  cases h
                  exact .inr ⟨t, ht, hindex, rfl, hkind, hends, .inl ((before?_eq_none ht).1 hnone)⟩
              · next u hbeforeU =>
                  obtain ⟨hu, huindex⟩ := hs.before?.1 hbeforeU
                  split at h
                  · next huends =>
                      cases h
                      exact .inr ⟨t, ht, hindex, rfl, hkind, hends, .inr ⟨u, hu, huindex, huends⟩⟩
                  · cases h
          · cases h

/-- The white space in front of a token that leads its line is as wide as its column asks for. -/
theorem Sound.length_leadingWhitespace (hs : s.Sound) (ht : s.Has t) {leading : String}
    (h : s.leadingWhitespace? t.index = some leading) : leading.length + 1 = t.column := by
  rcases hs.leadingWhitespace?_eq_some h with
    ⟨rfl, hnone | ⟨u, hu, hindex, hends⟩⟩ | ⟨u, hu, hindex, rfl, hkind, hends, hstart⟩
  · have hzero := (before?_eq_none ht).1 hnone
    have hfirst : s.get? 0 = some t := hzero ▸ ht
    have hone : t.column = 1 := congrArg Position.column (hs.first hfirst)
    rw [hone]
    rfl
  · rw [hs.column_of_endsLine hu ht hindex.symm hends]
    rfl
  · exact (hs.column_of_leading hu ht hindex.symm hkind hends hstart).symm

/-- In front of a token without indentation a line ends, if there is anything. -/
theorem Placed.lineIndent?_some_none (hs : s.Placed) {i : Nat} (h : s.lineIndent? i = some none) :
    s.before? i = none ∨ ∃ t, s.Has t ∧ t.index + 1 = i ∧ endsLine t.text = true := by
  unfold lineIndent? at h
  split at h
  · next hnone => exact .inl hnone
  · next t hbefore =>
      obtain ⟨ht, hindex⟩ := hs.before?.1 hbefore
      split at h
      · next hends => exact .inr ⟨t, ht, hindex, hends⟩
      · split at h
        · split at h
          · cases h
          · split at h <;> cases h
        · cases h

/-- A token without indentation stands in the first column. -/
theorem Sound.column_of_lineIndent_none (hs : s.Sound) (ht : s.Has t)
    (h : s.lineIndent? t.index = some none) : t.column = 1 := by
  rcases hs.lineIndent?_some_none h with hnone | ⟨u, hu, hindex, hends⟩
  · have hzero := (before?_eq_none ht).1 hnone
    have hfirst : s.get? 0 = some t := hzero ▸ ht
    exact congrArg Position.column (hs.first hfirst)
  · exact hs.column_of_endsLine hu ht hindex.symm hends

/-- The indentation of a token is a blank between the end of a line and the token. -/
theorem Placed.lineIndent?_some_some (hs : s.Placed) {i : Nat} {blank : Token}
    (h : s.lineIndent? i = some (some blank)) :
    s.Has blank ∧ blank.index + 1 = i ∧ blank.kind = .docBlank ∧ endsLine blank.text = false ∧
      ∃ w, s.Has w ∧ w.index + 1 = blank.index ∧ endsLine w.text = true := by
  unfold lineIndent? at h
  split at h
  · cases h
  · next u hbefore =>
      obtain ⟨hu, hindex⟩ := hs.before?.1 hbefore
      split at h
      · cases h
      · next hends =>
          split at h
          · next hkind =>
              split at h
              · cases h
              · next w hbeforeW =>
                  obtain ⟨hw, hwindex⟩ := hs.before?.1 hbeforeW
                  split at h
                  · next hwends =>
                      cases h
                      exact ⟨hu, hindex, by simpa using hkind, by simpa using hends, w, hw,
                        hwindex, hwends⟩
                  · cases h
          · cases h

/-- An indented token stands in the column behind its indentation. -/
theorem Sound.column_of_lineIndent_some (hs : s.Sound) (ht : s.Has t) {blank : Token}
    (h : s.lineIndent? t.index = some (some blank)) : t.column = blank.text.length + 1 := by
  obtain ⟨hblank, hindex, hkind, hends, hline⟩ := hs.lineIndent?_some_some h
  exact hs.column_of_leading hblank ht hindex.symm (.inr hkind) hends (.inr hline)

end Stream

/-- A text of `n` spaces is `n` characters long. -/
@[simp] theorem Text.length_spaces (n : Nat) : (spaces n).length = n := by
  rw [← String.length_toList, spaces, String.toList_ofList, List.length_replicate]

/-- Some spaces are not the empty text. -/
theorem Text.spaces_ne_empty {n : Nat} (h : n ≠ 0) : spaces n ≠ "" := by
  intro hempty
  have hlen := congrArg String.length hempty
  rw [length_spaces, String.length_empty] at hlen
  exact h hlen

/-- The indentation of the stars of a block is as wide as their column asks for. -/
theorem Block.length_starIndent {s : Stream} {b : Block} (hs : s.Sound)
    (hopener : s.Has b.opener) : (b.starIndent s).length + 1 = b.starColumn s := by
  unfold starIndent starColumn
  cases hstar : b.star? s with
  | some star =>
      have hhas : s.Has star := (hs.firstBetween.1 hstar).1
      simp only
      cases hleading : s.leadingWhitespace? star.index with
      | some leading => exact hs.length_leadingWhitespace hhas hleading
      | none =>
          have := hs.one_le_column hhas
          simp only [Option.getD_none, length_spaces]
          omega
  | none =>
      simp only
      cases hleading : s.leadingWhitespace? b.opener.index with
      | some leading =>
          have := hs.length_leadingWhitespace hopener hleading
          simp only [String.length_append]
          have hone : " ".length = 1 := rfl
          omega
      | none => simp

/-- Spaces are blanks. -/
theorem Text.isBlank_spaces (n : Nat) : ∀ c ∈ (spaces n).toList, isBlank c = true := by
  intro c hc
  rw [spaces, String.toList_ofList] at hc
  rw [List.eq_of_mem_replicate hc]
  rfl

/-- White space that leads the line of an open marker is made of spaces and tabs. -/
def Stream.BlankLed (s : Stream) : Prop :=
  ∀ w t, s.Has w → s.Has t → w.index + 1 = t.index → w.kind = .whitespace → t.kind = .docOpen →
    s.Leading w → ∀ c ∈ w.text.toList, isBlank c = true

/-- The indentation of the stars of a comment is made of spaces and tabs, when the white space that
leads the line of its open marker is. -/
theorem Block.isBlank_starIndent {s : Stream} {b : Block} (hs : s.Sound) (h : s.BlankLed)
    (hopener : s.Has b.opener) (hkind : b.opener.kind = .docOpen)
    (hstar : ∀ t star, s.Has t → b.star? s = some star → t.index + 1 = star.index →
      t.kind ≠ .whitespace) :
    ∀ c ∈ (b.starIndent s).toList, isBlank c = true := by
  have hleading : ∀ t leading, s.Has t → s.leadingWhitespace? t.index = some leading →
      (∀ w, s.Has w → w.index + 1 = t.index → w.kind = .whitespace → s.Leading w →
        ∀ c ∈ w.text.toList, isBlank c = true) → ∀ c ∈ leading.toList, isBlank c = true := by
    intro t leading ht hsome hwhite
    rcases hs.leadingWhitespace?_eq_some hsome with ⟨rfl, -⟩ | ⟨w, hw, hindex, rfl, hkind, hled⟩
    · intro c hc
      cases hc
    · rcases hkind with hkind | hkind
      · exact hwhite w hw hindex hkind hled
      · -- inside a comment only a line break could be anything else, and that ends its line
        rcases hs.blank hw hkind with hending | hblank
        · have hends := hled.1
          rw [Stream.Frames.endsLine_of_isEnding hending] at hends
          cases hends
        · exact hblank
  unfold starIndent
  split
  · next star hfound =>
      have hhas := (hs.firstBetween.1 hfound).1
      cases hsome : s.leadingWhitespace? star.index with
      | some leading =>
          refine hleading star leading hhas hsome fun w hw hindex hwhite _ => ?_
          exact absurd hwhite (hstar w star hw hfound hindex)
      | none => exact isBlank_spaces _
  · split
    · next leading hsome =>
        intro c hc
        rw [String.toList_append, List.mem_append] at hc
        rcases hc with hc | hc
        · exact hleading b.opener leading hopener hsome
            (fun w hw hindex hwhite hled => h w b.opener hw hopener hindex hwhite hkind hled) c hc
        · exact isBlank_spaces 1 c hc
    · exact isBlank_spaces _

end PhpDoc
