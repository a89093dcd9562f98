import PhpDoc.Proofs.Comment.Carry
import PhpDoc.Proofs.Rule.Shape

/-!
# Rewriting a comment

Several fixes of the layout rewrite a comment at once, each token by one of them at most
(`Rewords`). Their ranges lie side by side, so the comment is taken apart at the indices that part
the ranges. From each of them the rewritten text goes on to the next one or ends the comment
(`Rewords.step_kept`, `Rewords.step_rewritten`), and so the rest of it ends the comment
(`Rewords.concludes`). The rewritten comment is a doc comment again, and it holds the content that
it held before (`Rewords.exists_body`).
-/

namespace PhpDoc

open Text Lexer

namespace Stream

variable {s : Stream} {w : Token → String} {i j : Nat}

/-- The characters that are written for the tokens with indices from `i` up to, but not including,
`j`. -/
def writes (s : Stream) (w : Token → String) (i j : Nat) : List Char :=
  (s.between i j).flatMap fun t => (w t).toList

/-- What is written for neighbouring ranges is what is written for the range that covers both. -/
theorem writes_append {k : Nat} (hij : i ≤ j) (hjk : j ≤ k) :
    s.writes w i k = s.writes w i j ++ s.writes w j k := by
  rw [writes, between_append hij hjk, List.flatMap_append]
  rfl

/-- What is written for a range starts with the text for its first token. -/
theorem writes_cons {t : Token} (ht : s.Has t) (hj : t.index < j) :
    s.writes w t.index j = (w t).toList ++ s.writes w (t.index + 1) j := by
  rw [writes, between_cons ht hj, List.flatMap_cons]
  rfl

/-- For dropped tokens nothing is written. -/
theorem writes_eq_nil (hs : s.Placed)
    (h : ∀ t, s.Has t → i ≤ t.index → t.index < j → w t = "") : s.writes w i j = [] := by
  rw [writes, List.flatMap_eq_nil_iff]
  intro t ht
  obtain ⟨hhas, hfrom, hto⟩ := hs.mem_between.1 ht
  rw [h t hhas hfrom hto]
  rfl

/-- What is written for a single token is the text for the token. -/
theorem writes_single {t : Token} (ht : s.Has t) :
    s.writes w t.index (t.index + 1) = (w t).toList := by
  rw [writes, between_cons ht (Nat.lt_succ_self _), between_eq_nil (Nat.le_refl _)]
  simp

/-- The line ending of a stream ends a line. -/
theorem isEnding_eol (s : Stream) : IsEnding s.eol.toList := by
  rcases s.eol_eq with h | h <;> rw [h]
  · exact .inr (.inl rfl)
  · exact .inl rfl

end Stream

/-- The changes `cs` are fixes of the layout that rewrite the tokens of the comment into the texts
`w`, each token by one of them at most. -/
structure Rewords (s : Stream) (c : CommentSpan) (cs : List Changeset) (w : Token → String) :
    Prop where
  shape : ∀ change ∈ cs, ∀ t, s.Has t → c.opener.index ≤ t.index → t.index ≤ c.closer.index →
    change.current t ≠ t.text → ∃ i j, Layout.Shape s c change i j
  alone : ∀ change ∈ cs, ∀ other ∈ cs, ∀ t, s.Has t → change.current t ≠ t.text →
    other.current t ≠ t.text → change = other
  changed : ∀ change ∈ cs, ∀ t, s.Has t → change.current t ≠ t.text → w t = change.current t
  kept : ∀ t, s.Has t → (∀ change ∈ cs, change.current t = t.text) → w t = t.text

namespace Rewords

variable {s : Stream} {c : CommentSpan} {cs : List Changeset} {w : Token → String}
  {change : Changeset} {i j : Nat}

/-- No change rewrites both the token at the index and the one in front of it. -/
def Parted (s : Stream) (cs : List Changeset) (i : Nat) : Prop :=
  ∀ change ∈ cs, ∀ t u, s.Has t → s.Has u → t.index + 1 = i → u.index = i →
    change.current t ≠ t.text → change.current u = u.text

/-- The range of a change ends where the changes are parted. -/
theorem parted_of_reaches (h : Rewords s c cs w) (hchange : change ∈ cs)
    (hreaches : change.Reaches s i j) (hij : i < j) : Parted s cs j := by
  intro other hother t u ht hu htindex huindex hne
  have hrange := (hreaches t ht).2 (by omega)
  obtain rfl := h.alone change hchange other hother t ht hrange hne
  by_contra hneU
  have := (hreaches u hu).1 hneU
  omega

/-- Behind a token that is kept the changes are parted. -/
theorem parted_of_kept {t : Token} (ht : s.Has t) (h : ∀ change ∈ cs, change.current t = t.text) :
    Parted s cs (t.index + 1) := by
  intro change hchange u v hu _ hindex _ hne
  rw [hu.eq ht (by omega)] at hne
  exact absurd (h change hchange) hne

/-- Where the changes are parted a range starts. -/
theorem eq_of_parted (hs : s.Placed) (hchange : change ∈ cs) (hreaches : change.Reaches s i j)
    {t : Token} (ht : s.Has t) (hpos : 0 < t.index) (hparted : Parted s cs t.index)
    (hne : change.current t ≠ t.text) : i = t.index := by
  obtain ⟨hfrom, hto⟩ := (hreaches t ht).1 hne
  by_contra hnot
  obtain ⟨u, hu, hindex⟩ := hs.has_of_le (i := t.index - 1) ht (by omega)
  exact hne (hparted change hchange u t hu ht (by omega) rfl ((hreaches u hu).2 (by omega)))

/-- The text of a token that a change rewrites. -/
theorem text_eq (h : Rewords s c cs w) (hchange : change ∈ cs) (hreaches : change.Reaches s i j)
    {t : Token} (ht : s.Has t) (hfrom : i ≤ t.index) (hto : t.index < j) :
    w t = change.current t :=
  h.changed change hchange t ht ((hreaches t ht).2 ⟨hfrom, hto⟩)

/-- For the tokens that a change drops nothing is written. -/
theorem writes_drops (hs : s.Sound) (h : Rewords s c cs w) (hchange : change ∈ cs)
    (hdrops : change.Drops s i j) : s.writes w i j = [] := by
  refine Stream.writes_eq_nil hs.toPlaced fun t ht hfrom hto => ?_
  rw [h.text_eq hchange (hdrops.reaches hs) ht hfrom hto, hdrops t ht, if_pos ⟨hfrom, hto⟩]

/-- When what follows the last content is dropped up to the last line, the line break in front of
that line is kept. -/
theorem exists_kept_of_cut (hs : s.Sound) (h : Rewords s c cs w) {last bottom : Token}
    (hlast : s.lastBetween (!·.isFiller) c.opener.index c.closer.index = some last)
    (hbottom : s.FirstOn bottom c.closer.line) (hlt : last.index + 1 < bottom.index)
    (hle : bottom.index ≤ c.closer.index) (hspot : c.SpotAt s bottom.index .lineStart) :
    ∃ u, s.Has u ∧ u.index + 1 = bottom.index ∧ IsEnding u.text.toList ∧
      ∀ change ∈ cs, change.current u = u.text := by
  obtain ⟨-, hopener, -, -, hfiller⟩ := hs.lastBetween.1 hlast
  obtain ⟨u, hu, hindex⟩ := hs.has_of_le (i := bottom.index - 1) hbottom.has (by omega)
  have hbehind : c.SpotAt s (u.index + 1) .lineStart := by
    rwa [hindex, Nat.sub_add_cancel (by omega)]
  obtain ⟨q, -, hmove⟩ := Stream.Frames.exists_previous (c := c) hu (by omega) rfl hbehind
  obtain ⟨hkind, hending⟩ := hmove.of_lineStart
  have hcontent : ∀ v, c.Contains s v → v.index ≤ last.index := by
    intro v hv
    by_contra hnot
    have hfill := hfiller v hv.has (by omega) hv.lt_closer
    have hkindV := hv.content
    cases hk : v.kind <;> rw [hk] at hfill hkindV <;> cases hkindV <;> cases hfill
  refine ⟨u, hu, by omega, hending, fun change hchange => ?_⟩
  by_contra hne
  obtain ⟨i, j, hshape⟩ := h.shape change hchange u hu (by omega) (by omega) hne
  obtain ⟨hfrom, hto⟩ := (hshape.reaches hs u hu).1 hne
  -- behind the last content no fix reaches the line break: most of them end at content
  cases hshape with
  | openLine content =>
      have := hcontent _ content
      omega
  | closeLine has opener_le lt_closer line =>
      have := hbottom.lt_iff has
      omega
  | cut opener_le last_eq first last_lt le_closer =>
      have := first.lt_iff hbottom.has
      have := hbottom.line_eq
      omega
  | lines opener_lt le content le_following =>
      have := hcontent _ content
      omega
  | blankLine content content' lt le_following =>
      have := hcontent _ content'
      omega
  | respace has opener_lt lt_closer kind blank =>
      rw [← hu.eq has (by omega)] at blank
      exact hending.not_unbroken (unbroken_of_blank blank)
  | prepend has opener_lt lt_closer kind =>
      rw [← hu.eq has (by omega)] at kind
      exact kind hkind
  | indentClose => omega

/-- What is written from the index on ends the comment. -/
def Concludes (s : Stream) (c : CommentSpan) (w : Token → String) (i : Nat) (p : Spot) : Prop :=
  ∃ body, s.writes w i (c.closer.index + 1) = body ++ ['*', '/'] ∧ s.Ends c i p body

/-- What is written from the index on carries the tokens up to a later index where the changes are
parted again. -/
def Advances (s : Stream) (c : CommentSpan) (cs : List Changeset) (w : Token → String) (i : Nat)
    (p : Spot) : Prop :=
  ∃ j q ds, i < j ∧ j ≤ c.closer.index ∧ Parted s cs j ∧ c.SpotAt s j q ∧
    s.Carries i j p q ds ∧ s.writes w i j = ds

/-- A text that carries the tokens up to an index is written in front of what ends the comment
there. -/
theorem concludes_of_carries (hc : s.Frames c) {p q : Spot} {ds : List Char}
    (hi : c.opener.index < i) (hij : i ≤ j) (hj : j ≤ c.closer.index)
    (hcarries : s.Carries i j p q ds) (hwrites : s.writes w i j = ds)
    (hrest : Concludes s c w j q) : Concludes s c w i p := by
  obtain ⟨body, hbody, hends⟩ := hrest
  refine ⟨ds ++ body, ?_, hcarries.ends hc hi hij hj hends⟩
  rw [Stream.writes_append hij (Nat.le_succ_of_le hj), hwrites, hbody, List.append_assoc]

/-- A close marker that gets a line of its own ends the comment. -/
theorem concludes_closeLine (hs : s.Placed) (hc : s.Frames c) (h : Rewords s c cs w)
    (hchange : change ∈ cs) {last : Token} {indent : String} {p : Spot}
    (hreaches : change.Reaches s (last.index + 1) (c.closer.index + 1))
    (hlt : last.index < c.closer.index) (hvacant : s.Vacant (last.index + 1) c.closer.index)
    (hblanks : IsBlanks indent.toList)
    (hwrites : ∀ t, s.Has t → change.current t =
      if t.index = c.closer.index then s.eol ++ indent ++ t.text
      else if last.index < t.index ∧ t.index < c.closer.index then "" else t.text) :
    Concludes s c w (last.index + 1) p := by
  refine ⟨s.eol.toList ++ indent.toList, ?_, hvacant.ends_closeLine hs s.isEnding_eol hblanks p⟩
  have hdrop : s.writes w (last.index + 1) c.closer.index = [] := by
    refine Stream.writes_eq_nil hs fun u hu hfrom hto => ?_
    rw [h.text_eq hchange hreaches hu (by omega) (by omega), hwrites u hu, if_neg (by omega),
      if_pos (by omega)]
  rw [Stream.writes_append hlt (Nat.le_succ _), hdrop, Stream.writes_single hc.closer,
    h.text_eq hchange hreaches hc.closer (by omega) (by omega), hwrites _ hc.closer, if_pos rfl,
    hc.closerText]
  simp

/-- A token that no change rewrites is carried as it stands, or it is the close marker. -/
theorem step_kept (hs : s.Sound) (hc : s.Frames c) (h : Rewords s c cs w) {t : Token}
    (ht : s.Has t) {p : Spot} (hi : c.opener.index < t.index) (hle : t.index ≤ c.closer.index)
    (hp : c.SpotAt s t.index p) (hkept : ∀ change ∈ cs, change.current t = t.text) :
    Concludes s c w t.index p ∨ Advances s c cs w t.index p := by
  have hw := h.kept t ht hkept
  rcases Nat.eq_or_lt_of_le hle with heq | hlt
  · obtain rfl := ht.eq hc.closer heq
    refine .inl ⟨[], ?_, Stream.Frames.ends_closer s c p⟩
    rw [Stream.writes_single hc.closer, hw, hc.closerText]
    rfl
  · obtain ⟨q, hq, hcarries⟩ := hc.carries_text hs ht hi hlt hp
    exact .inr ⟨_, q, _, Nat.lt_succ_self _, hlt, parted_of_kept ht hkept, hq, hcarries,
      by rw [Stream.writes_single ht, hw]⟩

/-- Where the changes are parted, the change of a token rewrites a whole range from the token on. -/
theorem step_rewritten (hs : s.Sound) (hc : s.Frames c) (h : Rewords s c cs w) {t : Token}
    (ht : s.Has t) {p : Spot} (hi : c.opener.index < t.index) (hle : t.index ≤ c.closer.index)
    (hparted : Parted s cs t.index) (hp : c.SpotAt s t.index p) (hchange : change ∈ cs)
    (hne : change.current t ≠ t.text) :
    Concludes s c w t.index p ∨ Advances s c cs w t.index p := by
  obtain ⟨i, j, hshape⟩ := h.shape change hchange t ht (Nat.le_of_lt hi) hle hne
  have hreaches := hshape.reaches hs
  have hstart := eq_of_parted hs.toPlaced hchange hreaches ht (by omega) hparted hne
  have hend := ((hreaches t ht).1 hne).2
  have hpartedEnd := h.parted_of_reaches hchange hreaches (by omega)
  cases hshape with
  | openLine => omega
  | @closeLine last indent has opener_le lt_closer line vacant blanks writes =>
      rw [← hstart]
      exact .inl (h.concludes_closeLine hs.toPlaced hc hchange hreaches lt_closer vacant blanks
        writes)
  | @cut last bottom opener_le last_eq first last_lt le_closer spot drops =>
      -- the line break in front of the last line is kept, and what is dropped ends there
      obtain ⟨u, hu, hindex, hending, hkeep⟩ :=
        h.exists_kept_of_cut hs last_eq first (by omega) le_closer spot
      have hvacant : s.Vacant t.index (u.index + 1) := by
        intro v hv hfrom hto
        simpa using (hs.lastBetween.1 last_eq).2.2.2.2 v hv (by omega) (by omega)
      refine .inr ⟨u.index + 1, _, _, by omega, by omega, parted_of_kept hu hkeep, hindex ▸ spot,
        hvacant.carries_ending hs.toPlaced hending p, ?_⟩
      have hdropped : s.writes w t.index u.index = [] := by
        rw [← hstart, show u.index = bottom.index - 1 by omega]
        exact h.writes_drops hs hchange drops
      rw [Stream.writes_append (j := u.index) (by omega) (Nat.le_succ _), hdropped,
        Stream.writes_single hu, h.kept u hu hkeep]
      rfl
  | @lines i j following opener_lt le content le_following vacant spot spot' drops =>
      obtain rfl := hstart
      obtain rfl := hp.unique spot
      have hto := content.lt_closer
      exact .inr ⟨j, _, _, hend, by omega, hpartedEnd, spot', vacant.carries hs.toPlaced,
        h.writes_drops hs hchange drops⟩
  | @blankLine previous following j indent content content' lt le_following vacant spot blanks
      writes =>
      obtain rfl := content.has.eq ht hstart
      have hto := content'.lt_closer
      refine .inr ⟨j, _, _, hend, by omega, hpartedEnd, spot,
        hc.carries_blankLine hs content lt vacant hp blanks s.isEnding_eol, ?_⟩
      have hdrop : s.writes w (previous.index + 1) j = [] := by
        refine Stream.writes_eq_nil hs.toPlaced fun u hu hfrom hbefore => ?_
        rw [h.text_eq hchange hreaches hu (by omega) hbefore, writes u hu, if_neg (by omega),
          if_pos (by omega)]
      rw [Stream.writes_cons ht lt, hdrop, h.text_eq hchange hreaches ht (Nat.le_refl _) lt,
        writes _ ht, if_pos rfl]
      simp
  | @respace u q text has opener_lt lt_closer kind blank spot blanks empty ne writes =>
      obtain rfl := has.eq ht hstart
      obtain rfl := hp.unique spot
      obtain ⟨r, hr, hcarries⟩ := hc.carries_blanks ht hi lt_closer kind blank hp blanks
        fun hnil => empty (String.toList_injective hnil)
      refine .inr ⟨_, r, _, hend, lt_closer, hpartedEnd, hr, hcarries, ?_⟩
      rw [Stream.writes_single ht, h.text_eq hchange hreaches ht (Nat.le_refl _) hend,
        writes _ ht, if_pos rfl]
  | @prepend u q r text has opener_lt lt_closer kind spot next blanks ne writes =>
      obtain rfl := has.eq ht hstart
      obtain rfl := hp.unique spot
      obtain ⟨r', hr, hcarries⟩ := hc.carries_prepend hs ht hi lt_closer kind hp next blanks
        fun hnil => ne (String.toList_injective hnil)
      refine .inr ⟨_, r', _, hend, lt_closer, hpartedEnd, hr, hcarries, ?_⟩
      rw [Stream.writes_single ht, h.text_eq hchange hreaches ht (Nat.le_refl _) hend,
        writes _ ht, if_pos rfl, String.toList_append]
  | @indentClose text spot blanks ne writes =>
      obtain rfl := hc.closer.eq ht hstart
      obtain rfl := hp.unique spot
      refine .inl ⟨text.toList, ?_, Stream.Frames.ends_indent s c blanks⟩
      rw [Stream.writes_single hc.closer,
        h.text_eq hchange hreaches hc.closer (Nat.le_refl _) (Nat.lt_succ_self _),
        writes _ hc.closer, if_pos rfl, hc.closerText, String.toList_append]
      rfl

/-- Where the changes are parted, the rest of the rewritten comment ends it. The induction is on the
number of tokens up to the close marker. -/
theorem concludes (hs : s.Sound) (hc : s.Frames c) (h : Rewords s c cs w) {p : Spot}
    (hi : c.opener.index < i) (hle : i ≤ c.closer.index) (hparted : Parted s cs i)
    (hp : c.SpotAt s i p) : Concludes s c w i p := by
  induction hn : c.closer.index - i using Nat.strong_induction_on generalizing i p with
  | h n ih =>
  obtain ⟨t, ht, rfl⟩ := hs.has_of_le hc.closer hle
  have hstep : Concludes s c w t.index p ∨ Advances s c cs w t.index p := by
    by_cases hkept : ∀ change ∈ cs, change.current t = t.text
    · exact h.step_kept hs hc ht hi hle hp hkept
    · push Not at hkept
      obtain ⟨change, hchange, hne⟩ := hkept
      exact h.step_rewritten hs hc ht hi hle hparted hp hchange hne
  rcases hstep with hconcludes | ⟨j, q, ds, hlt, hj, hpartedJ, hq, hcarries, hwrites⟩
  · exact hconcludes
  · have hrest := ih (c.closer.index - j) (by omega) (by omega) hj hpartedJ hq rfl
    exact concludes_of_carries hc hi (Nat.le_of_lt hlt) hj hcarries hwrites hrest

/-- What ends the comment behind its open marker is the body of a comment with the same content. -/
theorem closed_of_ends (hc : s.Frames c) {body : List Char}
    (h : s.Ends c (c.opener.index + 1) .opened body) :
    Closed body ∧ contentOf (docBody body) = contentOf ((s.inside c).map Token.lexeme) := by
  obtain ⟨ls, q, hrow, rfl, hcontent⟩ := h.row .opened .refl
  refine ⟨⟨h.unclosed, fun hstart => ?_⟩, ?_⟩
  · -- a slash right behind the open marker would have been there before
    obtain ⟨old, hclosed, hold⟩ := hc.body
    rcases h.start hstart with heq | hhead
    · cases heq
    · have hlexemes : s.lexemes (c.opener.index + 1) c.closer.index = docBody old := hold
      rw [hlexemes, charsOf_docBody] at hhead
      exact hclosed.start hhead
  · rw [hrow.contentOf_docBody, hcontent]
    rfl

/-- A rewritten comment is a comment with the same content. -/
theorem exists_body (hs : s.Sound) (hc : s.Frames c) (h : Rewords s c cs w) :
    ∃ body, Closed body ∧
      s.writes w c.opener.index (c.closer.index + 1) = ['/', '*', '*'] ++ body ++ ['*', '/'] ∧
      contentOf (docBody body) = contentOf ((s.inside c).map Token.lexeme) := by
  have hlt := hc.lt
  by_cases hkept : ∀ change ∈ cs, change.current c.opener = c.opener.text
  · obtain ⟨body, hwrites, hends⟩ := h.concludes hs hc (Nat.lt_succ_self _) hlt
      (parted_of_kept hc.opener hkept) (Stream.Frames.spotAt_opened s c)
    obtain ⟨hclosed, hcontent⟩ := closed_of_ends hc hends
    refine ⟨body, hclosed, ?_, hcontent⟩
    rw [Stream.writes_cons hc.opener (by omega), h.kept _ hc.opener hkept, hc.openerText, hwrites]
    rfl
  · push Not at hkept
    obtain ⟨change, hchange, hne⟩ := hkept
    obtain ⟨i, j, hshape⟩ :=
      h.shape change hchange c.opener hc.opener (Nat.le_refl _) (Nat.le_of_lt hlt) hne
    have hreaches := hshape.reaches hs
    obtain ⟨hfrom, hto⟩ := (hreaches _ hc.opener).1 hne
    -- only the fix that moves content off the line of the open marker rewrites the marker
    cases hshape with
    | @openLine first indent content vacant blanks writes =>
        have hopener := content.opener_lt
        have hcloser := content.lt_closer
        obtain ⟨q, hq, hcarries⟩ :=
          hc.carries_openLine hs content vacant blanks s.isEnding_eol
        obtain ⟨body, hwrites, hends⟩ := h.concludes hs hc (by omega) hcloser
          (h.parted_of_reaches hchange hreaches (by omega)) hq
        obtain ⟨hclosed, hcontent⟩ := closed_of_ends hc
          (hcarries.ends hc (Nat.lt_succ_self _) (by omega) hcloser hends)
        refine ⟨_, hclosed, ?_, hcontent⟩
        have hdrop : s.writes w (c.opener.index + 1) first.index = [] := by
          refine Stream.writes_eq_nil hs.toPlaced fun u hu hfrom hbefore => ?_
          rw [h.text_eq hchange hreaches hu (by omega) (by omega), writes u hu, if_neg (by omega),
            if_neg (by omega), if_pos (by omega)]
        rw [Stream.writes_cons hc.opener (by omega),
          Stream.writes_append (j := first.index) hopener (by omega), hdrop,
          Stream.writes_cons content.has (by omega), hwrites,
          h.text_eq hchange hreaches hc.opener hfrom hto, writes _ hc.opener, if_pos rfl,
          h.text_eq hchange hreaches content.has (by omega) (by omega), writes _ content.has,
          if_neg (by omega), if_pos rfl, hc.openerText]
        simp
    | closeLine has opener_le => omega
    | cut opener_le => omega
    | lines opener_lt => omega
    | blankLine content =>
        have := content.opener_lt
        omega
    | respace has opener_lt => omega
    | prepend has opener_lt => omega
    | indentClose => omega

end Rewords

end PhpDoc
