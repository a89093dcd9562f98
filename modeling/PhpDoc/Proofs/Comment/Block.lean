import PhpDoc.Comment.Group
import PhpDoc.Proofs.Comment.Tag

/-!
# The descriptions of a block

What the parts of a block are: the first content, the short description on consecutive lines in
front of the first tag, and the long description, which starts at least two lines below the short
one (`short_line_lt_long`).
-/

namespace PhpDoc

open Text

variable {s : Stream} {c : CommentSpan}

/-- The index at which the descriptions of a comment end: that of the first tag, or of the close
marker. -/
def CommentSpan.stop (c : CommentSpan) : Nat :=
  (c.tags.head?.getD c.closer).index

namespace Stream.Frames

/-- The descriptions of a comment end at a tag or at the close marker. -/
theorem stop_le (hs : s.Placed) (hc : s.Frames c) : c.stop ≤ c.closer.index := by
  unfold CommentSpan.stop
  cases htags : c.tags with
  | nil => exact Nat.le_refl _
  | cons t ts =>
      have ht : t ∈ c.tags := htags ▸ List.mem_cons_self
      exact Nat.le_of_lt ((hc.mem_tags hs).1 ht).2.2.1

/-- The content of a comment starts behind its open marker. -/
theorem opener_lt_stop (hs : s.Placed) (hc : s.Frames c) : c.opener.index < c.stop := by
  unfold CommentSpan.stop
  cases htags : c.tags with
  | nil => exact hc.lt
  | cons t ts =>
      have ht : t ∈ c.tags := htags ▸ List.mem_cons_self
      exact ((hc.mem_tags hs).1 ht).2.1

/-- At the end of the descriptions there is a tag, or the close marker. -/
theorem stop_spec (hs : s.Placed) (hc : s.Frames c) :
    c.stop = c.closer.index ∨ ∃ t, s.Has t ∧ t.index = c.stop ∧ t.kind = .docTag := by
  unfold CommentSpan.stop
  cases htags : c.tags with
  | nil => exact .inl rfl
  | cons t ts =>
      have ht : t ∈ c.tags := htags ▸ List.mem_cons_self
      obtain ⟨hhas, -, -, hkind⟩ := (hc.mem_tags hs).1 ht
      exact .inr ⟨t, hhas, rfl, hkind⟩

end Stream.Frames

namespace Block

/-- Of consecutive lines nothing is left that would go on with them. -/
theorem consecutive_append (line : Nat) (ts : List Token) :
    ∃ rest, ts = consecutive line ts ++ rest ∧ ∀ u, rest.head? = some u →
      u.line ≠ ((consecutive line ts).getLast?.elim line (·.line)) + 1 := by
  induction ts generalizing line with
  | nil => exact ⟨[], rfl, by simp⟩
  | cons t ts ih =>
      rw [consecutive]
      split
      · obtain ⟨rest, heq, hrest⟩ := ih t.line
        refine ⟨rest, congrArg (t :: ·) heq, fun u hu => ?_⟩
        have := hrest u hu
        cases hmore : consecutive t.line ts with
        | nil => simpa [hmore] using this
        | cons v vs =>
            rw [hmore] at this
            rwa [List.getLast?_cons_cons]
      · next hline =>
          refine ⟨t :: ts, rfl, fun u hu => ?_⟩
          cases hu
          exact hline

/-- The strings between two indices are the string tokens in that range. -/
theorem mem_stringsBetween (hs : s.Placed) {i j : Nat} {t : Token} :
    t ∈ stringsBetween s i j ↔ s.Has t ∧ i ≤ t.index ∧ t.index < j ∧ t.kind = .docString := by
  rw [stringsBetween, List.mem_filter, hs.mem_between]
  simp [and_assoc]

/-! ## The parts of a block -/

/-- A block opens with the open marker of its comment. -/
@[simp] theorem ofSpan_opener : (ofSpan s c).opener = c.opener := by
  unfold ofSpan
  simp only
  split
  · split <;> rfl
  · rfl

/-- A block closes with the close marker of its comment. -/
@[simp] theorem ofSpan_closer : (ofSpan s c).closer = c.closer := by
  unfold ofSpan
  simp only
  split
  · split <;> rfl
  · rfl

/-- The tags of a block are those at the tag tokens of its comment. -/
@[simp] theorem ofSpan_tags : (ofSpan s c).tags = tagsOf s c.closer.index c.tags := by
  unfold ofSpan
  simp only
  split
  · split <;> rfl
  · rfl

/-- The first content of a block is the first token behind the open marker that is no filler. -/
@[simp] theorem ofSpan_first :
    (ofSpan s c).first = s.firstBetween (!·.isFiller) (c.opener.index + 1) c.closer.index := by
  unfold ofSpan
  simp only
  split
  · next t ht => split <;> exact ht.symm ▸ rfl
  · next hnone => exact hnone.symm ▸ rfl

/-- The short description starts with the first content, which is a string. -/
theorem ofSpan_short {d : Description} :
    (ofSpan s c).short = some d ↔
      ∃ t, (ofSpan s c).first = some t ∧ t.kind = .docString ∧ d = shortFrom s t c.stop := by
  rw [ofSpan_first]
  unfold ofSpan CommentSpan.stop
  simp only
  constructor
  · intro h
    split at h
    · next t ht =>
        split at h
        · next hkind =>
            cases h
            exact ⟨t, ht, by simpa using hkind, rfl⟩
        · cases h
    · cases h
  · rintro ⟨t, ht, hkind, rfl⟩
    simp [ht, hkind]

/-- The long description is what follows the short one. -/
theorem ofSpan_long {l : Description} :
    (ofSpan s c).long = some l ↔
      ∃ d, (ofSpan s c).short = some d ∧ longAfter s d c.closer c.stop = some l := by
  unfold ofSpan CommentSpan.stop
  simp only
  constructor
  · intro h
    split at h
    · split at h
      · next hkind => exact ⟨_, by simp only [hkind]; rfl, h⟩
      · cases h
    · cases h
  · rintro ⟨d, hd, hl⟩
    split at hd
    · split at hd
      · next hkind =>
          simp only [hkind]
          cases hd
          exact hl
      · cases hd
    · cases hd

/-- The tags of a block lie inside its comment. -/
theorem fits_of_mem_tags (hs : s.Placed) (hc : s.Frames c) {t : Tag}
    (ht : t ∈ (ofSpan s c).tags) : t.Fits s c :=
  fits_of_mem_tagsOf hs hc (by simpa using ht)

/-- The first content of a comment. -/
theorem first_spec (hs : s.Placed) {t : Token} (h : (ofSpan s c).first = some t) :
    s.Has t ∧ c.opener.index < t.index ∧ t.index < c.closer.index ∧ t.kind.isFiller = false ∧
      ∀ u, s.Has u → c.opener.index < u.index → u.index < t.index → u.kind.isFiller = true := by
  rw [ofSpan_first, hs.firstBetween] at h
  obtain ⟨ht, hfrom, hto, hkind, hfirst⟩ := h
  refine ⟨ht, hfrom, hto, by simpa using hkind, fun u hu hopener hlt => ?_⟩
  simpa using hfirst u hu hopener hlt

/-- The last content in front of a token of a comment with content before it. -/
theorem lastBetween_content (hs : s.Placed) (hc : s.Frames c) {first previous : Token} {i : Nat}
    (hfirst : (ofSpan s c).first = some first) (hlt : first.index < i)
    (hle : i ≤ c.closer.index)
    (h : s.lastBetween (!·.isFiller) c.opener.index i = some previous) :
    s.lastBetween Kind.isDocContent (c.opener.index + 1) i = some previous := by
  obtain ⟨hhas, hfrom, -, hkind, -⟩ := first_spec hs hfirst
  obtain ⟨hphas, hpfrom, hpto, hpkind, hplast⟩ := hs.lastBetween.1 h
  have hpkind : previous.kind.isFiller = false := by simpa using hpkind
  have hopener : c.opener.index < previous.index := by
    by_contra hnot
    have := hplast first hhas (by omega) hlt
    rw [hkind] at this
    cases this
  refine hs.lastBetween.2 ⟨hphas, hopener, hpto,
    (hc.isFiller_eq_false hphas hopener (by omega)).1 hpkind, fun u hu hpu hui => ?_⟩
  have hfiller := hplast u hu hpu hui
  cases hcontent : u.kind.isDocContent with
  | false => rfl
  | true =>
      rw [(hc.isFiller_eq_false hu (by omega) (by omega)).2 hcontent] at hfiller
      cases hfiller

/-- The open marker is no content. -/
theorem lastBetween_opener (hs : s.Placed) (hc : s.Frames c) {i : Nat} {previous : Token} :
    s.lastBetween Kind.isDocContent c.opener.index i = some previous ↔
      s.lastBetween Kind.isDocContent (c.opener.index + 1) i = some previous := by
  rw [hs.lastBetween, hs.lastBetween]
  constructor
  · rintro ⟨hhas, hfrom, hto, hkind, hlast⟩
    refine ⟨hhas, ?_, hto, hkind, hlast⟩
    by_contra hnot
    rw [hhas.eq hc.opener (by omega), hc.openerKind] at hkind
    cases hkind
  · rintro ⟨hhas, hfrom, hto, hkind, hlast⟩
    exact ⟨hhas, Nat.le_of_succ_le hfrom, hto, hkind, hlast⟩

/-- The tags of a comment stand behind its first content, if that is a string. -/
theorem first_lt_tag (hs : s.Placed) (hc : s.Frames c) {first : Token}
    (hfirst : (ofSpan s c).first = some first) (hstring : first.kind = .docString) {t : Tag}
    (ht : t ∈ (ofSpan s c).tags) : first.index < t.token.index := by
  obtain ⟨hhas, -, -, -, hfiller⟩ := first_spec hs hfirst
  have hfits := fits_of_mem_tags hs hc ht
  by_contra hnot
  rcases Nat.eq_or_lt_of_le (Nat.le_of_not_lt hnot) with heq | hlt
  · have hkind := hfits.kind
    rw [hfits.token.eq hhas heq, hstring] at hkind
    cases hkind
  · have := hfiller _ hfits.token hfits.opener_lt hlt
    rw [hfits.kind] at this
    cases this

/-- A short description starts with the first content, in front of the first tag. -/
theorem short_first (hs : s.Placed) (hc : s.Frames c) {d : Description}
    (h : (ofSpan s c).short = some d) :
    (ofSpan s c).first = some d.first ∧ d.first.kind = .docString ∧ d.first.index < c.stop := by
  obtain ⟨t, hfirst, hkind, rfl⟩ := ofSpan_short.1 h
  obtain ⟨ht, hopener, hcloser, -, hfiller⟩ := first_spec hs hfirst
  refine ⟨hfirst, hkind, ?_⟩
  change t.index < c.stop
  rcases hc.stop_spec hs with heq | ⟨u, hu, hindex, htag⟩
  · omega
  · by_contra hnot
    have hlt := hc.opener_lt_stop hs
    rcases Nat.eq_or_lt_of_le (Nat.le_of_not_lt hnot) with heq | hlt'
    · rw [← hu.eq ht (by omega), htag] at hkind
      cases hkind
    · have := hfiller u hu (by omega) (by omega)
      simp [htag, Kind.isFiller] at this

/-- The strings of a short description are strings of the comment. -/
theorem mem_short_strings (hs : s.Placed) (hc : s.Frames c) {d : Description}
    (h : (ofSpan s c).short = some d) {u : Token} (hu : u ∈ d.strings) :
    s.Has u ∧ u.kind = .docString ∧ d.first.index ≤ u.index ∧ u.index < c.stop := by
  obtain ⟨hfirst, hkind, hstop⟩ := short_first hs hc h
  rcases List.mem_cons.1 hu with rfl | hu
  · exact ⟨(first_spec hs hfirst).1, hkind, Nat.le_refl _, hstop⟩
  · obtain ⟨t, -, -, rfl⟩ := ofSpan_short.1 h
    obtain ⟨rest, heq, -⟩ :=
      consecutive_append t.line (stringsBetween s (t.index + 1) c.stop)
    have hmem : u ∈ stringsBetween s (t.index + 1) c.stop := by
      rw [heq]
      exact List.mem_append_left _ hu
    obtain ⟨hhas, hfrom, hto, hstring⟩ := (mem_stringsBetween hs).1 hmem
    exact ⟨hhas, hstring, Nat.le_of_succ_le hfrom, hto⟩

/-- Of tokens in order none comes behind the last one. -/
theorem index_le_getLastD {ts : List Token} (h : ts.Pairwise (·.index < ·.index)) {u : Token}
    (hu : u ∈ ts) (t : Token) : u.index ≤ (ts.getLastD t).index := by
  rcases List.eq_nil_or_concat ts with rfl | ⟨front, last, rfl⟩
  · cases hu
  · rw [List.concat_eq_append] at h hu ⊢
    rw [List.getLastD_concat]
    rcases List.mem_append.1 hu with hu | hu
    · exact Nat.le_of_lt ((List.pairwise_append.1 h).2.2 u hu last (List.mem_singleton_self _))
    · rw [List.mem_singleton.1 hu]

/-- The last string of a description is one of its strings. -/
theorem last_mem_strings (d : Description) : d.last ∈ d.strings := by
  unfold Description.last Description.strings
  cases hmore : d.more.getLast? with
  | none => simp [List.getLast?_eq_none_iff.1 hmore]
  | some t =>
      rw [List.getLastD_eq_getLast?, hmore]
      exact List.mem_cons_of_mem _ (List.mem_of_getLast? hmore)

/-- The string after a short description does not go on with its lines. -/
theorem line_ne_of_short (hs : s.Placed) (hc : s.Frames c) {d : Description}
    (h : (ofSpan s c).short = some d) {u : Token} (hu : s.Has u) (hstring : u.kind = .docString)
    (hlast : d.last.index < u.index) (hstop : u.index < c.stop)
    (hfirst : ∀ v, s.Has v → d.last.index < v.index → v.index < u.index → v.kind ≠ .docString) :
    u.line ≠ d.last.line + 1 := by
  have hle := (mem_short_strings hs hc h (last_mem_strings d)).2.2.1
  obtain ⟨t, -, -, rfl⟩ := ofSpan_short.1 h
  obtain ⟨rest, heq, hrest⟩ := consecutive_append t.line (stringsBetween s (t.index + 1) c.stop)
  have hmore : (shortFrom s t c.stop).more =
      consecutive t.line (stringsBetween s (t.index + 1) c.stop) := rfl
  have hline : (shortFrom s t c.stop).last.line =
      (shortFrom s t c.stop).more.getLast?.elim t.line (·.line) := by
    unfold Description.last
    rw [List.getLastD_eq_getLast?]
    cases (shortFrom s t c.stop).more.getLast? <;> rfl
  have hsorted : (stringsBetween s (t.index + 1) c.stop).Pairwise (·.index < ·.index) :=
    (hs.pairwise_between _ _).filter _
  have hmem : u ∈ stringsBetween s (t.index + 1) c.stop :=
    (mem_stringsBetween hs).2 ⟨hu, Nat.lt_of_le_of_lt hle hlast, hstop, hstring⟩
  rw [heq] at hmem hsorted
  obtain ⟨hfrontSorted, hrestSorted, hcross⟩ := List.pairwise_append.1 hsorted
  have hbefore : ∀ v ∈ (shortFrom s t c.stop).strings, ∀ w ∈ rest, v.index < w.index := by
    intro v hv w hw
    rcases List.mem_cons.1 hv with hvt | hv
    · have hw' : w ∈ stringsBetween s (t.index + 1) c.stop := by
        rw [heq]
        exact List.mem_append_right _ hw
      rw [hvt]
      exact ((mem_stringsBetween hs).1 hw').2.1
    · exact hcross v hv w hw
  have hmemRest : u ∈ rest := by
    rcases List.mem_append.1 hmem with hfront | hmem
    · have hle := index_le_getLastD hfrontSorted hfront t
      change u.index ≤ (shortFrom s t c.stop).last.index at hle
      omega
    · exact hmem
  -- the strings go on with the one that broke off the description, and no other one stands in
  -- front of `u`
  cases rest with
  | nil => cases hmemRest
  | cons w ws =>
      have hw : w ∈ stringsBetween s (t.index + 1) c.stop := by
        rw [heq]
        exact List.mem_append_right _ List.mem_cons_self
      obtain ⟨hwhas, -, -, hwstring⟩ := (mem_stringsBetween hs).1 hw
      have hwlast := hbefore _ (last_mem_strings _) w List.mem_cons_self
      rcases List.mem_cons.1 hmemRest with rfl | hlater
      · rw [hline, hmore]
        exact hrest u rfl
      · have hwu := (List.pairwise_cons.1 hrestSorted).1 u hlater
        exact absurd hwstring (hfirst w hwhas hwlast hwu)

/-- The long description starts with the first content behind the short one, in front of the first
tag. -/
theorem long_first (hs : s.Placed) (hc : s.Frames c) {d l : Description}
    (hd : (ofSpan s c).short = some d) (hl : (ofSpan s c).long = some l) :
    s.Has l.first ∧ l.first.kind = .docString ∧ d.last.index < l.first.index ∧
      l.first.index < c.stop ∧
      ∀ v, s.Has v → d.last.index < v.index → v.index < l.first.index → v.kind.isFiller = true := by
  obtain ⟨d', hd', hlong⟩ := ofSpan_long.1 hl
  obtain rfl : d = d' := Option.some.inj (hd.symm.trans hd')
  obtain ⟨-, -, -, hstop⟩ := mem_short_strings hs hc hd (last_mem_strings d)
  unfold longAfter at hlong
  split at hlong
  · next t ht =>
      obtain ⟨hhas, hfrom, hto, -, hfirst⟩ := hs.firstBetween.1 ht
      split at hlong
      · next hkind =>
          cases hlong
          have hkind : t.kind = .docString := by simpa using hkind
          have hfiller : ∀ v, s.Has v → d.last.index < v.index → v.index < t.index →
              v.kind.isFiller = true := by
            intro v hv hlast hlt
            simpa using hfirst v hv hlast hlt
          refine ⟨hhas, hkind, hfrom, ?_, hfiller⟩
          change t.index < c.stop
          -- the first tag is content itself, so what stands behind it is not the first content
          rcases hc.stop_spec hs with heq | ⟨u, hu, hindex, htag⟩
          · omega
          · by_contra hnot
            rcases Nat.eq_or_lt_of_le (Nat.le_of_not_lt hnot) with heq | hlt
            · rw [← hu.eq hhas (by omega), htag] at hkind
              cases hkind
            · have := hfiller u hu (by omega) (by omega)
              simp [htag, Kind.isFiller] at this
      · cases hlong
  · cases hlong

/-- The long description starts at least two lines below the short one. -/
theorem short_line_lt_long (hs : s.Placed) (hc : s.Frames c) {d l : Description}
    (hd : (ofSpan s c).short = some d) (hl : (ofSpan s c).long = some l) :
    d.last.line + 2 ≤ l.first.line := by
  obtain ⟨hlhas, hlkind, hlt, hlstop, hfiller⟩ := long_first hs hc hd hl
  obtain ⟨hdhas, hdkind, hdfirst, hdstop⟩ := mem_short_strings hs hc hd (last_mem_strings d)
  obtain ⟨-, hopener, -, -, -⟩ := first_spec hs (short_first hs hc hd).1
  have hstop := hc.stop_le hs
  have hlater := hc.line_lt_of_string hs hdhas hlhas (by omega) (by omega) hdkind
    (by rw [hlkind]; rfl) hlt
  have hne := line_ne_of_short hs hc hd hlhas hlkind hlt hlstop fun v hv hlast hlt hstring => by
    have := hfiller v hv hlast hlt
    simp [hstring, Kind.isFiller] at this
  omega

end Block

end PhpDoc
