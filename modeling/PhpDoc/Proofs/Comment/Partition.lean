import PhpDoc.Proofs.Comment.Block
import PhpDoc.Proofs.Comment.Group
import PhpDoc.Proofs.Comment.Spot
import PhpDoc.Proofs.Lint.Check

/-!
# Groups and blank lines

The groups of a comment are cut by looking backwards for the last string in front of a tag. What
they mean is a fact about lines: a tag starts a group exactly when the line directly above it holds
neither a tag nor a string of the comment (`groups_blankLines`). The two agree because a tag is the
first content of its line, so all content in front of a tag stands above it, and the last string, or
the tag before without one, stands lowest.
-/

namespace PhpDoc

variable {s : Stream} {c : CommentSpan}

/-- Content of a comment is a tag or a string. -/
theorem CommentSpan.Contains.tag_or_string {u : Token} (hu : c.Contains s u) :
    u.kind = .docTag ∨ u.kind = .docString := by
  simpa [Kind.isDocContent] using hu.content

/-- The tag of a token keeps the token. -/
theorem Tag.token_ofToken (s : Stream) (u : Token) (stop : Nat) :
    (Tag.ofToken s u stop).token = u := by
  unfold Tag.ofToken
  simp only
  split
  · split <;> rfl
  · rfl

/-- The tags are those at the given tokens. -/
theorem map_token_tagsOf (s : Stream) (stop : Nat) (ts : List Token) :
    (tagsOf s stop ts).map (·.token) = ts := by
  fun_induction tagsOf s stop ts with
  | case1 => rfl
  | case2 u => rw [List.map_cons, List.map_nil, Tag.token_ofToken]
  | case3 u next ts ih => rw [List.map_cons, ih, Tag.token_ofToken]

namespace Block

/-- A part of a list begins between two neighbours exactly when they do not go together. -/
theorem exists_part_iff {α : Type} (r : α → α → Bool) (front : List α) (a b : α) (back : List α) :
    (∃ earlier part later, (front ++ a :: b :: back).splitBy r = earlier ++ part :: later ∧
      earlier.flatten = front ++ [a] ∧ part.head? = some b) ↔ r a b = false := by
  constructor
  · rintro ⟨earlier, part, later, heq, hflat, hhead⟩
    obtain ⟨parts, last, rfl⟩ : ∃ parts last, earlier = parts ++ [last] := by
      rcases List.eq_nil_or_concat earlier with rfl | ⟨parts, last, rfl⟩
      · simp at hflat
      · exact ⟨parts, last, by rw [List.concat_eq_append]⟩
    have hchain := List.isChain_getLast_head_splitBy r (front ++ a :: b :: back)
    rw [heq, List.isChain_append] at hchain
    obtain ⟨hlast, hpart, hapart⟩ := hchain.2.2 last (by simp) part (by simp)
    have hlast' : last.getLast? = some a := by
      have := congrArg List.getLast? hflat
      rw [List.flatten_append, List.flatten_singleton, List.getLast?_append_of_ne_nil _ hlast]
        at this
      simpa using this
    rwa [List.getLast_of_getLast?_eq_some hlast', List.head_of_head?_eq_some hhead] at hapart
  · intro hapart
    obtain ⟨part, later, hlater⟩ := List.exists_cons_of_ne_nil
      (List.splitBy_ne_nil.2 (List.cons_ne_nil b back) : (b :: back).splitBy r ≠ [])
    refine ⟨(front ++ [a]).splitBy r, part, later, ?_, List.flatten_splitBy r _, ?_⟩
    · rw [← hlater, List.append_cons,
        List.splitBy_append_cons back (by simpa using hapart)]
    · have hhead := List.head_head_splitBy r (List.cons_ne_nil b back)
      simp only [hlater, List.head_cons] at hhead
      rw [← hhead, List.head?_eq_some_head]

variable {b : Block} {front back : List Tag} {p t : Tag}

/-- The tag behind `front` is the first one of a group. -/
def StartsGroup (s : Stream) (b : Block) (front : List Tag) (t : Tag) : Prop :=
  ∃ earlier g later, b.groups s = earlier ++ g :: later ∧
    earlier.flatMap (·.tags) = front ∧ g.tags.head? = some t

/-- A tag starts a group exactly when it does not follow the tag before. -/
theorem startsGroup_iff_follows (htags : b.tags = front ++ p :: t :: back) :
    StartsGroup s b (front ++ [p]) t ↔ follows s p t = false := by
  rw [← exists_part_iff (follows s) front p t back, ← htags, ← map_tags_groups]
  constructor
  · rintro ⟨earlier, g, later, heq, hfront, hhead⟩
    exact ⟨earlier.map (·.tags), g.tags, later.map (·.tags), by simp [heq],
      by rw [← List.flatMap_def, hfront], hhead⟩
  · rintro ⟨earlier, part, later, heq, hfront, hhead⟩
    obtain ⟨groups, rest, hgroups, rfl, hrest⟩ := List.map_eq_append_iff.1 heq
    obtain ⟨g, gs, rfl, rfl, -⟩ := List.map_eq_cons_iff.1 hrest
    exact ⟨groups, g, gs, hgroups, by rw [List.flatMap_def, hfront], hhead⟩

/-! ## The line above a tag -/

/-- The tags of a comment stand in order. -/
theorem pairwise_tokens (hs : s.Placed) (hc : s.Frames c) :
    ((ofSpan s c).tags.map (·.token)).Pairwise (·.index < ·.index) := by
  rw [ofSpan_tags, map_token_tagsOf]
  exact hc.pairwise_tags hs

/-- Between two neighbouring tags of a comment there is no further tag. -/
theorem index_le_of_tag (hs : s.Placed) (hc : s.Frames c)
    (htags : (ofSpan s c).tags = front ++ p :: t :: back) {u : Token} (hu : c.Contains s u)
    (hkind : u.kind = .docTag) (hlt : u.index < t.token.index) : u.index ≤ p.token.index := by
  have hmem : u ∈ (ofSpan s c).tags.map (·.token) := by
    rw [ofSpan_tags, map_token_tagsOf]
    exact (hc.mem_tags hs).2 ⟨hu.has, hu.opener_lt, hu.lt_closer, hkind⟩
  have hsorted := pairwise_tokens hs hc
  simp only [htags, List.map_append, List.map_cons, List.mem_append, List.mem_cons] at hmem hsorted
  obtain ⟨-, hlater, hfront⟩ := List.pairwise_append.1 hsorted
  obtain ⟨-, hlater⟩ := List.pairwise_cons.1 hlater
  rcases hmem with hmem | rfl | rfl | hmem
  · exact Nat.le_of_lt (hfront u hmem p.token List.mem_cons_self)
  · exact Nat.le_refl _
  · exact absurd hlt (Nat.lt_irrefl _)
  · have := (List.pairwise_cons.1 hlater).1 u hmem
    omega

/-- The last string between two neighbouring tags, or the first of them without one, is the last
content of the comment in front of the second one. -/
theorem last_content (hs : s.Placed) (hc : s.Frames c)
    (htags : (ofSpan s c).tags = front ++ p :: t :: back) {last : Token}
    (hlast : (s.lastBetween (· == .docString) p.token.index t.token.index).getD p.token = last) :
    c.Contains s last ∧ last.index < t.token.index ∧
      ∀ u, c.Contains s u → u.index < t.token.index → u.index ≤ last.index := by
  have hpfits := fits_of_mem_tags hs hc (t := p) (by rw [htags]; simp)
  have htfits := fits_of_mem_tags hs hc (t := t) (by rw [htags]; simp)
  have hlt : p.token.index < t.token.index := by
    have hsorted := pairwise_tokens hs hc
    rw [htags, List.map_append, List.pairwise_append] at hsorted
    exact (List.pairwise_cons.1 hsorted.2.1).1 t.token (by simp)
  have hstop := Nat.lt_of_lt_of_le htfits.lt_stop htfits.stop_le
  cases hfound : s.lastBetween (· == .docString) p.token.index t.token.index with
  | none =>
      rw [hfound, Option.getD_none] at hlast
      subst hlast
      refine ⟨⟨hpfits.token, hpfits.opener_lt, by omega, by rw [hpfits.kind]; rfl⟩, hlt, ?_⟩
      intro u hu hut
      rcases hu.tag_or_string with hkind | hkind
      · exact index_le_of_tag hs hc htags hu hkind hut
      · by_contra hnot
        have := hs.lastBetween_eq_none.1 hfound u hu.has (by omega) hut
        simp [hkind] at this
  | some v =>
      rw [hfound, Option.getD_some] at hlast
      subst hlast
      obtain ⟨hv, hpv, hvt, hkind, hafter⟩ := hs.lastBetween.1 hfound
      have hkind : v.kind = .docString := by simpa using hkind
      have hopener := hpfits.opener_lt
      refine ⟨⟨hv, by omega, by omega, by rw [hkind]; rfl⟩, hvt, ?_⟩
      intro u hu hut
      rcases hu.tag_or_string with htag | hstring
      · have := index_le_of_tag hs hc htags hu htag hut
        omega
      · by_contra hnot
        have := hafter u hu.has (by omega) hut
        simp [hstring] at this

/-- A tag follows the one before exactly when the line directly above it has content. -/
theorem follows_iff (hs : s.Placed) (hc : s.Frames c)
    (htags : (ofSpan s c).tags = front ++ p :: t :: back) :
    follows s p t = true ↔ ∃ u, c.Contains s u ∧ u.line + 1 = t.token.line := by
  have htfits := fits_of_mem_tags hs hc (t := t) (by rw [htags]; simp)
  have hstop := Nat.lt_of_lt_of_le htfits.lt_stop htfits.stop_le
  generalize hlast : (s.lastBetween (· == .docString) p.token.index t.token.index).getD p.token =
    last
  obtain ⟨hcontains, hlt, hmax⟩ := last_content hs hc htags hlast
  have hfollows : follows s p t = true ↔ last.line + 1 = t.token.line := by
    unfold follows
    rw [hlast, beq_iff_eq]
  rw [hfollows]
  constructor
  · exact fun hline => ⟨last, hcontains, hline⟩
  · rintro ⟨u, hu, hline⟩
    -- content above the tag stands in front of it, and not below the last content in front of it
    have hut : u.index < t.token.index := by
      by_contra hnot
      have := hs.line_le htfits.token hu.has (by omega)
      omega
    have hle := hs.line_le hu.has hcontains.has (hmax u hu hut)
    have hbelow := hc.line_lt_of_tag hs hcontains.has htfits.token hcontains.opener_lt hstop
      hcontains.content htfits.kind hlt
    omega

/-- The groups of the tags of a comment: none is empty, they are numbered from zero, they are the
tags in order, and a tag other than the first starts one exactly when the line directly above it
has neither a tag nor a string of the comment. -/
theorem groups_blankLines {text : String} (h : tokenize text = .ok s) (hc : c ∈ s.comments) :
    (∀ g ∈ (ofSpan s c).groups s, g.tags ≠ []) ∧
    ((ofSpan s c).groups s).map (·.number) = List.range ((ofSpan s c).groups s).length ∧
    ((ofSpan s c).groups s).flatMap (·.tags) = (ofSpan s c).tags ∧
    ∀ front p t back, (ofSpan s c).tags = front ++ p :: t :: back →
      (StartsGroup s (ofSpan s c) (front ++ [p]) t ↔
        ¬ ∃ u, c.Contains s u ∧ u.line + 1 = t.token.line) := by
  have hs := Stream.sound_of_tokenize h
  refine ⟨fun g hg => tags_ne_nil_of_groups hg, map_number_groups _ _, flatMap_groups _ _, ?_⟩
  intro front p t back htags
  rw [startsGroup_iff_follows htags, ← follows_iff hs.toPlaced (hs.frames hc) htags,
    Bool.not_eq_true]

/-- A line that goes on with a value keeps the next tag in its group, and a line with only a star
does not. -/
theorem groups_blankLines_continued : ∃ s c,
    tokenize "<?php /** F\n *\n * @a b\n * c\n * @d\n *\n * @e\n */" = .ok s ∧ c ∈ s.comments ∧
    ((ofSpan s c).groups s).map (·.tags.map (·.name)) = [["@a", "@d"], ["@e"]] ∧
    ((ofSpan s c).groups s).flatMap (·.tags) = (ofSpan s c).tags ∧
    ∀ front p t back, (ofSpan s c).tags = front ++ p :: t :: back →
      (StartsGroup s (ofSpan s c) (front ++ [p]) t ↔
        ¬ ∃ u, c.Contains s u ∧ u.line + 1 = t.token.line) := by
  obtain ⟨s, hs, hany⟩ := Lint.exists_ok_of_any
    (x := tokenize "<?php /** F\n *\n * @a b\n * c\n * @d\n *\n * @e\n */")
    (p := fun s => s.comments.any fun c =>
      ((ofSpan s c).groups s).map (·.tags.map (·.name)) == [["@a", "@d"], ["@e"]])
    (by decide +kernel)
  obtain ⟨c, hc, hnames⟩ := List.any_eq_true.1 hany
  obtain ⟨-, -, htags, hstarts⟩ := groups_blankLines hs hc
  exact ⟨s, c, hs, hc, eq_of_beq hnames, htags, hstarts⟩

end Block

end PhpDoc
