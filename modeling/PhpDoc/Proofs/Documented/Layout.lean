import Mathlib.Data.List.SplitBy
import PhpDoc.Proofs.Comment.Description
import PhpDoc.Proofs.Documented.Comment
import PhpDoc.Proofs.Lint.Quiet

/-!
# The layout of the comment of a documented function

The comment is tidy, its short description starts with a capital letter, the parameter tags are its
first group and the return tag its second. So no layout rule finds anything
(`Stream.Documents.layout_check`).
-/

namespace PhpDoc

open Text Lexer Documented

/-- A bound on all numbers of a list bounds their maximum. -/
theorem foldl_max_le {ns : List Nat} {m bound : Nat} (hm : m ≤ bound) (h : ∀ n ∈ ns, n ≤ bound) :
    ns.foldl max m ≤ bound := by
  induction ns generalizing m with
  | nil => exact hm
  | cons n ns ih =>
      obtain ⟨hn, hns⟩ := List.forall_mem_cons.1 h
      exact ih (Nat.max_le.2 ⟨hm, hn⟩) hns

/-- In a group of tags with one name the longest name is that one. -/
theorem TagGroup.longest_eq {g : TagGroup} {name : String} (h : ∀ t ∈ g.tags, t.name = name)
    {t : Tag} (ht : t ∈ g.tags) : g.longest = name.length := by
  refine Nat.le_antisymm (foldl_max_le (Nat.zero_le _) fun n hn => ?_) ?_
  · obtain ⟨u, hu, rfl⟩ := List.mem_map.1 hn
    rw [h u hu]
  · rw [← h t ht]
    exact length_name_le_longest ht

namespace Documented

variable {s : Stream} {i l j m stop : Nat} {x v : String} {xs : List String} {t : Token}

/-- A token of a line is a blank, a star in its column, or content from that line on. -/
theorem of_mem_rowTokens (ht : t ∈ rowTokens i l x) :
    t.kind = .docBlank ∨ (t.kind = .docStar ∧ t.column = 2) ∨
      (t.kind.isDocContent = true ∧ l ≤ t.line) := by
  simp only [rowTokens, List.mem_cons, List.not_mem_nil, or_false] at ht
  rcases ht with rfl | rfl | rfl | rfl | rfl | rfl | rfl <;> simp [Kind.isDocContent]

/-- A token of the lines is a blank, a star in its column, or content from their first line on. -/
theorem of_mem_rowsTokens (ht : t ∈ rowsTokens i l xs) :
    t.kind = .docBlank ∨ (t.kind = .docStar ∧ t.column = 2) ∨
      (t.kind.isDocContent = true ∧ l ≤ t.line) := by
  induction xs generalizing i l with
  | nil => cases ht
  | cons x xs ih =>
      rcases List.mem_append.1 ht with ht | ht
      · exact of_mem_rowTokens ht
      · rcases ih ht with h | h | ⟨hkind, hline⟩
        · exact .inl h
        · exact .inr (.inl h)
        · exact .inr (.inr ⟨hkind, by omega⟩)

/-- The tags in front of the last one are parameter tags with their values. -/
theorem of_mem_earlierTags {t : Tag} (ht : t ∈ earlierTags i l xs) :
    t.name = "@param" ∧ ∃ i l stop x, t = tag i l stop x := by
  induction xs generalizing i l with
  | nil => cases ht
  | cons x xs ih =>
      rcases List.mem_cons.1 ht with rfl | ht
      · exact ⟨rfl, _, _, _, _, rfl⟩
      · exact ih ht

/-- Whether a tag stands right below the line of a parameter is a matter of its line. -/
theorem Row.follows (hs : s.Placed) (h : Row s i l x stop) {next : Tag}
    (hnext : next.token.index = stop) :
    Block.follows s (tag i l stop x) next = (l + 1 == next.token.line) := by
  have hlast : s.lastBetween (· == .docString) (i + 3) stop =
      some ⟨.docString, x, i + 5, l, 11⟩ := by
    refine hs.lastBetween.2 ⟨h.value, by simp, h.lt, rfl, fun u hu hlow hhigh => ?_⟩
    have hfiller := h.filler u hu hlow hhigh
    rw [beq_eq_false_iff_ne]
    intro hstring
    rw [hstring] at hfiller
    cases hfiller
  unfold Block.follows
  rw [hnext]
  show (((s.lastBetween (· == .docString) (i + 3) stop).getD _).line + 1 == _) = _
  rw [hlast]
  rfl

/-- The parameter tags stand right below each other. -/
theorem Rows.isChain (hs : s.Placed) (h : Rows s i l xs v j m) :
    (earlierTags i l xs ++ [tag j m (j + 13) v]).IsChain (Block.follows s · ·) := by
  induction xs generalizing i l with
  | nil => exact .singleton _
  | cons x xs ih =>
      refine List.isChain_cons.2 ⟨fun next hnext => ?_, ih h.tail⟩
      have hplace : next.token.index = i + 10 ∧ next.token.line = l + 1 := by
        cases xs with
        | nil =>
            obtain rfl : j = i + 7 := h.index
            obtain rfl : m = l + 1 := h.line
            obtain rfl := Option.some.inj hnext
            exact ⟨rfl, rfl⟩
        | cons y ys =>
            obtain rfl := Option.some.inj hnext
            exact ⟨rfl, rfl⟩
      rw [(h.row hs).follows hs hplace.1, hplace.2, beq_self_eq_true]

end Documented

namespace Stream.Documents

variable {s : Stream} {c : CommentSpan} {xs : List String} {v : String} {j m : Nat}
  {before after : List Token}

/-- The string of the short description. -/
def shortToken (c : CommentSpan) : Token :=
  ⟨.docString, "Does things.", c.opener.index + 5, c.opener.line + 1, 4⟩

/-- A token between the markers is a blank, a star in its column, or content below the open marker.
-/
theorem of_mem_inside (h : s.Documents c xs v j m before after) {t : Token}
    (ht : t ∈ s.inside c) :
    t.kind = .docBlank ∨ (t.kind = .docStar ∧ t.column = 2) ∨
      (t.kind.isDocContent = true ∧ c.opener.line < t.line) := by
  have hline := h.line
  rw [h.inside_eq] at ht
  rcases List.mem_append.1 ht with ht | ht
  · simp only [frontTokens, List.mem_cons, List.not_mem_nil, or_false] at ht
    rcases ht with rfl | rfl | rfl | rfl | rfl | rfl | rfl | rfl | rfl <;> simp [Kind.isDocContent]
  rcases List.mem_append.1 ht with ht | ht
  · rcases of_mem_rowsTokens ht with hkind | hkind | ⟨hkind, hle⟩
    · exact .inl hkind
    · exact .inr (.inl hkind)
    · exact .inr (.inr ⟨hkind, by omega⟩)
  rcases List.mem_append.1 ht with ht | ht
  · rcases of_mem_rowTokens ht with hkind | hkind | ⟨hkind, hle⟩
    · exact .inl hkind
    · exact .inr (.inl hkind)
    · exact .inr (.inr ⟨hkind, by omega⟩)
  · simp only [backTokens, List.mem_cons, List.not_mem_nil, or_false] at ht
    rcases ht with rfl | rfl | rfl | rfl | rfl | rfl | rfl | rfl | rfl | rfl | rfl <;>
      simp [Kind.isDocContent]
    · omega
    · omega

/-- The token of the first tag. -/
def firstTag (c : CommentSpan) : Token :=
  ⟨.docTag, "@param", c.opener.index + 13, c.opener.line + 3, 4⟩

/-- The first tag comes two lines below the short description, with stars and blanks in between. -/
theorem firstTag_spec (h : s.Documents c xs v j m before after) : s.Has (firstTag c) ∧
    ∀ u, s.Has u → c.opener.index + 5 < u.index → u.index < c.opener.index + 13 →
      u.kind.isFiller = true := by
  obtain ⟨more, hmore⟩ := exists_lead h.index h.line (v := v)
    (backTokens (j + 7) (m + 1) ++ c.closer :: after)
  have htokens := h.tokens
  have hlength : c.opener.index = before.length := (h.sound.has_of_append before _ htokens).2
  have hsplit : s.tokens.toList = (before ++ c.opener :: (frontTokens (c.opener.index + 1)
      c.opener.line (c.opener.column + 3)).take 5) ++
        (((frontTokens (c.opener.index + 1) c.opener.line (c.opener.column + 3)).drop 5 ++
          leadTokens (c.opener.index + 10) (c.opener.line + 3)) ++ firstTag c :: more) := by
    rw [htokens, hmore]
    simp [frontTokens, firstTag]
  have hbetween := Stream.between_of_append (i := c.opener.index + 6) (j := c.opener.index + 13)
    _ _ _ hsplit (by simp [frontTokens, hlength]) (by simp [frontTokens, leadTokens, hlength])
  refine ⟨?_, fun u hu hlow hhigh => ?_⟩
  · rw [← List.append_assoc] at hsplit
    exact (h.sound.has_of_append _ _ hsplit).1
  · have hmem := h.sound.mem_between.2 ⟨hu, hlow, hhigh⟩
    rw [hbetween] at hmem
    simp only [frontTokens, leadTokens, List.drop, List.cons_append, List.nil_append,
      List.mem_cons, List.not_mem_nil, or_false] at hmem
    rcases hmem with rfl | rfl | rfl | rfl | rfl | rfl | rfl <;> rfl

/-- The descriptions of the comment end where its first tag starts. -/
theorem stop_eq (h : s.Documents c xs v j m before after) : c.stop = c.opener.index + 13 := by
  obtain ⟨more, hmore⟩ := exists_lead h.index h.line (v := v) (backTokens (j + 7) (m + 1))
  have htags : c.tags.head? = some (firstTag c) := by
    rw [h.frames.tags, h.inside_eq, hmore]
    rfl
  rw [CommentSpan.stop, htags]
  rfl

/-- The first content of the comment is its short description. -/
theorem ofSpan_first (h : s.Documents c xs v j m before after) :
    (Block.ofSpan s c).first = some (shortToken c) := by
  rw [Block.ofSpan_first]
  show (s.inside c).find? _ = _
  rw [h.inside_eq]
  rfl

/-- The short description of the comment is a single line. -/
theorem ofSpan_short (h : s.Documents c xs v j m before after) :
    (Block.ofSpan s c).short = some ⟨shortToken c, []⟩ := by
  refine Block.ofSpan_short.2 ⟨shortToken c, h.ofSpan_first, rfl, ?_⟩
  have hnone : Block.stringsBetween s ((shortToken c).index + 1) c.stop = [] := by
    rw [h.stop_eq]
    refine Block.stringsBetween_eq_nil h.sound.toPlaced fun u hu hlow hhigh hstring => ?_
    have hfiller := h.firstTag_spec.2 u hu hlow hhigh
    rw [hstring] at hfiller
    cases hfiller
  rw [Block.shortFrom, hnone]
  rfl

/-- The comment has no long description. -/
theorem ofSpan_long (h : s.Documents c xs v j m before after) :
    (Block.ofSpan s c).long = none := by
  obtain ⟨hhas, hfiller⟩ := h.firstTag_spec
  obtain ⟨hindex, -, -⟩ := h.closer_eq
  have hj := h.index
  have hfirst : s.firstBetween (!·.isFiller) (c.opener.index + 6) (c.closer.index - 1) =
      some (firstTag c) := by
    refine h.sound.firstBetween.2 ⟨hhas, ?_, ?_, rfl, fun u hu hlow hhigh => ?_⟩
    · show c.opener.index + 6 ≤ c.opener.index + 13
      omega
    · show c.opener.index + 13 < c.closer.index - 1
      omega
    · rw [hfiller u hu hlow hhigh]
      rfl
  refine Option.eq_none_iff_forall_ne_some.2 fun long hlong => ?_
  obtain ⟨short, hshort, hafter⟩ := Block.ofSpan_long.1 hlong
  obtain rfl := Option.some.inj (h.ofSpan_short.symm.trans hshort)
  have hnone : Block.longAfter s ⟨shortToken c, []⟩ c.closer c.stop = none := by
    have hsearch : s.firstBetween (!·.isFiller)
        ((⟨shortToken c, []⟩ : Description).last.index + 1) (c.closer.index - 1) =
          some (firstTag c) := hfirst
    rw [Block.longAfter, hsearch]
    rfl
  rw [hnone] at hafter
  cases hafter

/-- The parameter tags of the comment have their values. -/
theorem of_mem_paramTags {t : Tag} (ht : t ∈ paramTags c xs v j m) :
    t.name = "@param" ∧ ∃ i l stop x, t = tag i l stop x := by
  rcases List.mem_append.1 ht with ht | ht
  · exact of_mem_earlierTags ht
  · rw [List.mem_singleton.1 ht]
    exact ⟨rfl, _, _, _, _, rfl⟩

/-- The parameter tags make up the first group. -/
theorem groups_eq (h : s.Documents c xs v j m before after) : (Block.ofSpan s c).groups s =
    [⟨0, paramTags c xs v j m⟩, ⟨1, [returnTag (j + 7) (m + 1) (j + 18)]⟩] := by
  have hs := h.sound.toPlaced
  have hsplit : (Block.ofSpan s c).tags.splitBy (Block.follows s) =
      [paramTags c xs v j m, [returnTag (j + 7) (m + 1) (j + 18)]] := by
    rw [h.tags_eq, paramTags, List.splitBy_append_cons _ fun t ht => ?_,
      List.splitBy_of_isChain (by simp) (h.rows.isChain hs)]
    · rfl
    · obtain rfl : tag j m (j + 13) v = t := by simpa using ht
      rw [(h.rows.row_last hs).follows hs rfl]
      simp [returnTag]
  rw [Block.groups, hsplit]
  rfl

/-- The first parameter tag of the comment is the one behind the short description. -/
theorem head?_paramTags (h : s.Documents c xs v j m before after) :
    ∃ t, (paramTags c xs v j m).head? = some t ∧ t.token = firstTag c := by
  cases xs with
  | nil =>
      obtain rfl : j = c.opener.index + 10 := h.index
      obtain rfl : m = c.opener.line + 3 := h.line
      exact ⟨_, rfl, rfl⟩
  | cons x xs => exact ⟨_, rfl, rfl⟩

/-- Every group of tags comes two lines below the content in front of it. -/
theorem group_first (h : s.Documents c xs v j m before after) {g : TagGroup}
    (hg : g ∈ (Block.ofSpan s c).groups s) : ∃ t previous, g.tags.head? = some t ∧
      s.lastBetween Kind.isDocContent (c.opener.index + 1) t.token.index = some previous ∧
      t.token.line = previous.line + 2 := by
  have hs := h.sound.toPlaced
  have hindex := h.index
  rw [h.groups_eq] at hg
  rcases List.mem_pair.1 hg with rfl | rfl
  · obtain ⟨t, hhead, htoken⟩ := h.head?_paramTags
    refine ⟨t, shortToken c, hhead, ?_, by rw [htoken]; rfl⟩
    rw [htoken]
    refine hs.lastBetween.2 ⟨(Block.first_spec hs h.ofSpan_first).1, ?_, ?_, rfl,
      fun u hu hlow hhigh => Kind.isDocContent_of_isFiller (h.firstTag_spec.2 u hu hlow hhigh)⟩
    · show c.opener.index + 1 ≤ c.opener.index + 5
      omega
    · show c.opener.index + 5 < c.opener.index + 13
      omega
  · have hrow := h.rows.row_last hs
    refine ⟨_, ⟨.docString, v, j + 5, m, 11⟩, rfl, ?_, rfl⟩
    refine hs.lastBetween.2 ⟨hrow.value, ?_, hrow.lt, rfl,
      fun u hu hlow hhigh => Kind.isDocContent_of_isFiller (hrow.filler u hu hlow hhigh)⟩
    show c.opener.index + 1 ≤ j + 5
    omega

/-- In both groups of tags the values start one column behind the longest name. -/
theorem value_column (h : s.Documents c xs v j m before after) {g : TagGroup}
    (hg : g ∈ (Block.ofSpan s c).groups s) {t : Tag} (ht : t ∈ g.tags) {value : Token}
    (hvalue : t.value = some value) : value.column = t.token.column + g.longest + 1 := by
  rw [h.groups_eq] at hg
  rcases List.mem_pair.1 hg with rfl | rfl
  · rw [TagGroup.longest_eq (fun u hu => (of_mem_paramTags hu).1) ht]
    obtain ⟨-, i, l, stop, x, rfl⟩ := of_mem_paramTags ht
    obtain rfl := Option.some.inj hvalue
    rfl
  · have hnames : ∀ u ∈ [returnTag (j + 7) (m + 1) (j + 18)], u.name = "@return" := by
      simp [returnTag, Tag.name]
    rw [TagGroup.longest_eq hnames ht]
    obtain rfl := List.mem_singleton.1 ht
    obtain rfl := Option.some.inj hvalue
    rfl

/-- The stars of the comment belong in the second column. -/
theorem starColumn_eq (h : s.Documents c xs v j m before after) :
    (Block.ofSpan s c).starColumn s = 2 := by
  have hfirst : (Block.ofSpan s c).star? s =
      some ⟨.docStar, "*", c.opener.index + 3, c.opener.line + 1, 2⟩ := by
    unfold Block.star?
    rw [Block.ofSpan_opener, Block.ofSpan_closer]
    show (s.inside c).find? (·.kind == .docStar) = _
    rw [h.inside_eq]
    rfl
  rw [Block.starColumn, hfirst]

/-- The comment of a documented function is tidy. -/
theorem tidy (h : s.Documents c xs v j m before after) : (Block.ofSpan s c).Tidy s := by
  obtain ⟨hindex, hline, hcolumn⟩ := h.closer_eq
  refine ⟨fun t ht hkind => ?_, ⟨⟨.docString, "void", j + 15, m + 2, 12⟩, ?_, ?_⟩,
    fun t ht hkind _ => ?_, fun short hshort => ?_⟩
  · rw [Block.ofSpan_opener, Block.ofSpan_closer] at ht
    rw [Block.ofSpan_opener]
    rcases h.of_mem_inside ht with hblank | ⟨hstar, -⟩ | ⟨-, hlt⟩
    · rw [hblank] at hkind
      cases hkind
    · rw [hstar] at hkind
      cases hkind
    · omega
  · rw [Block.ofSpan_opener, Block.ofSpan_closer]
    show (s.inside c).reverse.find? _ = _
    rw [h.inside_eq]
    simp only [List.reverse_append, List.append_assoc]
    rfl
  · rw [Block.ofSpan_closer, hline]
  · rw [Block.ofSpan_opener, Block.ofSpan_closer] at ht
    rw [h.starColumn_eq]
    obtain ⟨hhas, hfrom, hto⟩ := h.sound.mem_between.1 ht
    rcases Nat.lt_succ_iff_lt_or_eq.1 hto with hlt | heq
    · rcases h.of_mem_inside (h.sound.mem_between.2 ⟨hhas, hfrom, hlt⟩) with
        hblank | ⟨-, hstar⟩ | ⟨hcontent, -⟩
      · rw [hblank] at hkind
        rcases hkind with hkind | hkind <;> cases hkind
      · exact hstar
      · rcases hkind with hkind | hkind <;> rw [hkind] at hcontent <;> cases hcontent
    · rw [hhas.eq h.frames.closer heq, hcolumn]
  · obtain rfl := Option.some.inj (h.ofSpan_short.symm.trans hshort)
    refine ⟨?_, by simp [h.ofSpan_long], fun g hg => ?_, fun g hg t ht value hvalue =>
      h.value_column hg ht hvalue⟩
    · rw [Block.ofSpan_opener]
      rfl
    · rw [Block.ofSpan_opener]
      exact h.group_first hg

/-- Tags of one name and another tag behind them are grouped. -/
theorem scattered_eq_nil {name : String} {seen ts : List Tag} {last : Tag}
    (hseen : ∀ t ∈ seen, t.name = name) (hts : ∀ t ∈ ts, t.name = name) (hlast : last.name ≠ name) :
    Layout.scattered seen (ts ++ [last]) = [] := by
  induction ts generalizing seen with
  | nil =>
      have hany : (seen.any fun t => t.name == last.name) = false := by
        refine List.any_eq_false.2 fun t ht => ?_
        rw [hseen t ht, beq_iff_eq]
        exact hlast.symm
      simp [Layout.scattered, hany]
  | cons t ts ih =>
      obtain ⟨ht, hts⟩ := List.forall_mem_cons.1 hts
      have hrest : Layout.scattered (t :: seen) (ts ++ [last]) = [] :=
        ih (List.forall_mem_cons.2 ⟨ht, hseen⟩) hts
      cases seen with
      | nil => simp [Layout.scattered, hrest]
      | cons u seen =>
          have hu : u.name = t.name := (hseen u List.mem_cons_self).trans ht.symm
          simp [Layout.scattered, hrest, hu]

/-- No layout rule finds anything in the comment. -/
theorem layout_check (h : s.Documents c xs v j m before after) :
    Layout.check s (Block.ofSpan s c) = [] := by
  have htidy := h.tidy
  have hlower : startsLower (join " " ["Does things."]) = false := by
    rw [join_singleton]
    decide
  have hshort : Layout.shortNotCapital ⟨shortToken c, []⟩ = [] := report_of_not hlower _
  have hparams : (TagGroup.mk 0 (paramTags c xs v j m)).has "@param" = true :=
    List.any_eq_true.2 ⟨tag j m (j + 13) v, by simp [paramTags], rfl⟩
  have hgroups : Layout.paramGroups ((Block.ofSpan s c).groups s) =
      [⟨0, paramTags c xs v j m⟩] := by
    have hreturn : (TagGroup.mk 1 [returnTag (j + 7) (m + 1) (j + 18)]).has "@param" = false := rfl
    simp [h.groups_eq, Layout.paramGroups, Layout.paramTag, hparams, hreturn]
  have hparamGroup : Layout.paramGroup ((Block.ofSpan s c).groups s) = [] := by
    rw [Layout.paramGroup, hgroups]
    rfl
  have hparamNotFirst : Layout.paramNotFirst ((Block.ofSpan s c).groups s) = [] := by
    obtain ⟨t, hhead, -⟩ := h.head?_paramTags
    rw [Layout.paramNotFirst, hgroups]
    simp only [List.head?_cons, hhead]
    rfl
  have hgrouped : Layout.tagsNotGrouped (Block.ofSpan s c) = [] := by
    have hnames : ∀ t ∈ paramTags c xs v j m, t.name = "@param" := fun t ht =>
      (of_mem_paramTags ht).1
    rw [Layout.tagsNotGrouped, h.tags_eq, scattered_eq_nil (by simp) hnames
      (by simp [returnTag, Tag.name])]
    rfl
  rw [Layout.check_of_tidy h.sound h.frames h.ofSpan_first htidy,
    Layout.checkDescriptions_of_tidy h.sound h.frames h.ofSpan_short (htidy.lines _ h.ofSpan_short),
    h.ofSpan_long, hshort, hparamGroup, hparamNotFirst, hgrouped]
  rfl

end Stream.Documents

end PhpDoc
