import PhpDoc.Proofs.Comment.ParamTag
import PhpDoc.Proofs.Comment.Preceding
import PhpDoc.Proofs.Comment.Block
import PhpDoc.Proofs.Rule.Violation
import PhpDoc.Rule.Function
import PhpDoc.Rule.Layout
import PhpDoc.Rule.Property

/-!
# Where violations are anchored

A violation names the token at which it was found by its index and its place. The rules are gone
through family by family: what they report about a comment is anchored at tokens of the stream.
-/

namespace PhpDoc

namespace Violation

/-- The violation names a token of the stream, with the place at which it stands. -/
def Anchored (s : Stream) (v : Violation) : Prop :=
  ∃ t, s.Has t ∧ v.index = t.index ∧ v.line = t.line ∧ v.column = t.column

variable {s : Stream} {v w : Violation} {condition : Bool}
variable {family code message : String} {t : Token} {c : Changeset}

/-- An error that is reported at a token of the stream is anchored. -/
theorem anchored_error (ht : s.Has t) : (error family code message t).Anchored s :=
  ⟨t, ht, rfl, rfl, rfl⟩

/-- A warning that is reported at a token of the stream is anchored. -/
theorem anchored_warning (ht : s.Has t) : (warning family code message t).Anchored s :=
  ⟨t, ht, rfl, rfl, rfl⟩

/-- A finding with a fix that is reported at a token of the stream is anchored. -/
theorem anchored_fixed (ht : s.Has t) : (fixed family code message t c).Anchored s :=
  ⟨t, ht, rfl, rfl, rfl⟩

/-- What is reported alone is anchored if it is. -/
theorem anchored_of_mem_singleton (h : w ∈ [v]) (hv : v.Anchored s) : w.Anchored s := by
  rw [List.mem_singleton.1 h]
  exact hv

/-- What is reported under a condition is anchored if it is. -/
theorem anchored_of_mem_report (h : w ∈ report condition v) (hv : v.Anchored s) :
    w.Anchored s := by
  rw [(mem_report.1 h).2]
  exact hv

end Violation

open Violation

variable {s : Stream} {c : CommentSpan} {v : Violation}

namespace Block

/-- The open marker of a block is a token of the stream. -/
theorem has_opener (hc : s.Frames c) : s.Has (ofSpan s c).opener := by
  rw [ofSpan_opener]
  exact hc.opener

/-- The close marker of a block is a token of the stream. -/
theorem has_closer (hc : s.Frames c) : s.Has (ofSpan s c).closer := by
  rw [ofSpan_closer]
  exact hc.closer

/-- The tags of a block stand at tokens of the stream. -/
theorem has_of_mem_tags (hs : s.Placed) (hc : s.Frames c) {t : Tag}
    (ht : t ∈ (ofSpan s c).tags) : s.Has t.token :=
  (fits_of_mem_tags hs hc ht).token

/-- The tags of a block with a name stand at tokens of the stream. -/
theorem has_of_mem_tagsNamed (hs : s.Placed) (hc : s.Frames c) {name : String} {t : Tag}
    (ht : t ∈ (ofSpan s c).tagsNamed name) : s.Has t.token :=
  has_of_mem_tags hs hc (List.mem_filter.1 ht).1

end Block

open Block

/-! ## The layout of doc comments -/

namespace Layout

variable {b : Block}

/-- The lines in front of the tags are reported at the first tag. -/
theorem anchored_spacingBeforeTags {t : Tag} (ht : s.Has t.token)
    (h : v ∈ spacingBeforeTags s b t) : v.Anchored s := by
  unfold spacingBeforeTags at h
  split at h
  · cases h
  · exact anchored_of_mem_report h (anchored_fixed ht)

/-- Scattered parameter tags are reported at the tags. -/
theorem anchored_paramGroup {groups : List TagGroup}
    (hgroups : ∀ g ∈ groups, ∀ t ∈ g.tags, s.Has t.token) (h : v ∈ paramGroup groups) :
    v.Anchored s := by
  unfold paramGroup paramGroups at h
  obtain ⟨g, hg, hv⟩ := List.mem_flatMap.1 h
  obtain ⟨t, ht, rfl⟩ := List.mem_map.1 hv
  exact anchored_error
    (hgroups g (List.mem_filter.1 (List.mem_of_mem_drop hg)).1 t (List.mem_filter.1 ht).1)

/-- A parameter group that is not the first group is reported at its first tag. -/
theorem anchored_paramNotFirst {groups : List TagGroup}
    (hgroups : ∀ g ∈ groups, ∀ t ∈ g.tags, s.Has t.token) (h : v ∈ paramNotFirst groups) :
    v.Anchored s := by
  unfold paramNotFirst paramGroups at h
  split at h
  · next g hg =>
      split at h
      · next t ht =>
          have hmem := (List.mem_filter.1 (List.mem_of_head? hg)).1
          exact anchored_of_mem_report h (anchored_error (hgroups g hmem t (List.mem_of_head? ht)))
      · cases h
  · cases h

/-- The lines behind a group are reported at its last tag. -/
theorem anchored_spacingAfterGroup {last next : Tag} (hlast : s.Has last.token)
    (h : v ∈ spacingAfterGroup s b last next) : v.Anchored s := by
  unfold spacingAfterGroup at h
  split at h
  · cases h
  · exact anchored_of_mem_report h (anchored_fixed hlast)

/-- A misaligned value is reported at its padding, or at the value where there is none. -/
theorem anchored_tagValueIndent {g : TagGroup} (hg : ∀ t ∈ g.tags, t.Fits s c)
    {m : Misalignment} (hm : m ∈ g.misaligned) : (tagValueIndent m).Anchored s := by
  obtain ⟨t, ht, hm⟩ := TagGroup.mem_misaligned.1 hm
  obtain ⟨value, hvalue, -, rfl⟩ := TagGroup.misalignment?_eq_some.1 hm
  unfold tagValueIndent
  simp only
  split
  · next blank hblank => exact anchored_fixed ((hg t ht).padding blank hblank).1
  · exact anchored_fixed ((hg t ht).value value hvalue).1

/-- All that is reported of groups is anchored. -/
theorem anchored_groupSpacing {gs : List TagGroup}
    (hgs : ∀ g ∈ gs, ∀ t ∈ g.tags, t.Fits s c) (h : v ∈ groupSpacing s b gs) : v.Anchored s := by
  induction gs with
  | nil => cases h
  | cons g gs ih =>
      obtain ⟨hg, hgs⟩ := List.forall_mem_cons.1 hgs
      rw [groupSpacing, List.mem_append, List.mem_append] at h
      rcases h with (h | h) | h
      · split at h
        · next last next hlast hnext =>
            exact anchored_spacingAfterGroup (hg last (List.mem_of_getLast? hlast)).token h
        · cases h
      · obtain ⟨m, hm, rfl⟩ := List.mem_map.1 h
        exact anchored_tagValueIndent hg hm
      · exact ih hgs h

/-- Scattered tags are tags of the block. -/
theorem scattered_subset (seen ts : List Tag) : scattered seen ts ⊆ ts := by
  induction ts generalizing seen with
  | nil => exact List.Subset.refl _
  | cons t ts ih =>
      intro u hu
      unfold scattered at hu
      simp only at hu
      split at hu
      · rcases List.mem_cons.1 hu with rfl | hu
        · exact List.mem_cons_self
        · exact List.mem_cons_of_mem _ (ih _ hu)
      · exact List.mem_cons_of_mem _ (ih _ hu)

/-- All that is reported of tags is anchored. -/
theorem anchored_checkTags (hs : s.Placed) (hc : s.Frames c)
    (h : v ∈ checkTags s (ofSpan s c)) : v.Anchored s := by
  have hfits : ∀ g ∈ (ofSpan s c).groups s, ∀ t ∈ g.tags, t.Fits s c :=
    fun g hg t ht => fits_of_mem_tags hs hc (mem_tags_of_groups hg ht)
  have hhas : ∀ g ∈ (ofSpan s c).groups s, ∀ t ∈ g.tags, s.Has t.token :=
    fun g hg t ht => (hfits g hg t ht).token
  unfold checkTags at h
  split at h
  · cases h
  · next first ts htags =>
      simp only [List.mem_append] at h
      rcases h with (((h | h) | h) | h) | h
      · exact anchored_spacingBeforeTags
          (has_of_mem_tags hs hc (htags ▸ List.mem_cons_self)) h
      · exact anchored_paramGroup hhas h
      · exact anchored_groupSpacing hfits h
      · exact anchored_paramNotFirst hhas h
      · obtain ⟨t, ht, rfl⟩ := List.mem_map.1 h
        exact anchored_error (has_of_mem_tags hs hc (scattered_subset [] _ ht))

/-- All that is reported of descriptions and tags is anchored. -/
theorem anchored_checkDescriptions (hs : s.Placed) (hc : s.Frames c)
    (h : v ∈ checkDescriptions s (ofSpan s c)) : v.Anchored s := by
  unfold checkDescriptions at h
  split at h
  · exact anchored_of_mem_singleton h (anchored_error (has_opener hc))
  · next short hshort =>
      have hfirst := (mem_short_strings hs hc hshort (List.mem_cons_self)).1
      simp only [List.mem_append] at h
      rcases h with ((h | h) | h) | h
      · exact anchored_of_mem_report h (anchored_fixed hfirst)
      · exact anchored_of_mem_report h (anchored_error hfirst)
      · split at h
        · next long hlong =>
            have hlongFirst := (long_first hs hc hshort hlong).1
            rcases List.mem_append.1 h with h | h
            · exact anchored_of_mem_report h (anchored_fixed hlongFirst)
            · exact anchored_of_mem_report h (anchored_error hlongFirst)
        · cases h
      · exact anchored_checkTags hs hc h

/-- All that is reported of a block with content is anchored. -/
theorem anchored_checkContent (hs : s.Placed) (hc : s.Frames c) {first : Token}
    (h : v ∈ checkContent s (ofSpan s c) first) : v.Anchored s := by
  unfold checkContent at h
  rcases List.mem_append.1 h with h | h
  · exact anchored_of_mem_report h (anchored_fixed (has_opener hc))
  · split at h
    · cases h
    · simp only [List.mem_append] at h
      rcases h with (h | h) | h
      · exact anchored_of_mem_report h (anchored_fixed (has_closer hc))
      · exact anchored_of_mem_report h (anchored_fixed (has_closer hc))
      · exact anchored_checkDescriptions hs hc h

/-- A star is reported at its own token. -/
theorem anchored_starViolation {t : Token} (ht : s.Has t) (h : starViolation? s b t = some v) :
    v.Anchored s := by
  unfold starViolation? at h
  split at h
  · cases h
  · split at h
    · cases h
    · cases h
      exact anchored_fixed ht

/-- Every finding about the layout of a doc comment is anchored. -/
theorem anchored_check (hs : s.Placed) (hc : s.Frames c) (h : v ∈ check s (ofSpan s c)) :
    v.Anchored s := by
  unfold check at h
  split at h
  · exact anchored_of_mem_singleton h (anchored_error (has_opener hc))
  · rcases List.mem_append.1 h with h | h
    · exact anchored_checkContent hs hc h
    · obtain ⟨t, ht, hv⟩ := List.mem_filterMap.1 h
      exact anchored_starViolation (hs.has_of_mem_filter ht) hv

end Layout

/-! ## The comments of functions -/

namespace FunctionRule

variable {p : ParamTag} {f : Function}

/-- What a parameter tag lacks is reported at the tag. -/
theorem anchored_missingParts (hp : s.Has p.tag.token) (h : v ∈ missingParts p) :
    v.Anchored s := by
  unfold missingParts at h
  split at h
  · exact anchored_of_mem_singleton h (anchored_error hp)
  · split at h
    · exact anchored_of_mem_singleton h (anchored_error hp)
    · exact anchored_of_mem_singleton h (anchored_error hp)
    · cases h

/-- The declared type of a parameter is reported at the function. -/
theorem anchored_checkHint (hf : s.Has f.token) {scalarHints : Bool} {declared : Parameter}
    (h : v ∈ checkHint scalarHints f p declared) : v.Anchored s := by
  unfold checkHint at h
  simp only at h
  split at h
  · split at h
    · exact anchored_of_mem_singleton h (anchored_warning hf)
    · exact anchored_of_mem_singleton h (anchored_error hf)
  · split at h
    · exact anchored_of_mem_singleton h (anchored_error hf)
    · split at h
      · exact anchored_of_mem_singleton h (anchored_error hf)
      · cases h

/-- The documented type of a parameter is reported at its tag or at the function. -/
theorem anchored_checkType (hp : s.Has p.tag.token) (hf : s.Has f.token) {scalarHints : Bool}
    {declared : Option Parameter} (h : v ∈ checkType scalarHints f p declared) :
    v.Anchored s := by
  unfold checkType at h
  simp only at h
  split at h
  · cases h
  · split at h
    · exact anchored_of_mem_singleton h (anchored_fixed hp)
    · split at h
      · cases h
      · cases declared with
        | none =>
            rw [Option.elim_none] at h
            cases h
        | some d =>
            rw [Option.elim_some] at h
            exact anchored_checkHint hf h

/-- The name in a parameter tag is reported at the tag. -/
theorem anchored_checkCounterpart (hp : s.Has p.tag.token) {declared : Option Parameter}
    (h : v ∈ checkCounterpart p declared) : v.Anchored s := by
  unfold checkCounterpart at h
  split at h
  · unfold checkName at h
    simp only at h
    split at h
    · cases h
    · split at h
      · exact anchored_of_mem_singleton h (anchored_error hp)
      · exact anchored_of_mem_singleton h (anchored_error hp)
  · exact anchored_of_mem_report h (anchored_error hp)

/-- The description in a parameter tag is reported at the tag. -/
theorem anchored_checkDescription (hp : s.Has p.tag.token) {longest : Nat}
    (h : v ∈ checkDescription s longest p) : v.Anchored s := by
  unfold checkDescription at h
  split at h
  · cases h
  · simp only [List.mem_append] at h
    rcases h with (h | h) | h
    · exact anchored_of_mem_report h (anchored_fixed hp)
    · exact anchored_of_mem_report h (anchored_error hp)
    · exact anchored_of_mem_report h (anchored_error hp)

/-- All that is reported of a parameter tag is anchored. -/
theorem anchored_checkParam (hp : s.Has p.tag.token) (hf : s.Has f.token) {scalarHints : Bool}
    {ps : List ParamTag} {declared : Option Parameter}
    (h : v ∈ checkParam scalarHints s f ps p declared) : v.Anchored s := by
  unfold checkParam at h
  split at h
  · cases h
  · rcases List.mem_append.1 h with h | h
    · exact anchored_checkType hp hf h
    · split at h
      · cases h
      · simp only [List.mem_append] at h
        rcases h with (h | h) | h
        · exact anchored_of_mem_report h (anchored_fixed hp)
        · exact anchored_checkCounterpart hp h
        · exact anchored_checkDescription hp h

/-- All that is reported of parameters is anchored. -/
theorem anchored_checkParams (hs : s.Placed) (hc : s.Frames c) (hf : s.Has f.token)
    {scalarHints : Bool} (h : v ∈ checkParams scalarHints s (ofSpan s c) f) : v.Anchored s := by
  have hparam : ∀ p ∈ (ofSpan s c).paramTags s, s.Has p.tag.token := by
    intro p hp
    obtain ⟨t, ht, -, htag⟩ := ParamTag.exists_of_mem_paramTags hp
    exact htag ▸ has_of_mem_tags hs hc ht
  unfold checkParams at h
  simp only [List.mem_append] at h
  rcases h with (h | h) | h
  · obtain ⟨p, hp, hv⟩ := List.mem_flatMap.1 h
    exact anchored_missingParts (hparam p hp) hv
  · obtain ⟨⟨p, i⟩, hp, hv⟩ := List.mem_flatMap.1 h
    exact anchored_checkParam (hparam p (List.fst_mem_of_mem_zipIdx hp)) hf hv
  · unfold missingTags at h
    obtain ⟨name, -, rfl⟩ := List.mem_map.1 h
    exact anchored_error (has_opener hc)

/-- The exit of a body is one of its tokens. -/
theorem mem_of_find_eq_bare {resume : Nat} {ts : List Token} {t : Token}
    (h : Exit.find s resume ts = .bare t) : t ∈ ts := by
  fun_induction Exit.find s resume ts with
  | case1 => cases h
  | case2 resume u us hlt ih => exact List.mem_cons_of_mem _ (ih h)
  | case3 resume u us hlt hnested ih => exact List.mem_cons_of_mem _ (ih h)
  | case4 resume u us hlt hnested hexit =>
      unfold Exit.ofToken at h
      split at h
      · split at h
        · cases h
          exact List.mem_cons_self
        · cases h
      · cases h
  | case5 resume u us hlt hnested hexit ih => exact List.mem_cons_of_mem _ (ih h)

/-- An exit without a value is a token of the stream. -/
theorem has_of_firstExit (hs : s.Placed) {t : Token} (h : f.firstExit s = .bare t) : s.Has t := by
  unfold Function.firstExit at h
  split at h
  · exact (hs.mem_between.1 (mem_of_find_eq_bare h)).1
  · cases h

/-- The exit of a function is reported at the return tag or at the exit. -/
theorem anchored_checkExit (hs : s.Placed) {t : Tag} (ht : s.Has t.token) {type : String}
    (h : v ∈ checkExit s f t type) : v.Anchored s := by
  unfold checkExit at h
  split at h
  · cases h
  · split at h
    · exact anchored_of_mem_report h (anchored_error ht)
    · exact anchored_of_mem_report h (anchored_error ht)
    · next exit hexit =>
        exact anchored_of_mem_report h (anchored_error (has_of_firstExit hs hexit))

/-- All that is reported of return tags is anchored. -/
theorem anchored_checkReturn (hs : s.Placed) (hc : s.Frames c)
    (h : v ∈ checkReturn s (ofSpan s c) f) : v.Anchored s := by
  unfold checkReturn at h
  split at h
  · next second _ htags =>
      have hmem : second ∈ (ofSpan s c).tagsNamed "@return" := by
        rw [htags]
        exact List.mem_cons_of_mem _ List.mem_cons_self
      exact anchored_of_mem_singleton h (anchored_error (has_of_mem_tagsNamed hs hc hmem))
  · split at h
    · cases h
    · split at h
      · exact anchored_of_mem_singleton h (anchored_error (has_closer hc))
      · next t ts htags =>
          have ht := has_of_mem_tagsNamed hs hc (htags ▸ List.mem_cons_self :
            t ∈ (ofSpan s c).tagsNamed "@return")
          split at h
          · exact anchored_of_mem_singleton h (anchored_error ht)
          · rcases List.mem_append.1 h with h | h
            · exact anchored_of_mem_report h (anchored_fixed ht)
            · exact anchored_checkExit hs ht h

/-- All that is reported of throws tags is anchored. -/
theorem anchored_checkThrows (hs : s.Placed) (hc : s.Frames c)
    (h : v ∈ checkThrows s (ofSpan s c)) : v.Anchored s := by
  obtain ⟨t, ht, hv⟩ := List.mem_flatMap.1 h
  have hfits := fits_of_mem_tags hs hc (List.mem_filter.1 ht).1
  split at hv
  · exact anchored_of_mem_singleton hv (anchored_error hfits.token)
  · next value hvalue =>
      have hhas := (hfits.value value hvalue).1
      unfold checkThrown at hv
      split at hv
      · exact anchored_of_mem_singleton hv (anchored_error hfits.token)
      · exact anchored_of_mem_singleton hv (anchored_error hfits.token)
      · simp only [List.mem_append] at hv
        rcases hv with hv | hv
        · exact anchored_of_mem_report hv (anchored_error hhas)
        · exact anchored_of_mem_report hv (anchored_error hhas)

/-- Every finding about the comment of a function is anchored. -/
theorem anchored_checkComment (hs : s.Placed) (hc : s.Frames c) (hf : s.Has f.token)
    {scalarHints : Bool} (h : v ∈ checkComment scalarHints s f c.closer c) : v.Anchored s := by
  unfold checkComment at h
  simp only [List.mem_append] at h
  rcases h with (((h | h) | h) | h) | h
  · exact anchored_of_mem_report h (anchored_fixed hc.closer)
  · obtain ⟨t, ht, hv⟩ := List.mem_flatMap.1 h
    exact anchored_of_mem_report hv (anchored_error (has_of_mem_tagsNamed hs hc ht))
  · exact anchored_checkParams hs hc hf h
  · exact anchored_checkReturn hs hc h
  · exact anchored_checkThrows hs hc h

end FunctionRule

/-! ## The comments of member variables -/

namespace PropertyRule

/-- The tags without the first `@var` tag are tags of the block. -/
theorem otherTags_subset (ts : List Tag) : otherTags ts ⊆ ts := by
  induction ts with
  | nil => exact List.Subset.refl _
  | cons t ts ih =>
      intro u hu
      rw [otherTags] at hu
      split at hu
      · exact List.mem_cons_of_mem _ hu
      · rcases List.mem_cons.1 hu with rfl | hu
        · exact List.mem_cons_self
        · exact List.mem_cons_of_mem _ (ih hu)

/-- A tag in the comment of a member variable is reported at its token. -/
theorem anchored_checkTag {t : Tag} (ht : s.Has t.token) (h : v ∈ checkTag t) :
    v.Anchored s := by
  unfold checkTag at h
  split at h
  · exact anchored_of_mem_singleton h (anchored_error ht)
  · split at h
    · exact anchored_of_mem_report h (anchored_error ht)
    · exact anchored_of_mem_singleton h (anchored_warning ht)

/-- All that is reported of a `@var` tag is anchored. -/
theorem anchored_checkVar {b : Block} {t : Tag} (ht : t.Fits s c) (h : v ∈ checkVar b t) :
    v.Anchored s := by
  unfold checkVar at h
  rcases List.mem_append.1 h with h | h
  · exact anchored_of_mem_report h (anchored_error ht.token)
  · split at h
    · exact anchored_of_mem_singleton h (anchored_error ht.token)
    · next value hvalue =>
        exact anchored_of_mem_report h (anchored_fixed (ht.value value hvalue).1)

/-- Every finding about the comment of a member variable is anchored. -/
theorem anchored_checkComment (hs : s.Placed) (hc : s.Frames c) (h : v ∈ checkComment s c) :
    v.Anchored s := by
  unfold checkComment at h
  rcases List.mem_append.1 h with h | h
  · obtain ⟨t, ht, hv⟩ := List.mem_flatMap.1 h
    exact anchored_checkTag (has_of_mem_tags hs hc (otherTags_subset _ ht)) hv
  · split at h
    · exact anchored_of_mem_singleton h (anchored_error (has_closer hc))
    · next t ht =>
        exact anchored_checkVar (fits_of_mem_tags hs hc (List.mem_of_find?_eq_some ht)) h

end PropertyRule

end PhpDoc
