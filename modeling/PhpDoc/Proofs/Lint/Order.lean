import Mathlib.Data.Finset.Card
import PhpDoc.Proofs.Lint.Tidy

/-!
# The order of tags

Two rules are about the order of the tags of a block. One remembers the names it has seen and looks
at the tag right before; the other searches the groups for the first one with a parameter. What
they find is said here without the search: `scattered` finds nothing exactly when all tags of a name
stand together, and otherwise one tag for every run of equal names that is not the first one of its
name (`length_scattered`); the parameter rules find nothing exactly when all parameters stand in the
first group (`paramRules_eq_nil_iff`). `tagOrder_reported` says so of what is reported for a block.
-/

namespace PhpDoc

/-! ## Runs of equal entries -/

section Runs

variable {α : Type} [DecidableEq α] {ns before after : List α} {n : α}

/-- Between two entries equal to `n` there are only such entries. -/
def Together (n : α) (ns : List α) : Prop :=
  ∀ i j k : Nat, i < j → j < k → ns[i]? = some n → ns[k]? = some n → ns[j]? = some n

/-- The entry is one of those before, but not of the last run of them. -/
def Returns (before : List α) (n : α) : Prop :=
  n ∈ before ∧ before.getLast? ≠ some n

/-- Whether a name returns is found by looking at the names before it. -/
instance : Decidable (Returns before n) :=
  inferInstanceAs (Decidable (_ ∧ _))

/-- The maximal runs of equal entries. -/
def runs (ns : List α) : List (List α) :=
  ns.splitBy (· == ·)

/-- An entry goes on with the last run when it is equal to the last entry. -/
theorem runs_concat (hlast : ns.getLast? = some n) :
    ∃ parts last, runs ns = parts ++ [last] ∧ runs (ns ++ [n]) = parts ++ [last ++ [n]] := by
  unfold runs
  have hne : ns ≠ [] := by
    rintro rfl
    cases hlast
  obtain ⟨parts, last, hparts⟩ : ∃ parts last, ns.splitBy (· == ·) = parts ++ [last] := by
    rcases List.eq_nil_or_concat (ns.splitBy (· == ·)) with hnil | ⟨parts, last, heq⟩
    · exact absurd hnil (List.splitBy_ne_nil.2 hne)
    · exact ⟨parts, last, by rw [heq, List.concat_eq_append]⟩
  obtain ⟨hflat, hnil, hchain, hapart⟩ := List.splitBy_eq_iff.1 hparts
  have hlastNe : last ≠ [] := fun h => hnil (by simp [h])
  have hgetLast : last.getLast? = some n := by
    rwa [hflat, List.flatten_append, List.flatten_singleton,
      List.getLast?_append_of_ne_nil _ hlastNe] at hlast
  refine ⟨parts, last, hparts, List.splitBy_eq_iff.2 ⟨by simp [hflat], ?_, ?_, ?_⟩⟩
  · simp only [List.mem_append, List.mem_singleton, not_or] at hnil ⊢
    exact ⟨hnil.1, by simp⟩
  · intro part hpart
    rcases List.mem_append.1 hpart with hpart | hpart
    · exact hchain part (List.mem_append_left _ hpart)
    · rw [List.mem_singleton.1 hpart]
      refine List.isChain_append.2 ⟨hchain last (by simp), List.isChain_singleton _, ?_⟩
      intro x hx y hy
      rw [hgetLast] at hx
      simp_all
  · obtain ⟨hfront, -, hmeet⟩ := List.isChain_append.1 hapart
    refine List.isChain_append.2 ⟨hfront, List.isChain_singleton _, ?_⟩
    intro x hx y hy
    obtain ⟨hxne, hlastNe, hbreak⟩ := hmeet x hx last (by simp)
    obtain rfl : last ++ [n] = y := by simpa using hy
    exact ⟨hxne, by simp, by rwa [List.head_append_of_ne_nil hlastNe]⟩

/-- An entry goes on with the last run, or it starts one. -/
theorem length_runs_concat (ns : List α) (n : α) :
    (runs (ns ++ [n])).length = (runs ns).length + if ns.getLast? = some n then 0 else 1 := by
  split
  · next hlast =>
      obtain ⟨parts, last, hruns, hconcat⟩ := runs_concat hlast
      rw [hruns, hconcat]
      simp
  · next hlast =>
      unfold runs
      rw [List.splitBy_append_cons]
      · simp [List.splitBy, List.splitBy.loop]
      · intro x hx
        rw [beq_eq_false_iff_ne]
        rintro rfl
        exact hlast hx

/-- One more number counts as another one unless it was there before. -/
theorem card_concat (ns : List α) (n : α) :
    (ns ++ [n]).toFinset.card = ns.toFinset.card + if n ∈ ns then 0 else 1 := by
  have hinsert : (ns ++ [n]).toFinset = insert n ns.toFinset := by
    ext x
    simp
  rw [hinsert]
  split
  · next hmem => rw [Finset.insert_eq_of_mem (List.mem_toFinset.2 hmem), Nat.add_zero]
  · next hmem => exact Finset.card_insert_of_notMem fun h => hmem (List.mem_toFinset.1 h)

omit [DecidableEq α] in
/-- All equal entries stand together exactly when none returns. -/
theorem together_iff : (∀ n, Together n ns) ↔
    ∀ before n after, ns = before ++ n :: after → ¬ Returns before n := by
  constructor
  · rintro h before n after rfl ⟨hmem, hlast⟩
    obtain ⟨i, hi, hin⟩ := List.mem_iff_getElem.1 hmem
    rw [List.getLast?_eq_getElem?] at hlast
    have hfirst : (before ++ n :: after)[i]? = some n := by
      rw [List.getElem?_append_left hi, List.getElem?_eq_getElem hi, hin]
    rcases Nat.lt_or_ge i (before.length - 1) with hlt | hge
    · have := h n i (before.length - 1) before.length hlt (by omega) hfirst (by simp)
      rw [List.getElem?_append_left (by omega)] at this
      exact hlast this
    · obtain rfl : i = before.length - 1 := by omega
      rw [List.getElem?_append_left hi] at hfirst
      exact hlast hfirst
  · intro h n i j k hij hjk hi hk
    obtain ⟨d, rfl⟩ := Nat.exists_eq_add_of_le (Nat.le_of_lt hjk)
    clear hjk
    induction d with
    | zero => exact hk
    | succ d ih =>
        -- the entry in front of an equal one is equal to it
        obtain ⟨hlt, hget⟩ := List.getElem?_eq_some_iff.1 hk
        have hsplit : ns = ns.take (j + (d + 1)) ++ n :: ns.drop (j + (d + 1) + 1) := by
          rw [← hget, ← List.drop_eq_getElem_cons, List.take_append_drop]
        have hmem : n ∈ ns.take (j + (d + 1)) := by
          refine List.mem_of_getElem? (i := i) ?_
          rw [List.getElem?_take_of_lt (by omega), hi]
        have hlast := not_not.1 fun hne => h _ _ _ hsplit ⟨hmem, hne⟩
        rw [List.getLast?_eq_getElem?, List.length_take, Nat.min_eq_left (Nat.le_of_lt hlt),
          List.getElem?_take_of_lt (by omega)] at hlast
        exact ih hlast

end Runs

/-! ## The violations of one rule -/

/-- The violations of the rule with the given code. -/
def reported (code : String) (vs : List Violation) : List Violation :=
  vs.filter (·.code == code)

/-- All the violations have one of the codes. -/
def Coded (codes : List String) (vs : List Violation) : Prop :=
  ∀ v ∈ vs, v.code ∈ codes

section Coded

variable {codes : List String} {code : String} {vs ws : List Violation} {v : Violation}

/-- The findings with a code in two rows are those of the first and those of the second. -/
@[simp] theorem reported_append :
    reported code (vs ++ ws) = reported code vs ++ reported code ws :=
  List.filter_append vs ws

/-- No findings have any codes. -/
theorem coded_nil : Coded codes [] := by
  intro v hv
  cases hv

/-- Two rows of findings have the codes exactly when each of them does. -/
theorem coded_append : Coded codes (vs ++ ws) ↔ Coded codes vs ∧ Coded codes ws :=
  List.forall_mem_append

/-- A finding under a condition has the codes if its own code is one of them. -/
theorem coded_report {condition : Bool} (h : v.code ∈ codes) :
    Coded codes (report condition v) := by
  intro w hw
  rwa [(mem_report.1 hw).2]

/-- Findings with other codes have none with this one. -/
theorem Coded.reported_eq_nil (h : Coded codes vs) (hcode : code ∉ codes) :
    reported code vs = [] := by
  refine List.filter_eq_nil_iff.2 fun v hv heq => hcode ?_
  rw [← eq_of_beq heq]
  exact h v hv

/-- Findings with a single code are all reported under it. -/
theorem Coded.reported_eq (h : Coded [code] vs) : reported code vs = vs :=
  List.filter_eq_self.2 fun v hv => beq_iff_eq.2 (List.mem_singleton.1 (h v hv))

end Coded

namespace Layout

variable {s : Stream} {c : CommentSpan} {b : Block} {gs : List TagGroup}

/-! ## Equal tags stand together -/

/-- A tag is found when its name returns. -/
theorem scattered_cons (seen : List Tag) (t : Tag) (ts : List Tag) :
    scattered seen (t :: ts) =
      (if Returns (seen.map (·.name)).reverse t.name then [t] else []) ++
        scattered (t :: seen) ts := by
  have hcondition : (seen.any (·.name == t.name) && seen.head?.map (·.name) != some t.name) =
      decide (Returns (seen.map (·.name)).reverse t.name) := by
    rw [Bool.eq_iff_iff]
    simp [Returns]
  simp only [scattered, hcondition, decide_eq_true_eq]
  split
  · rfl
  · rfl

/-- The tags found are the runs of equal names less the names. -/
theorem length_scattered (seen ts : List Tag) :
    (scattered seen ts).length +
          ((seen.map (·.name)).reverse ++ ts.map (·.name)).toFinset.card +
        (runs (seen.map (·.name)).reverse).length =
      (runs ((seen.map (·.name)).reverse ++ ts.map (·.name))).length +
        (seen.map (·.name)).reverse.toFinset.card := by
  induction ts generalizing seen with
  | nil => simp [scattered, Nat.add_comm]
  | cons t ts ih =>
      have hnext := ih (t :: seen)
      rw [List.map_cons, List.reverse_cons, length_runs_concat, card_concat, List.append_assoc,
        List.singleton_append] at hnext
      rw [scattered_cons, List.length_append, List.map_cons]
      generalize (seen.map (·.name)).reverse = before at hnext ⊢
      -- a name that is new starts a run, and so does one that returns
      by_cases hmem : t.name ∈ before
      · by_cases hlast : before.getLast? = some t.name
        · have hnot : ¬ Returns before t.name := fun h => h.2 hlast
          simp only [if_pos hmem, if_pos hlast, if_neg hnot, List.length_nil] at hnext ⊢
          omega
        · have hreturns : Returns before t.name := ⟨hmem, hlast⟩
          simp only [if_pos hmem, if_neg hlast, if_pos hreturns, List.length_singleton] at hnext ⊢
          omega
      · have hlast : before.getLast? ≠ some t.name := fun h => hmem (List.mem_of_getLast? h)
        have hnot : ¬ Returns before t.name := fun h => hmem h.1
        simp only [if_neg hmem, if_neg hlast, if_neg hnot, List.length_nil] at hnext ⊢
        omega

/-- Nothing is found exactly when no name returns. -/
theorem scattered_eq_nil_iff (seen ts : List Tag) :
    scattered seen ts = [] ↔ ∀ before n after, ts.map (·.name) = before ++ n :: after →
      ¬ Returns ((seen.map (·.name)).reverse ++ before) n := by
  induction ts generalizing seen with
  | nil => simp [scattered]
  | cons t ts ih =>
      rw [scattered_cons, List.append_eq_nil_iff, ih (t :: seen), List.map_cons, List.map_cons,
        List.reverse_cons]
      simp only [List.append_assoc, List.singleton_append]
      constructor
      · rintro ⟨hhead, htail⟩ before n after heq
        cases before with
        | nil =>
            obtain ⟨rfl, -⟩ := List.cons.inj heq
            rw [List.append_nil]
            exact fun h => by simp only [if_pos h, reduceCtorEq] at hhead
        | cons m before =>
            obtain ⟨rfl, hrest⟩ := List.cons.inj heq
            exact htail before n after hrest
      · intro h
        refine ⟨if_neg ?_, fun before n after heq => ?_⟩
        · have := h [] t.name (ts.map (·.name)) rfl
          rwa [List.append_nil] at this
        · exact h (t.name :: before) n after (by rw [heq, List.cons_append])

/-- Nothing is found exactly when all tags of a name stand together. -/
theorem tagsNotGrouped_eq_nil_iff :
    tagsNotGrouped b = [] ↔ ∀ n, Together n (b.tags.map (·.name)) := by
  rw [tagsNotGrouped, List.map_eq_nil_iff, scattered_eq_nil_iff, together_iff]
  rfl

/-! ## Parameters stand in the first group -/

/-- The parameter groups are those groups that have a parameter tag. -/
theorem mem_paramGroups {g : TagGroup} :
    g ∈ paramGroups gs ↔ g ∈ gs ∧ ∃ t ∈ g.tags, t.name = paramTag := by
  simp [paramGroups, TagGroup.has]

/-- All parameters stand in one group when it is the only group with a parameter. -/
theorem paramGroup_eq_nil_iff : paramGroup gs = [] ↔ (paramGroups gs).length ≤ 1 := by
  rw [← List.drop_eq_nil_iff, paramGroup, List.flatMap_eq_nil_iff]
  constructor
  · intro h
    refine List.eq_nil_iff_forall_not_mem.2 fun g hg => ?_
    obtain ⟨-, t, ht, hname⟩ := mem_paramGroups.1 (List.mem_of_mem_drop hg)
    have := List.map_eq_nil_iff.1 (h g hg)
    exact List.filter_eq_nil_iff.1 this t ht (beq_iff_eq.2 hname)
  · intro h g hg
    rw [h] at hg
    cases hg

/-- Nothing is said about the first parameter group exactly when it is the first group. -/
theorem paramNotFirst_eq_nil_iff (hne : ∀ g ∈ gs, g.tags ≠ []) :
    paramNotFirst gs = [] ↔ ∀ g, (paramGroups gs).head? = some g → g.number = 0 := by
  unfold paramNotFirst
  split
  · next g hg =>
      obtain ⟨t, ts, htags⟩ :=
        List.exists_cons_of_ne_nil (hne g (mem_paramGroups.1 (List.mem_of_head? hg)).1)
      simp [htags, hg, report]
  · next hnone => simp [hnone]

/-- Neither rule about parameters finds anything exactly when all of them stand in the group with
number zero. -/
theorem paramRules_eq_nil_iff (hne : ∀ g ∈ gs, g.tags ≠ []) (hnodup : (gs.map (·.number)).Nodup) :
    paramGroup gs = [] ∧ paramNotFirst gs = [] ↔
      ∀ g ∈ gs, ∀ t ∈ g.tags, t.name = paramTag → g.number = 0 := by
  have hall : (∀ g ∈ gs, ∀ t ∈ g.tags, t.name = paramTag → g.number = 0) ↔
      ∀ g ∈ paramGroups gs, g.number = 0 :=
    ⟨fun h g hg => by
      obtain ⟨hmem, t, ht, hname⟩ := mem_paramGroups.1 hg
      exact h g hmem t ht hname,
    fun h g hg t ht hname => h g (mem_paramGroups.2 ⟨hg, t, ht, hname⟩)⟩
  rw [hall, paramGroup_eq_nil_iff, paramNotFirst_eq_nil_iff hne]
  have hnodup : ((paramGroups gs).map (·.number)).Nodup :=
    hnodup.sublist (List.filter_sublist.map _)
  cases hgroups : paramGroups gs with
  | nil => simp
  | cons g rest =>
      cases rest with
      | nil => simp
      | cons g' rest =>
          rw [hgroups] at hnodup
          constructor
          · rintro ⟨hlength, -⟩
            simp at hlength
          · intro h
            have hne : g.number ≠ g'.number := by
              intro heq
              simp [heq] at hnodup
            exact absurd ((h g (by simp)).trans (h g' (by simp)).symm) hne

/-! ## What is reported for a block -/

/-- The rule for scattered parameter groups reports under its code only. -/
theorem coded_paramGroup (gs : List TagGroup) : Coded ["ParamGroup"] (paramGroup gs) := by
  intro v hv
  obtain ⟨g, -, hv⟩ := List.mem_flatMap.1 hv
  obtain ⟨t, -, rfl⟩ := List.mem_map.1 hv
  exact List.mem_singleton_self _

/-- The rule for the first parameter group reports under its code only. -/
theorem coded_paramNotFirst (gs : List TagGroup) :
    Coded ["ParamNotFirst"] (paramNotFirst gs) := by
  unfold paramNotFirst
  split
  · split
    · exact coded_report (List.mem_singleton_self _)
    · exact coded_nil
  · exact coded_nil

/-- The rule for scattered tags reports under its code only. -/
theorem coded_tagsNotGrouped (b : Block) : Coded ["TagsNotGrouped"] (tagsNotGrouped b) := by
  intro v hv
  obtain ⟨t, -, rfl⟩ := List.mem_map.1 hv
  exact List.mem_singleton_self _

/-- The rules about lines and columns. -/
def lineCodes : List String :=
  ["ContentAfterOpen", "ContentBeforeClose", "SpacingAfter", "SpacingBeforeShort",
    "ShortNotCapital", "SpacingBetween", "LongNotCapital", "SpacingBeforeTags",
    "SpacingAfterTagGroup", "TagValueIndent", "SpaceBeforeStar"]

/-- The lines in front of the tags are reported under the codes for lines. -/
theorem coded_spacingBeforeTags (s : Stream) (b : Block) (first : Tag) :
    Coded lineCodes (spacingBeforeTags s b first) := by
  unfold spacingBeforeTags
  split
  · exact coded_nil
  · exact coded_report (by simp [lineCodes, Violation.fixed, Violation.error])

/-- The spacing of groups is reported under the codes for lines. -/
theorem coded_groupSpacing (s : Stream) (b : Block) (gs : List TagGroup) :
    Coded lineCodes (groupSpacing s b gs) := by
  induction gs with
  | nil => exact coded_nil
  | cons g gs ih =>
      refine coded_append.2 ⟨coded_append.2 ⟨?_, ?_⟩, ih⟩
      · split
        · unfold spacingAfterGroup
          split
          · exact coded_nil
          · exact coded_report (by simp [lineCodes, Violation.fixed, Violation.error])
        · exact coded_nil
      · intro v hv
        obtain ⟨m, -, rfl⟩ := List.mem_map.1 hv
        unfold tagValueIndent
        simp only
        split <;> simp [lineCodes, Violation.fixed, Violation.error]

/-- Stars are reported under the codes for lines. -/
theorem coded_spaceBeforeStar (s : Stream) (b : Block) : Coded lineCodes (spaceBeforeStar s b) := by
  intro v hv
  obtain ⟨t, -, hv⟩ := List.mem_filterMap.1 hv
  unfold starViolation? at hv
  split at hv
  · cases hv
  · split at hv
    · cases hv
    · cases hv
      simp [lineCodes, Violation.fixed, Violation.error]

/-- Of what is reported for the tags of a block, only the last three rules are about their order. -/
theorem exists_checkTags_eq (s : Stream) (b : Block) : ∃ above spacing,
    checkTags s b = above ++ paramGroup (b.groups s) ++ spacing ++ paramNotFirst (b.groups s) ++
      tagsNotGrouped b ∧ Coded lineCodes above ∧ Coded lineCodes spacing := by
  unfold checkTags
  split
  · next hnil =>
      refine ⟨[], [], ?_, coded_nil, coded_nil⟩
      simp [Block.groups, tagsNotGrouped, hnil, paramGroup, paramNotFirst, paramGroups, scattered]
  · next first _ _ =>
      exact ⟨spacingBeforeTags s b first, groupSpacing s b (b.groups s), rfl,
        coded_spacingBeforeTags s b first, coded_groupSpacing s b (b.groups s)⟩

/-- Of what is reported for the descriptions and tags, only the part about the tags is about their
order. -/
theorem exists_checkDescriptions_eq (s : Stream) {d : Description} (hshort : b.short = some d) :
    ∃ above, checkDescriptions s b = above ++ checkTags s b ∧ Coded lineCodes above := by
  unfold checkDescriptions
  rw [hshort]
  refine ⟨_, rfl, coded_append.2 ⟨coded_append.2 ⟨?_, ?_⟩, ?_⟩⟩
  · exact coded_report (by simp [lineCodes, Violation.fixed, Violation.error])
  · exact coded_report (by simp [lineCodes, Violation.error])
  · split
    · refine coded_append.2 ⟨?_, ?_⟩
      · exact coded_report (by simp [lineCodes, Violation.fixed, Violation.error])
      · exact coded_report (by simp [lineCodes, Violation.error])
    · exact coded_nil

/-- Of what is reported for a block with a short description, only the part about the tags is about
their order. -/
theorem exists_check_eq (hs : s.Sound) {d : Description}
    (hshort : (Block.ofSpan s c).short = some d) : ∃ above below,
    check s (Block.ofSpan s c) = above ++ checkTags s (Block.ofSpan s c) ++ below ∧
      Coded lineCodes above ∧ Coded lineCodes below := by
  obtain ⟨first, hfirst, -, -⟩ := Block.ofSpan_short.1 hshort
  obtain ⟨-, -, hlt, -, -⟩ := Block.first_spec hs.toPlaced hfirst
  obtain ⟨last, hlast⟩ := exists_lastBetween hs hfirst hlt
  obtain ⟨above, habove, hcoded⟩ := exists_checkDescriptions_eq s hshort
  refine ⟨contentAfterOpen s (Block.ofSpan s c) first ++
    (contentBeforeClose s (Block.ofSpan s c) last ++ spacingAfter s (Block.ofSpan s c) last ++
      above), spaceBeforeStar s (Block.ofSpan s c), ?_, ?_, coded_spaceBeforeStar s _⟩
  · unfold check checkContent
    rw [hfirst, Block.ofSpan_opener, Block.ofSpan_closer, hlast]
    simp only [habove, List.append_assoc]
  · refine coded_append.2 ⟨?_, coded_append.2 ⟨coded_append.2 ⟨?_, ?_⟩, hcoded⟩⟩
    · exact coded_report (by simp [lineCodes, Violation.fixed, Violation.error])
    · exact coded_report (by simp [lineCodes, Violation.fixed, Violation.error])
    · exact coded_report (by simp [lineCodes, Violation.fixed, Violation.error])

/-- A rule that is not about lines or columns is one of the three about the order of tags. -/
theorem reported_check (hs : s.Sound) {d : Description}
    (hshort : (Block.ofSpan s c).short = some d) {code : String} (hcode : code ∉ lineCodes) :
    reported code (check s (Block.ofSpan s c)) =
      reported code (paramGroup ((Block.ofSpan s c).groups s)) ++
        reported code (paramNotFirst ((Block.ofSpan s c).groups s)) ++
        reported code (tagsNotGrouped (Block.ofSpan s c)) := by
  obtain ⟨above, below, hcheck, habove, hbelow⟩ := exists_check_eq hs hshort
  obtain ⟨before, spacing, htags, hbefore, hspacing⟩ := exists_checkTags_eq s (Block.ofSpan s c)
  rw [hcheck, htags]
  simp only [reported_append, habove.reported_eq_nil hcode, hbelow.reported_eq_nil hcode,
    hbefore.reported_eq_nil hcode, hspacing.reported_eq_nil hcode, List.nil_append,
    List.append_nil]

/-- The scattered tags of a comment are reported by the rule for them alone. -/
theorem reported_tagsNotGrouped (hs : s.Sound) {d : Description}
    (hshort : (Block.ofSpan s c).short = some d) :
    reported "TagsNotGrouped" (check s (Block.ofSpan s c)) =
      tagsNotGrouped (Block.ofSpan s c) := by
  rw [reported_check hs hshort (by decide), (coded_paramGroup _).reported_eq_nil (by decide),
    (coded_paramNotFirst _).reported_eq_nil (by decide), (coded_tagsNotGrouped _).reported_eq]
  rfl

/-- The parameter tags of later groups are reported by the rule for them alone. -/
theorem reported_paramGroup (hs : s.Sound) {d : Description}
    (hshort : (Block.ofSpan s c).short = some d) :
    reported "ParamGroup" (check s (Block.ofSpan s c)) =
      paramGroup ((Block.ofSpan s c).groups s) := by
  rw [reported_check hs hshort (by decide), (coded_paramNotFirst _).reported_eq_nil (by decide),
    (coded_tagsNotGrouped _).reported_eq_nil (by decide), (coded_paramGroup _).reported_eq,
    List.append_nil, List.append_nil]

/-- A parameter group that is not the first group is reported by the rule for it alone. -/
theorem reported_paramNotFirst (hs : s.Sound) {d : Description}
    (hshort : (Block.ofSpan s c).short = some d) :
    reported "ParamNotFirst" (check s (Block.ofSpan s c)) =
      paramNotFirst ((Block.ofSpan s c).groups s) := by
  rw [reported_check hs hshort (by decide), (coded_paramGroup _).reported_eq_nil (by decide),
    (coded_tagsNotGrouped _).reported_eq_nil (by decide), (coded_paramNotFirst _).reported_eq,
    List.append_nil, List.nil_append]

/-- The reports of a block are as many as it has more runs of equal names than names. -/
theorem length_tagsNotGrouped (b : Block) :
    (tagsNotGrouped b).length + (b.tags.map (·.name)).toFinset.card =
      (runs (b.tags.map (·.name))).length := by
  have hlength := length_scattered [] b.tags
  rw [tagsNotGrouped, List.length_map]
  simpa [runs] using hlength

/-- What is reported about the order of the tags of a block with a short description: no tag that
is not grouped exactly when all tags of a name stand together, otherwise as many as there are more
runs of equal names than names, and nothing about the parameters exactly when all of them stand in
the first group. -/
theorem tagOrder_reported {text : String} {d : Description} (h : tokenize text = .ok s)
    (hshort : (Block.ofSpan s c).short = some d) :
    let b := Block.ofSpan s c
    let names := b.tags.map (·.name)
    (reported "TagsNotGrouped" (check s b) = [] ↔ ∀ name, Together name names) ∧
    (reported "TagsNotGrouped" (check s b)).length + names.toFinset.card = (runs names).length ∧
    (reported "ParamGroup" (check s b) = [] ∧ reported "ParamNotFirst" (check s b) = [] ↔
      ∀ g ∈ b.groups s, ∀ t ∈ g.tags, t.name = "@param" → g.number = 0) := by
  intro b names
  have hs := Stream.sound_of_tokenize h
  rw [reported_tagsNotGrouped hs hshort, reported_paramGroup hs hshort,
    reported_paramNotFirst hs hshort]
  refine ⟨tagsNotGrouped_eq_nil_iff, length_tagsNotGrouped b, ?_⟩
  refine paramRules_eq_nil_iff (fun g hg => Block.tags_ne_nil_of_groups hg) ?_
  rw [Block.map_number_groups]
  exact List.nodup_range

/-- Four runs of three names are one report, and a parameter behind a blank line is another one. -/
theorem tagOrder_reported_scattered : ∃ s c d,
    tokenize "<?php /** F\n *\n * @a\n * @b\n * @a\n *\n * @param int $x F\n */" = .ok s ∧
    (Block.ofSpan s c).short = some d ∧
    (reported "TagsNotGrouped" (check s (Block.ofSpan s c))).length + 3 = 4 ∧
    ¬ (reported "ParamGroup" (check s (Block.ofSpan s c)) = [] ∧
      reported "ParamNotFirst" (check s (Block.ofSpan s c)) = []) := by
  obtain ⟨s, hs, hany⟩ := Lint.exists_ok_of_any
    (x := tokenize "<?php /** F\n *\n * @a\n * @b\n * @a\n *\n * @param int $x F\n */")
    (p := fun s => s.comments.any fun c => (Block.ofSpan s c).short.isSome &&
      ((Block.ofSpan s c).tags.map (·.name) == ["@a", "@b", "@a", "@param"] &&
        ((Block.ofSpan s c).groups s).any fun g =>
          g.number == 1 && g.tags.any (·.name == "@param")))
    (by decide +kernel)
  obtain ⟨c, -, hc⟩ := List.any_eq_true.1 hany
  simp only [Bool.and_eq_true, List.any_eq_true, beq_iff_eq] at hc
  obtain ⟨hshort, hnames, g, hg, hnumber, t, ht, hname⟩ := hc
  obtain ⟨d, hd⟩ := Option.isSome_iff_exists.1 hshort
  obtain ⟨-, hlength, hparams⟩ := tagOrder_reported hs hd
  refine ⟨s, c, d, hs, hd, ?_, fun hnone => ?_⟩
  · rw [hnames] at hlength
    exact hlength
  · have := hparams.1 hnone g hg t ht hname
    omega

end Layout

end PhpDoc
