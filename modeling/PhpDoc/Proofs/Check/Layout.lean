import PhpDoc.Check.Layout
import PhpDoc.Proofs.Check.Reports

/-!
# What the check of a layout reports

The walk over a doc comment reports the layout findings of its block and nothing else. Each theorem
follows the walk of one rule. Only the walks over the groups and over the tags carry something from
one member to the next: the first group with parameter tags, and the tags so far.
-/

namespace PhpDoc.Check

variable {s : Stream} {config : Config} {b : Block}

/-! ## Markers and descriptions -/

/-- Content behind the open marker is reported by the rule for it. -/
theorem reports_contentAfterOpen (b : Block) (first : Token) :
    Reports s config (contentAfterOpen b first) () (Layout.contentAfterOpen s b first) :=
  .readStream (.reportWhen _ _)

/-- Content in front of the close marker is reported by the rule for it. -/
theorem reports_contentBeforeClose (b : Block) (last : Token) :
    Reports s config (contentBeforeClose b last) () (Layout.contentBeforeClose s b last) :=
  .readStream (.reportWhen _ _)

/-- Blank lines at the end are reported by the rule for them. -/
theorem reports_spacingAfter (b : Block) (last : Token) :
    Reports s config (spacingAfter b last) () (Layout.spacingAfter s b last) :=
  .readStream (.reportWhen _ _)

/-- Lines in front of the short description are reported by the rule for them. -/
theorem reports_spacingBeforeShort (b : Block) (short : Description) :
    Reports s config (spacingBeforeShort b short) () (Layout.spacingBeforeShort s b short) :=
  .readStream (.reportWhen _ _)

/-- The lines between the descriptions are reported by the rule for them. -/
theorem reports_spacingBetween (short long : Description) :
    Reports s config (spacingBetween short long) () (Layout.spacingBetween s short long) :=
  .readStream (.reportWhen _ _)

/-- Without a long description there is nothing to report of it. -/
theorem reports_longDescription (b : Block) (short : Description) :
    Reports s config (longDescription b short) ()
      (match b.long with
        | some long => Layout.spacingBetween s short long ++ Layout.longNotCapital long
        | none => []) := by
  unfold longDescription
  cases b.long with
  | none => exact .pure ()
  | some long => exact (reports_spacingBetween short long).bind (.reportWhen _ _)

/-! ## Tags -/

/-- The change between two tags is computed from the stream, without a report. -/
theorem reports_singleBlankLine (previous following : Token) (indent : String) :
    Reports s config (singleBlankLine previous following indent)
      (Layout.singleBlankLine s previous following indent) [] :=
  .readStream (.pure _)

/-- The lines in front of the first tag are reported by the rule for them. -/
theorem reports_spacingBeforeTags (b : Block) (first : Tag) :
    Reports s config (spacingBeforeTags b first) () (Layout.spacingBeforeTags s b first) := by
  refine .readStream ?_
  unfold Layout.spacingBeforeTags
  cases s.lastBetween (!·.isFiller) b.opener.index first.token.index with
  | none => exact .pure ()
  | some previous => exact (reports_singleBlankLine _ _ _).computed (.reportWhen _ _)

/-- The lines behind a group are reported by the rule for them. -/
theorem reports_spacingAfterGroup (b : Block) (last next : Tag) :
    Reports s config (spacingAfterGroup b last next) () (Layout.spacingAfterGroup s b last next) := by
  refine .readStream ?_
  unfold Layout.spacingAfterGroup
  cases s.lastBetween Kind.isDocContent b.opener.index next.token.index with
  | none => exact .pure ()
  | some previous => exact (reports_singleBlankLine _ _ _).computed (.reportWhen _ _)

/-- A misaligned value is reported by the rule for it. -/
theorem reports_valueIndent (m : Misalignment) :
    Reports s config (valueIndent m) () [Layout.tagValueIndent m] := by
  unfold valueIndent Layout.tagValueIndent
  cases m.tag.padding with
  | none => exact .report _
  | some blank => exact .report _

/-- The walk over the groups reports the parameter tags of all groups but the first one with such
tags, and finds that group. -/
theorem reports_paramGroups (first : Option TagGroup) (groups : List TagGroup) :
    Reports s config (paramGroups first groups) (first.or (Layout.paramGroups groups).head?)
      (((Layout.paramGroups groups).drop (if first.isSome then 0 else 1)).flatMap fun g =>
        (g.tags.filter (·.name == Layout.paramTag)).map fun t =>
          .error Layout.family "ParamGroup"
            "Parameter tags must be grouped together in a doc comment" t.token) := by
  induction groups generalizing first with
  | nil => simpa [paramGroups, Layout.paramGroups] using Reports.pure first
  | cons g gs ih =>
      by_cases hparam : g.has Layout.paramTag = true
      · have hgroups : Layout.paramGroups (g :: gs) = g :: Layout.paramGroups gs :=
          List.filter_cons_of_pos hparam
        rw [hgroups]
        cases first with
        | none =>
            have hrest := ih (some g)
            simpa [paramGroups, hparam] using hrest
        | some first =>
            have hrest := ih (some first)
            have htags : Reports s config
                ((g.tags.filter (·.name == Layout.paramTag)).forM paramGroup) () _ :=
              .forM fun t _ => .report _
            rw [← List.map_eq_flatMap] at htags
            simpa [paramGroups, hparam] using htags.bind hrest
      · have hgroups : Layout.paramGroups (g :: gs) = Layout.paramGroups gs :=
          List.filter_cons_of_neg hparam
        rw [hgroups]
        simpa [paramGroups, hparam] using ih first

/-- The lines between two groups are reported by the rule for them. -/
theorem reports_spacingBetweenGroups (b : Block) (g : TagGroup) (next : Option TagGroup) :
    Reports s config (spacingBetweenGroups b g next) ()
      (match g.tags.getLast?, next.bind (·.tags.head?) with
        | some last, some next => Layout.spacingAfterGroup s b last next
        | _, _ => []) := by
  unfold spacingBetweenGroups
  cases g.tags.getLast? with
  | none => exact .pure ()
  | some last =>
      cases next.bind (·.tags.head?) with
      | none => exact .pure ()
      | some next => exact reports_spacingAfterGroup b last next

/-- The walk over the groups reports their spacing and their values, group by group. -/
theorem reports_groupSpacing (b : Block) (groups : List TagGroup) :
    Reports s config (groupSpacing b groups) () (Layout.groupSpacing s b groups) := by
  induction groups with
  | nil => exact .pure ()
  | cons g gs ih =>
      have hvalues : Reports s config (g.misaligned.forM valueIndent) ()
          (g.misaligned.map Layout.tagValueIndent) := by
        rw [List.map_eq_flatMap]
        exact .forM fun m _ => reports_valueIndent m
      rw [Layout.groupSpacing, List.append_assoc]
      exact (reports_spacingBetweenGroups b g gs.head?).bind (hvalues.bind ih)

/-- A first parameter group that is not the first group is reported by the rule for it. -/
theorem reports_paramNotFirst (groups : List TagGroup) :
    Reports s config (paramNotFirst (Layout.paramGroups groups).head?) ()
      (Layout.paramNotFirst groups) := by
  unfold paramNotFirst Layout.paramNotFirst
  cases (Layout.paramGroups groups).head? with
  | none => exact .pure ()
  | some g =>
      dsimp only
      cases g.tags.head? with
      | none => exact .pure ()
      | some t => exact .reportWhen _ _

/-- The walk over the tags reports the scattered ones. -/
theorem reports_tagsNotGrouped (seen tags : List Tag) :
    Reports s config (tagsNotGrouped seen tags) ()
      ((Layout.scattered seen tags).map fun t =>
        .error Layout.family "TagsNotGrouped" "Tags must be grouped together in a doc comment"
          t.token) := by
  induction tags generalizing seen with
  | nil => exact .pure ()
  | cons t ts ih =>
      unfold tagsNotGrouped Layout.scattered
      cases seen.any (·.name == t.name) && seen.head?.map (·.name) != some t.name with
      | false => exact (Reports.reportWhen false _).bind (ih (t :: seen))
      | true => exact (Reports.reportWhen true _).bind (ih (t :: seen))

/-- The walk over the tags of a block reports what the rules for tags find. -/
theorem reports_tags (b : Block) : Reports s config (tags b) () (Layout.checkTags s b) := by
  refine .readStream ?_
  have hgrouped := @reports_tagsNotGrouped s config [] b.tags
  unfold Layout.checkTags Layout.tagsNotGrouped
  cases htags : b.tags with
  | nil => exact .pure ()
  | cons first more =>
      rw [htags] at hgrouped
      have hgroups := @reports_paramGroups s config none (b.groups s)
      rw [Option.none_or] at hgroups
      simp only [List.append_assoc]
      exact (reports_spacingBeforeTags b first).bind
        (hgroups.bind ((reports_groupSpacing b _).bind ((reports_paramNotFirst _).bind hgrouped)))

/-! ## Blocks -/

/-- The walk over the descriptions reports what the rules for descriptions and tags find. -/
theorem reports_descriptions (b : Block) :
    Reports s config (descriptions b) () (Layout.checkDescriptions s b) := by
  unfold descriptions Layout.checkDescriptions
  cases b.short with
  | none => exact .report _
  | some short =>
      simp only [List.append_assoc]
      exact (reports_spacingBeforeShort b short).bind
        ((Reports.reportWhen _ _).bind ((reports_longDescription b short).bind (reports_tags b)))

/-- The walk over a block with content reports what the rules for it find. -/
theorem reports_content (b : Block) (first : Token) :
    Reports s config (content b first) () (Layout.checkContent s b first) := by
  refine .readStream ((reports_contentAfterOpen b first).bind ?_)
  cases s.lastBetween (!·.isFiller) b.opener.index b.closer.index with
  | none => exact .pure ()
  | some last =>
      simp only [List.append_assoc]
      exact (reports_contentBeforeClose b last).bind
        ((reports_spacingAfter b last).bind (reports_descriptions b))

/-- A star outside the star column is reported by the rule for it. -/
theorem reports_star (b : Block) (t : Token) :
    Reports s config (star b t) () (Layout.starViolation? s b t).toList := by
  refine .readStream ?_
  unfold Layout.starViolation?
  cases s.lineIndent? t.index with
  | none => exact .pure ()
  | some indent =>
      dsimp only
      by_cases hcolumn : t.column = b.starColumn s
      · rw [if_pos hcolumn, reportWhen, if_neg (by simpa using hcolumn)]
        exact .pure ()
      · rw [if_neg hcolumn, reportWhen, if_pos (by simpa using hcolumn)]
        exact .report _

/-- The walk over the stars reports what the rule for them finds. -/
theorem reports_stars (b : Block) :
    Reports s config (stars b) () (Layout.spaceBeforeStar s b) := by
  refine .readStream ?_
  rw [Layout.spaceBeforeStar, List.filterMap_eq_flatMap_toList]
  exact .forM fun t _ => reports_star b t

/-- The check of a block reports the layout findings of the block. -/
theorem reports_layout (b : Block) : Reports s config (layout b) () (Layout.check s b) := by
  unfold layout Layout.check
  cases b.first with
  | none => exact .report _
  | some first => exact (reports_content b first).bind (reports_stars b)

end PhpDoc.Check
