import PhpDoc.Proofs.Rule.Repair
import PhpDoc.Proofs.Strict.Comment

/-!
# The layout of comments, checked strictly

A strict rule reports what the rule of the model reports, and works out the change of the fix with
strict reads: the tokens that are to be blanked, the last content of the comment, the first and the
last tag of a group, the padding of a value. For a comment of a source text no rule has a fault, and
each gives the findings of the rule of the model (`layout_eq_ok`).
-/

namespace PhpDoc.Strict

variable {s : Stream} {c : CommentSpan} {b : Block}

/-! ## Markers and descriptions -/

/-- The change that moves content off the line of the open marker. -/
def openLine (s : Stream) (b : Block) (indent : String) (first : Token) :
    Except Fault Changeset := do
  let gap ← fetchRange s (b.opener.index + 1) first.index
  return ((Changeset.empty.append b.opener s.eol).blank gap).prepend first (indent ++ "* ")

/-- The repair of the open line reads its tokens without a fault. -/
theorem openLine_eq_ok (hs : s.Placed) {first : Token} (hfirst : s.Has first) :
    openLine s b (b.starIndent s) first = .ok (Layout.openLine s b first) := by
  rw [openLine, fetchRange_eq_ok hs (Nat.le_of_lt hfirst.index_lt_size)]
  rfl

/-- The change that moves the close marker off the line of content. -/
def closeLine (s : Stream) (b : Block) (indent : String) (last : Token) :
    Except Fault Changeset := do
  let gap ← fetchRange s (last.index + 1) b.closer.index
  return (Changeset.empty.blank gap).prepend b.closer (s.eol ++ indent)

/-- The repair of the close line reads its tokens without a fault. -/
theorem closeLine_eq_ok (hs : s.Placed) (hcloser : s.Has b.closer) (last : Token) :
    closeLine s b (b.starIndent s) last = .ok (Layout.closeLine s b last) := by
  rw [closeLine, fetchRange_eq_ok hs (Nat.le_of_lt hcloser.index_lt_size)]
  rfl

/-- The tokens at consecutive indices up to the first one whose successor stands on the line
`line`. -/
def beforeLine (s : Stream) (line : Nat) : List Nat → Except Fault (List Token)
  | [] => .ok []
  | i :: is => do
      let next ← fetch s (i + 1 : Nat)
      if next.line = line then return []
      else
        let t ← fetch s i
        let rest ← beforeLine s line is
        return t :: rest

/-- The tokens above a line are read without a fault. -/
theorem beforeLine_eq_ok (hs : s.Placed) {line i n : Nat} (h : i + n < s.size) :
    beforeLine s line (List.range' i n) =
      .ok (Layout.beforeLine line (s.between i (i + n + 1))) := by
  induction n generalizing i with
  | zero =>
      obtain ⟨t, ht, rfl⟩ := exists_has hs h
      rw [Stream.between_cons ht (by omega), Stream.between_eq_nil (Nat.le_refl _)]
      rfl
  | succ n ih =>
      obtain ⟨t, ht, rfl⟩ := exists_has hs (i := i) (by omega)
      obtain ⟨next, hnext, hindex⟩ := exists_has hs (i := t.index + 1) (by omega)
      have hrest := ih (i := t.index + 1) (by omega)
      rw [show t.index + 1 + n + 1 = t.index + (n + 1) + 1 by omega] at hrest
      have htail : s.between (t.index + 1) (t.index + (n + 1) + 1) =
          next :: s.between (next.index + 1) (t.index + (n + 1) + 1) := by
        rw [← hindex]
        exact Stream.between_cons hnext (by omega)
      rw [Stream.between_cons ht (by omega), List.range'_succ, beforeLine, ← hindex,
        fetch_has hnext, ok_bind, hindex, htail, Layout.beforeLine]
      split
      · rfl
      · rw [fetch_has ht, ok_bind, hrest, htail]
        rfl

/-- The change that removes blank lines in front of the close marker. -/
def blankBeforeClose (s : Stream) (b : Block) (last : Token) : Except Fault Changeset := do
  let start := last.index + 1
  let blanks ← beforeLine s b.closer.line (List.range' start (b.closer.index - start))
  return Changeset.empty.blank blanks

/-- The lines in front of the close marker are read without a fault. -/
theorem blankBeforeClose_eq_ok (hs : s.Placed) (hcloser : s.Has b.closer) {last : Token}
    (hlt : last.index < b.closer.index) :
    blankBeforeClose s b last = .ok (Layout.blankBeforeClose s b last) := by
  have hsize := hcloser.index_lt_size
  have hstop : last.index + 1 + (b.closer.index - (last.index + 1)) = b.closer.index := by omega
  unfold blankBeforeClose Layout.blankBeforeClose
  simp only
  rw [beforeLine_eq_ok hs (by omega), hstop]
  rfl

/-- The change that removes blank lines in front of the short description. -/
def blankBeforeShort (s : Stream) (b : Block) (short : Description) : Except Fault Changeset := do
  let front ← fetchRange s b.opener.index short.first.index
  return Changeset.empty.blank
    (front.filter fun t => b.opener.line < t.line && t.line < short.first.line)

/-- The lines in front of the short description are read without a fault. -/
theorem blankBeforeShort_eq_ok (hs : s.Placed) {short : Description} (h : s.Has short.first) :
    blankBeforeShort s b short = .ok (Layout.blankBeforeShort s b short) := by
  rw [blankBeforeShort, fetchRange_eq_ok hs (Nat.le_of_lt h.index_lt_size)]
  rfl

/-- The change that leaves one blank line between the descriptions. -/
def blankBetween (s : Stream) (short long : Description) : Except Fault Changeset := do
  let gap ← fetchRange s (short.last.index + 1) long.first.index
  return Changeset.empty.blank
    (gap.filter fun t => short.last.line < t.line && t.line + 1 < long.first.line)

/-- The lines between the descriptions are read without a fault. -/
theorem blankBetween_eq_ok (hs : s.Placed) {short long : Description} (h : s.Has long.first) :
    blankBetween s short long = .ok (Layout.blankBetween s short long) := by
  rw [blankBetween, fetchRange_eq_ok hs (Nat.le_of_lt h.index_lt_size)]
  rfl

/-! ## Tags and groups -/

/-- The change that leaves exactly one blank star line between two tokens. -/
def singleBlankLine (s : Stream) (indent : String) (previous following : Token) :
    Except Fault Changeset := do
  let gap ← fetchRange s (previous.index + 1) following.index
  return (Changeset.empty.blank (gap.filter (·.line != following.line))).append previous
    (s.eol ++ indent ++ "*" ++ s.eol)

/-- The lines between two tokens are read without a fault. -/
theorem singleBlankLine_eq_ok (hs : s.Placed) {indent : String} {previous following : Token}
    (h : s.Has following) : singleBlankLine s indent previous following =
      .ok (Layout.singleBlankLine s previous following indent) := by
  rw [singleBlankLine, fetchRange_eq_ok hs (Nat.le_of_lt h.index_lt_size)]
  rfl

/-- Exactly one blank line stands in front of the first tag. -/
def spacingBeforeTags (s : Stream) (b : Block) (indent : String) (first : Tag) :
    Except Fault (List Violation) := do
  match ← fetchLast s (!·.isFiller) b.opener.index first.token.index with
  | none => return []
  | some previous =>
      fixing (Layout.spacingBeforeTags s b first) (singleBlankLine s indent previous first.token)

/-- The lines in front of the tags are checked without a fault. -/
theorem spacingBeforeTags_eq_ok (hs : s.Placed) {first : Tag} (h : s.Has first.token) :
    spacingBeforeTags s b (b.starIndent s) first = .ok (Layout.spacingBeforeTags s b first) := by
  unfold spacingBeforeTags Layout.spacingBeforeTags
  rw [fetchLast_eq_ok hs, ok_bind]
  cases s.lastBetween (!·.isFiller) b.opener.index first.token.index with
  | none => rfl
  | some previous => exact fixing_report fun _ => singleBlankLine_eq_ok hs h

/-- The parameter tags stand in the first group. -/
def paramNotFirst (groups : List TagGroup) : Except Fault (List Violation) :=
  match (Layout.paramGroups groups).head? with
  | none => .ok []
  | some found =>
      if found.number != 0 then do
        let group ← element groups found.number
        let t ← element group.tags 0
        return [.error Layout.family "ParamNotFirst"
          "Parameter tags must be defined first in a doc comment" t.token]
      else .ok []

/-- A group stands among the groups of its block at its number. -/
theorem getElem?_groups {g : TagGroup} (h : g ∈ b.groups s) :
    (b.groups s)[g.number]? = some g := by
  unfold Block.groups at h ⊢
  obtain ⟨⟨tags, number⟩, hmem, rfl⟩ := List.mem_map.1 h
  rw [List.getElem?_map, List.getElem?_zipIdx, List.mem_zipIdx_iff_getElem?.1 hmem]
  simp

/-- The first parameter group has a tag, so it is checked without a fault. -/
theorem paramNotFirst_eq_ok (s : Stream) (b : Block) :
    paramNotFirst (b.groups s) = .ok (Layout.paramNotFirst (b.groups s)) := by
  unfold paramNotFirst Layout.paramNotFirst
  cases hhead : (Layout.paramGroups (b.groups s)).head? with
  | none => rfl
  | some found =>
      have hmem : found ∈ b.groups s := (List.mem_filter.1 (List.mem_of_head? hhead)).1
      obtain ⟨t, ts, htags⟩ := List.exists_cons_of_ne_nil (Block.tags_ne_nil_of_groups hmem)
      simp only [element_eq_ok (getElem?_groups hmem), ok_bind, htags, List.head?_cons, report]
      split <;> rfl

/-- Exactly one blank line divides a group from the next one. -/
def spacingAfterGroup (s : Stream) (b : Block) (indent : String) (g following : TagGroup) :
    Except Fault (List Violation) := do
  let next ← element following.tags 0
  let last ← lastElement g.tags
  match ← fetchLast s Kind.isDocContent b.opener.index next.token.index with
  | none => return []
  | some previous =>
      fixing (Layout.spacingAfterGroup s b last next)
        (singleBlankLine s indent previous next.token)

/-- The lines behind a group are checked without a fault. -/
theorem spacingAfterGroup_eq_ok (hs : s.Placed) {g following : TagGroup} {last next : Tag}
    (hlast : g.tags.getLast? = some last) (hnext : following.tags.head? = some next)
    (h : s.Has next.token) : spacingAfterGroup s b (b.starIndent s) g following =
      .ok (Layout.spacingAfterGroup s b last next) := by
  have hfirst : following.tags[0]? = some next := by rw [← List.head?_eq_getElem?, hnext]
  unfold spacingAfterGroup Layout.spacingAfterGroup
  rw [element_eq_ok hfirst, ok_bind, lastElement_eq_ok hlast, ok_bind, fetchLast_eq_ok hs, ok_bind]
  cases s.lastBetween Kind.isDocContent b.opener.index next.token.index with
  | none => rfl
  | some previous => exact fixing_report fun _ => singleBlankLine_eq_ok hs h

/-- The misalignment of a tag in a group whose longest name has length `longest`. -/
def misalignment (longest : Nat) (t : Tag) : Except Fault (Option Misalignment) :=
  match t.value with
  | none => .ok none
  | some value => do
      let expected ← padding longest t.name.length
      let found : Int := (t.padding.elim 0 (·.text.length) : Nat)
      return if found = expected then none else some ⟨t, value, expected, found⟩

/-- The misaligned values of a group, in order. -/
def misaligned (g : TagGroup) : Except Fault (List Misalignment) :=
  collectSome (misalignment g.longest) g.tags

/-- The padding of every value in a group is at least one space, so no value is a fault. -/
theorem misaligned_eq_ok (g : TagGroup) : misaligned g = .ok g.misaligned := by
  refine collectSome_eq_ok fun t ht => ?_
  unfold misalignment TagGroup.misalignment?
  cases t.value with
  | none => rfl
  | some value =>
      simp only [padding_eq_ok (TagGroup.length_name_le_longest ht)]
      rfl

/-- The spacing between a group and the next one, if there is one. -/
def spacingTo (s : Stream) (b : Block) (indent : String) (g : TagGroup) :
    Option TagGroup → Except Fault (List Violation)
  | none => .ok []
  | some following => spacingAfterGroup s b indent g following

/-- The spacing after each group and the alignment of its values. -/
def groupSpacing (s : Stream) (b : Block) (indent : String) :
    List TagGroup → Except Fault (List Violation)
  | [] => .ok []
  | g :: gs => do
      let spacing ← spacingTo s b indent g gs.head?
      let found ← misaligned g
      let rest ← groupSpacing s b indent gs
      return spacing ++ found.map Layout.tagValueIndent ++ rest

/-- The groups of a block have tags, so they are checked without a fault. -/
theorem groupSpacing_eq_ok (hs : s.Placed) {gs : List TagGroup}
    (hgs : ∀ g ∈ gs, g.tags ≠ [] ∧ ∀ t ∈ g.tags, s.Has t.token) :
    groupSpacing s b (b.starIndent s) gs = .ok (Layout.groupSpacing s b gs) := by
  induction gs with
  | nil => rfl
  | cons g gs ih =>
      obtain ⟨⟨hg, -⟩, hgs⟩ := List.forall_mem_cons.1 hgs
      have hlast := List.getLast?_eq_some_getLast hg
      rw [groupSpacing, Layout.groupSpacing, misaligned_eq_ok, ih hgs, hlast]
      cases gs with
      | nil => rfl
      | cons following gs =>
          obtain ⟨⟨hfollowing, hhas⟩, -⟩ := List.forall_mem_cons.1 hgs
          obtain ⟨next, rest, htags⟩ := List.exists_cons_of_ne_nil hfollowing
          have hnext : following.tags.head? = some next := by rw [htags]; rfl
          have hspacing := spacingAfterGroup_eq_ok (b := b) hs hlast hnext
            (hhas next (htags ▸ List.mem_cons_self))
          simp only [List.head?_cons, spacingTo, hspacing, Option.bind_some, hnext]
          rfl

/-- The findings about the tags of a block. -/
def checkTags (s : Stream) (b : Block) (indent : String) : Except Fault (List Violation) :=
  match b.tags with
  | [] => .ok []
  | first :: _ => do
      let above ← spacingBeforeTags s b indent first
      let groups ← groups s b
      let spacing ← groupSpacing s b indent groups
      let misplaced ← paramNotFirst groups
      return above ++ Layout.paramGroup groups ++ spacing ++ misplaced ++ Layout.tagsNotGrouped b

/-- The tags of a block are checked without a fault. -/
theorem checkTags_eq_ok (hs : s.Placed) (hb : ∀ t ∈ b.tags, s.Has t.token) :
    checkTags s b (b.starIndent s) = .ok (Layout.checkTags s b) := by
  have hgroups : ∀ g ∈ b.groups s, g.tags ≠ [] ∧ ∀ t ∈ g.tags, s.Has t.token := fun g hg =>
    ⟨Block.tags_ne_nil_of_groups hg, fun t ht => hb t (Block.mem_tags_of_groups hg ht)⟩
  unfold checkTags Layout.checkTags
  cases htags : b.tags with
  | nil => rfl
  | cons first ts =>
      simp only [spacingBeforeTags_eq_ok hs (hb first (htags ▸ List.mem_cons_self)),
        groups_eq_ok hs, groupSpacing_eq_ok hs hgroups, paramNotFirst_eq_ok, ok_bind]
      rfl

/-! ## Blocks -/

/-- The findings about the long description. -/
def checkLong (s : Stream) (short : Description) :
    Option Description → Except Fault (List Violation)
  | none => .ok []
  | some long => do
      let spacing ← fixing (Layout.spacingBetween s short long) (blankBetween s short long)
      return spacing ++ Layout.longNotCapital long

/-- The findings about the descriptions and tags of a block. -/
def checkDescriptions (s : Stream) (b : Block) (indent : String) : Except Fault (List Violation) :=
  match b.short with
  | none =>
      .ok [.error Layout.family "MissingShort" "Missing short description in doc comment" b.opener]
  | some short => do
      let above ← fixing (Layout.spacingBeforeShort s b short) (blankBeforeShort s b short)
      let below ← checkLong s short b.long
      let tags ← checkTags s b indent
      return above ++ Layout.shortNotCapital short ++ below ++ tags

/-- The descriptions of a block are checked without a fault. -/
theorem checkDescriptions_eq_ok (hs : s.Placed) (hc : s.Frames c) :
    checkDescriptions s (Block.ofSpan s c) ((Block.ofSpan s c).starIndent s) =
      .ok (Layout.checkDescriptions s (Block.ofSpan s c)) := by
  unfold checkDescriptions Layout.checkDescriptions
  cases hshort : (Block.ofSpan s c).short with
  | none => rfl
  | some short =>
      have hfirst := (Block.mem_short_strings hs hc hshort List.mem_cons_self).1
      have habove : fixing (Layout.spacingBeforeShort s (Block.ofSpan s c) short)
          (blankBeforeShort s (Block.ofSpan s c) short) =
          .ok (Layout.spacingBeforeShort s (Block.ofSpan s c) short) :=
        fixing_report fun _ => blankBeforeShort_eq_ok hs hfirst
      have htags := checkTags_eq_ok (b := Block.ofSpan s c) hs fun t ht =>
        (Block.fits_of_mem_tags hs hc ht).token
      cases hlong : (Block.ofSpan s c).long with
      | none =>
          simp only [habove, checkLong, htags]
          rfl
      | some long =>
          have hhas := (Block.long_first hs hc hshort hlong).1
          have hspacing : fixing (Layout.spacingBetween s short long)
              (blankBetween s short long) = .ok (Layout.spacingBetween s short long) :=
            fixing_report fun _ => blankBetween_eq_ok hs hhas
          simp only [habove, checkLong, hspacing, htags]
          rfl

/-- The findings about the markers, descriptions and tags of a block with content. -/
def checkContent (s : Stream) (b : Block) (indent : String) (first : Token) :
    Except Fault (List Violation) := do
  let opening ← fixing (Layout.contentAfterOpen s b first) (openLine s b indent first)
  match ← fetchLast s (!·.isFiller) b.opener.index b.closer.index with
  | none => return opening
  | some last =>
      let closing ← fixing (Layout.contentBeforeClose s b last) (closeLine s b indent last)
      let trailing ← fixing (Layout.spacingAfter s b last) (blankBeforeClose s b last)
      let rest ← checkDescriptions s b indent
      return opening ++ (closing ++ trailing ++ rest)

/-- A block with content is checked without a fault. -/
theorem checkContent_eq_ok (hs : s.Placed) (hc : s.Frames c) {first : Token}
    (hfirst : s.Has first) :
    checkContent s (Block.ofSpan s c) ((Block.ofSpan s c).starIndent s) first =
      .ok (Layout.checkContent s (Block.ofSpan s c) first) := by
  have hopening : fixing (Layout.contentAfterOpen s (Block.ofSpan s c) first)
      (openLine s (Block.ofSpan s c) ((Block.ofSpan s c).starIndent s) first) =
      .ok (Layout.contentAfterOpen s (Block.ofSpan s c) first) :=
    fixing_report fun _ => openLine_eq_ok hs hfirst
  have hcloser : s.Has (Block.ofSpan s c).closer := by
    rw [Block.ofSpan_closer]
    exact hc.closer
  unfold checkContent Layout.checkContent
  rw [hopening, ok_bind, fetchLast_eq_ok hs, ok_bind]
  cases hlast : s.lastBetween (!·.isFiller) (Block.ofSpan s c).opener.index
      (Block.ofSpan s c).closer.index with
  | none => simp
  | some last =>
      have hlt := (hs.lastBetween.1 hlast).2.2.1
      have hclosing : fixing (Layout.contentBeforeClose s (Block.ofSpan s c) last)
          (closeLine s (Block.ofSpan s c) ((Block.ofSpan s c).starIndent s) last) =
          .ok (Layout.contentBeforeClose s (Block.ofSpan s c) last) :=
        fixing_report fun _ => closeLine_eq_ok hs hcloser last
      have htrailing : fixing (Layout.spacingAfter s (Block.ofSpan s c) last)
          (blankBeforeClose s (Block.ofSpan s c) last) =
          .ok (Layout.spacingAfter s (Block.ofSpan s c) last) :=
        fixing_report fun _ => blankBeforeClose_eq_ok hs hcloser hlt
      simp only [hclosing, htrailing, checkDescriptions_eq_ok hs hc]
      rfl

/-- The finding at a star or close marker that starts its line outside the star column `column`. -/
def starViolation (s : Stream) (column : Nat) (padding : String) (t : Token) :
    Except Fault (Option Violation) := do
  match ← lineIndent s t.index with
  | none => return none
  | some indent =>
      if t.column = column then return none
      else
        let message := "Expected " ++ toString (column - 1) ++ " spaces before asterisk; " ++
          toString (t.column - 1) ++ " found"
        let fix := match indent with
          | some blank => Changeset.empty.replace blank padding
          | none => Changeset.empty.prepend t padding
        return some (.fixed Layout.family "SpaceBeforeStar" message t fix)

/-- A star is checked without a fault. -/
theorem starViolation_eq_ok (hs : s.Placed) {t : Token} (ht : s.Has t) :
    starViolation s (b.starColumn s) (b.starIndent s) t = .ok (Layout.starViolation? s b t) := by
  unfold starViolation Layout.starViolation?
  rw [lineIndent_eq_ok hs (Nat.le_of_lt ht.index_lt_size), ok_bind]
  cases s.lineIndent? t.index with
  | none => rfl
  | some indent =>
      simp only
      split <;> rfl

/-- All stars, and the close marker, stand in the star column. -/
def spaceBeforeStar (s : Stream) (b : Block) : Except Fault (List Violation) := do
  let column ← starColumn s b
  let padding ← starIndent s b
  let ts ← fetchRange s (b.opener.index + 1) (b.closer.index + 1)
  collectSome (starViolation s column padding)
    (ts.filter fun t => t.kind == .docStar || t.kind == .docClose)

/-- The stars of a block are checked without a fault. -/
theorem spaceBeforeStar_eq_ok (hs : s.Placed) (hopener : s.Has b.opener)
    (hcloser : s.Has b.closer) : spaceBeforeStar s b = .ok (Layout.spaceBeforeStar s b) := by
  rw [spaceBeforeStar, starColumn_eq_ok hs, ok_bind, starIndent_eq_ok hs hopener, ok_bind,
    fetchRange_eq_ok hs hcloser.index_lt_size, ok_bind]
  exact collectSome_eq_ok fun t ht => starViolation_eq_ok hs (hs.has_of_mem_filter ht)

/-- The layout findings of a block, in the order of the rules. -/
def layout (s : Stream) (b : Block) : Except Fault (List Violation) :=
  match b.first with
  | none => .ok [.error Layout.family "Empty" "Doc comment is empty" b.opener]
  | some first => do
      let indent ← starIndent s b
      let content ← checkContent s b indent first
      let stars ← spaceBeforeStar s b
      return content ++ stars

/-- The layout of a comment is checked without a fault. -/
theorem layout_eq_ok (hs : s.Placed) (hc : s.Frames c) :
    layout s (Block.ofSpan s c) = .ok (Layout.check s (Block.ofSpan s c)) := by
  have hopener : s.Has (Block.ofSpan s c).opener := by
    rw [Block.ofSpan_opener]
    exact hc.opener
  have hcloser : s.Has (Block.ofSpan s c).closer := by
    rw [Block.ofSpan_closer]
    exact hc.closer
  unfold layout Layout.check
  cases hfirst : (Block.ofSpan s c).first with
  | none => rfl
  | some first =>
      have hhas := (Block.first_spec hs hfirst).1
      simp only [starIndent_eq_ok hs hopener, checkContent_eq_ok hs hc hhas,
        spaceBeforeStar_eq_ok hs hopener hcloser, ok_bind]
      rfl

end PhpDoc.Strict
