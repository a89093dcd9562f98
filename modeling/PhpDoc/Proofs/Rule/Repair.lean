import PhpDoc.Proofs.Comment.Block
import PhpDoc.Proofs.Comment.Group
import PhpDoc.Proofs.Rule.Violation
import PhpDoc.Rule.Function
import PhpDoc.Rule.Layout
import PhpDoc.Rule.Property

/-!
# Repairs

`Repair s` lists the fixes that the rules propose for the comments of the stream `s`, each with the
condition under which it is proposed. A violation is effective when it has no fix or its fix is a
repair. What is true of every fix is proved of every repair, by cases.
-/

namespace PhpDoc

namespace Layout

/-- The change that moves content off the line of the open marker. -/
def openLine (s : Stream) (b : Block) (first : Token) : Changeset :=
  ((Changeset.empty.append b.opener s.eol).blank
    (s.between (b.opener.index + 1) first.index)).prepend first (b.starIndent s ++ "* ")

/-- The change that moves the close marker off the line of content. -/
def closeLine (s : Stream) (b : Block) (last : Token) : Changeset :=
  (Changeset.empty.blank (s.between (last.index + 1) b.closer.index)).prepend b.closer
    (s.eol ++ b.starIndent s)

/-- The change that removes blank lines in front of the close marker. -/
def blankBeforeClose (s : Stream) (b : Block) (last : Token) : Changeset :=
  Changeset.empty.blank
    (beforeLine b.closer.line (s.between (last.index + 1) (b.closer.index + 1)))

/-- The change that removes blank lines in front of the short description. -/
def blankBeforeShort (s : Stream) (b : Block) (short : Description) : Changeset :=
  Changeset.empty.blank
    ((s.between b.opener.index short.first.index).filter fun t =>
      b.opener.line < t.line && t.line < short.first.line)

/-- The change that leaves one blank line between the descriptions. -/
def blankBetween (s : Stream) (short long : Description) : Changeset :=
  Changeset.empty.blank
    ((s.between (short.last.index + 1) long.first.index).filter fun t =>
      short.last.line < t.line && t.line + 1 < long.first.line)

/-- The change that gives a tag its padding. -/
def pad (m : Misalignment) : Changeset :=
  match m.tag.padding with
  | some blank => Changeset.empty.replace blank (Text.spaces m.expected.toNat)
  | none => Changeset.empty.prepend m.value (Text.spaces m.expected.toNat)

/-- The change that moves a star, or the close marker, to the star column. -/
def indent (s : Stream) (b : Block) (t : Token) (indent : Option Token) : Changeset :=
  match indent with
  | some blank => Changeset.empty.replace blank (b.starIndent s)
  | none => Changeset.empty.prepend t (b.starIndent s)

end Layout

namespace FunctionRule

/-- The change that pads the type of a parameter tag. -/
def padType (s : Stream) (ps : List ParamTag) (p : ParamTag) : Changeset :=
  let required := requiredPadding (ParamTag.longestType ps) p.type.length
  respace s p (p.render p.type required.toNat p.varSpace) required p.typeSpace

/-- The change that pads the name of a parameter tag. -/
def padName (s : Stream) (ps : List ParamTag) (p : ParamTag) : Changeset :=
  let required := requiredPadding (ParamTag.longestVar ps) p.var.length
  respace s p (p.render p.type p.typeSpace required.toNat) required p.varSpace

/-- The change that removes blank lines between a comment and what follows it. -/
def blankAfterComment (s : Stream) (closer keyword following : Token) : Changeset :=
  Changeset.empty.blank
    ((s.between (closer.index + 1) keyword.index).filter fun t =>
      t.kind == .whitespace && closer.line < t.line && t.line < following.line)

end FunctionRule

/-- The fixes of the layout rules for a comment, each under its condition. -/
inductive Layout.Repair (s : Stream) (c : CommentSpan) : Changeset → Prop where
  | openLine {first : Token} (first_eq : (Block.ofSpan s c).first = some first)
      (line : first.line = c.opener.line) : Repair s c (openLine s (Block.ofSpan s c) first)
  | closeLine {last : Token}
      (last_eq : s.lastBetween (!·.isFiller) c.opener.index c.closer.index = some last)
      (line : last.line = c.closer.line) : Repair s c (closeLine s (Block.ofSpan s c) last)
  | blankBeforeClose {last : Token}
      (last_eq : s.lastBetween (!·.isFiller) c.opener.index c.closer.index = some last)
      (line : last.line + 1 < c.closer.line) :
      Repair s c (blankBeforeClose s (Block.ofSpan s c) last)
  | blankBeforeShort {short : Description} (short_eq : (Block.ofSpan s c).short = some short)
      (line : c.opener.line + 1 < short.first.line) :
      Repair s c (blankBeforeShort s (Block.ofSpan s c) short)
  | blankBetween {short long : Description} (short_eq : (Block.ofSpan s c).short = some short)
      (long_eq : (Block.ofSpan s c).long = some long)
      (line : long.first.line ≠ short.last.line + 2) : Repair s c (blankBetween s short long)
  | blankBeforeTag {previous : Token} {t : Tag} (tag : t ∈ (Block.ofSpan s c).tags)
      (previous_eq :
        s.lastBetween Kind.isDocContent (c.opener.index + 1) t.token.index = some previous)
      (line : t.token.line ≠ previous.line + 2) :
      Repair s c (singleBlankLine s previous t.token ((Block.ofSpan s c).starIndent s))
  | pad {g : TagGroup} {m : Misalignment} (group : g ∈ (Block.ofSpan s c).groups s)
      (misaligned : m ∈ g.misaligned) : Repair s c (pad m)
  | indent {t : Token} {blank : Option Token} (has : s.Has t)
      (opener_lt : c.opener.index < t.index) (le_closer : t.index ≤ c.closer.index)
      (kind : t.kind = .docStar ∨ t.kind = .docClose)
      (indent_eq : s.lineIndent? t.index = some blank)
      (column : t.column ≠ (Block.ofSpan s c).starColumn s) :
      Repair s c (indent s (Block.ofSpan s c) t blank)

/-- The fixes of the rules for the comments of a stream, each under its condition. -/
inductive Repair (s : Stream) : Changeset → Prop where
  | layout {c : CommentSpan} {change : Changeset} (frames : s.Frames c)
      (repair : Layout.Repair s c change) : Repair s change
  | paramType {c : CommentSpan} {p : ParamTag} {value : Token} (frames : s.Frames c)
      (param : p ∈ (Block.ofSpan s c).paramTags s) (type : p.type.isEmpty = false)
      (value_eq : p.tag.value = some value) (change : TypeName.normalize p.type ≠ p.type) :
      Repair s (FunctionRule.retype value p.type (TypeName.normalize p.type))
  | firstWord {c : CommentSpan} {t : Tag} {value : Token} (frames : s.Frames c)
      (tag : t ∈ (Block.ofSpan s c).tags) (value_eq : t.value = some value)
      (change : TypeName.normalize (Text.before ' ' value.text) ≠ Text.before ' ' value.text) :
      Repair s (FunctionRule.retype value (Text.before ' ' value.text)
        (TypeName.normalize (Text.before ' ' value.text)))
  | padType {c : CommentSpan} {p : ParamTag} (frames : s.Frames c)
      (param : p ∈ (Block.ofSpan s c).paramTags s) (type : p.type.isEmpty = false)
      (var : p.var.isEmpty = false)
      (space : (p.typeSpace : Int) ≠ requiredPadding
        (ParamTag.longestType ((Block.ofSpan s c).paramTags s)) p.type.length) :
      Repair s (FunctionRule.padType s ((Block.ofSpan s c).paramTags s) p)
  | padName {c : CommentSpan} {p : ParamTag} (frames : s.Frames c)
      (param : p ∈ (Block.ofSpan s c).paramTags s) (type : p.type.isEmpty = false)
      (var : p.var.isEmpty = false) (comment : p.comment.isEmpty = false)
      (space : (p.varSpace : Int) ≠ requiredPadding
        (ParamTag.longestVar ((Block.ofSpan s c).paramTags s)) p.var.length) :
      Repair s (FunctionRule.padName s ((Block.ofSpan s c).paramTags s) p)
  | blankAfterComment {c : CommentSpan} {keyword following : Token} (frames : s.Frames c)
      (has : s.Has keyword) (kind : keyword.kind = .function)
      (documents : Preceding.find s FunctionRule.isLead keyword.index = .doc c.closer)
      (lt : c.closer.index < keyword.index)
      (following_eq : (s.firstBetween (· != .whitespace) (c.closer.index + 1)
        keyword.index).getD keyword = following)
      (line : c.closer.line + 1 < following.line) :
      Repair s (FunctionRule.blankAfterComment s c.closer keyword following)

variable {s : Stream} {v : Violation} {condition : Bool}

namespace Violation

/-- The fix of the violation, if it has one, is a change with the property. -/
def FixedBy (p : Changeset → Prop) (v : Violation) : Prop :=
  v.fix = none ∨ ∃ c : Changeset, p c ∧ v.fix = some c.edits

/-- The fix of the violation, if it has one, is a repair. -/
abbrev Effective (s : Stream) (v : Violation) : Prop :=
  v.FixedBy (Repair s)

variable {p q : Changeset → Prop}

/-- A fix with a property has every property that follows from it. -/
theorem FixedBy.imp (h : v.FixedBy p) (hpq : ∀ c, p c → q c) : v.FixedBy q := by
  rcases h with h | ⟨c, hc, h⟩
  · exact .inl h
  · exact .inr ⟨c, hpq c hc, h⟩

/-- An error has no fix. -/
theorem fixedBy_error (family code message : String) (t : Token) :
    (error family code message t).FixedBy p :=
  .inl rfl

/-- A warning has no fix. -/
theorem fixedBy_warning (family code message : String) (t : Token) :
    (warning family code message t).FixedBy p :=
  .inl rfl

/-- A finding is fixed by its changeset. -/
theorem fixedBy_fixed {c : Changeset} (h : p c) (family code message : String) (t : Token) :
    (fixed family code message t c).FixedBy p :=
  .inr ⟨c, h, rfl⟩

/-- A reported error has no fix. -/
theorem fixedBy_of_mem_report {family code message : String} {t : Token}
    (h : v ∈ report condition (error family code message t)) : v.FixedBy p := by
  rw [(mem_report.1 h).2]
  exact fixedBy_error family code message t

/-- A reported violation with a fix is fixed by a change that has the property under the reported
condition. -/
theorem fixedBy_of_mem_report_fixed {family code message : String} {t : Token} {c : Changeset}
    (h : v ∈ report condition (fixed family code message t c))
    (hc : condition = true → p c) : v.FixedBy p := by
  obtain ⟨hcondition, rfl⟩ := mem_report.1 h
  exact fixedBy_fixed (hc hcondition) family code message t

end Violation

end PhpDoc
