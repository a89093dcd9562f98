import PhpDoc.Proofs.Rule.Reach
import PhpDoc.Proofs.Rule.Writing
import PhpDoc.Proofs.Token.Breaks
import PhpDoc.Proofs.TypeName.Union

/-!
# The line breaks that repairs write

In a stream whose line breaks are all the one that it inserts, every text that a repair writes is
broken in the same way (`Repair.breaksWith`).
-/

namespace PhpDoc

open Text

/-- All line breaks of the stream are `e`, with or without a carriage return a line feed, and it is
the one to insert. -/
structure Stream.BrokenBy (s : Stream) (e : String) : Prop where
  fed : e = "\n" ∨ e = "\r\n"
  token : ∀ {t}, s.Has t → Text.BrokenBy e t.text.toList
  eol : s.eol = e

variable {s : Stream} {e : String} {c : CommentSpan} {change : Changeset} {t : Token}

namespace Changeset

/-- With the change all line breaks of the tokens are `e`. -/
def BreaksWith (s : Stream) (e : String) (change : Changeset) : Prop :=
  ∀ t, s.Has t → Text.BrokenBy e (change.current t).toList

/-- Without a change the line breaks are those of the tokens. -/
theorem breaksWith_empty (h : s.BrokenBy e) : empty.BreaksWith s e :=
  fun _ ht => h.token ht

/-- A replacement brings the break with it if its text does. -/
theorem BreaksWith.replace (h : change.BreaksWith s e) (t : Token) {text : String}
    (htext : Text.BrokenBy e text.toList) : (change.replace t text).BreaksWith s e := by
  intro u hu
  rw [current_replace]
  split
  · exact htext
  · exact h u hu

/-- An appended text brings the break with it, also at the seam with the token. -/
theorem BreaksWith.append (hs : s.BrokenBy e) (h : change.BreaksWith s e) (ht : s.Has t)
    {text : String} (htext : Text.BrokenBy e text.toList) :
    (change.append t text).BreaksWith s e := by
  refine h.replace t ?_
  rw [String.toList_append]
  exact (h t ht).append hs.fed htext

/-- A prepended text brings the break with it, also at the seam with the token. -/
theorem BreaksWith.prepend (hs : s.BrokenBy e) (h : change.BreaksWith s e) (ht : s.Has t)
    {text : String} (htext : Text.BrokenBy e text.toList) :
    (change.prepend t text).BreaksWith s e := by
  refine h.replace t ?_
  rw [String.toList_append]
  exact htext.append hs.fed (h t ht)

/-- Blanked tokens have no line breaks. -/
theorem BreaksWith.blank (h : change.BreaksWith s e) (ts : List Token) :
    (change.blank ts).BreaksWith s e :=
  List.foldlRecOn ts _ h fun _ hchange u _ =>
    hchange.replace u (brokenBy_of_unbroken unbroken_nil)

end Changeset

/-- Spaces break no line. -/
theorem Text.unbroken_spaces (n : Nat) : Unbroken (spaces n).toList :=
  unbroken_of_blank (isBlank_spaces n)

/-- White space that leads a token stands on the line of the token. -/
theorem Stream.Sound.unbroken_leadingWhitespace (hs : s.Sound) {i : Nat} {leading : String}
    (h : s.leadingWhitespace? i = some leading) : Unbroken leading.toList := by
  rcases hs.leadingWhitespace?_eq_some h with ⟨rfl, -⟩ | ⟨t, ht, -, rfl, hkind, hled⟩
  · exact unbroken_nil
  · have hcode : t.kind.isCode = false := by rcases hkind with h | h <;> rw [h] <;> rfl
    exact (hs.lined ht hcode).unbroken_of_not_endsLine hled.1

/-- The indent of the stars breaks no line. -/
theorem Block.unbroken_starIndent (hs : s.Sound) (b : Block) :
    Unbroken (b.starIndent s).toList := by
  unfold starIndent
  split
  · next star hstar =>
      cases hleading : s.leadingWhitespace? star.index with
      | none => exact unbroken_spaces _
      | some leading => exact hs.unbroken_leadingWhitespace hleading
  · split
    · next leading hleading =>
        rw [String.toList_append]
        exact unbroken_append.2 ⟨hs.unbroken_leadingWhitespace hleading, by decide⟩
    · exact unbroken_spaces _

namespace Layout

/-- A fix of the layout breaks lines as the stream does. -/
theorem Repair.breaksWith (hs : s.Sound) (hbroken : s.BrokenBy e) (hc : s.Frames c)
    (h : Repair s c change) : change.BreaksWith s e := by
  have hempty := Changeset.breaksWith_empty hbroken
  have heol : Text.BrokenBy e s.eol.toList := by
    rw [hbroken.eol]
    exact brokenBy_self hbroken.fed
  have hindent := Block.unbroken_starIndent hs (Block.ofSpan s c)
  cases h with
  | @openLine first first_eq line =>
      unfold Layout.openLine
      rw [Block.ofSpan_opener]
      refine ((hempty.append hbroken hc.opener heol).blank _).prepend hbroken
        (Block.first_spec hs.toPlaced first_eq).1 ?_
      rw [String.toList_append]
      exact brokenBy_of_unbroken (unbroken_append.2 ⟨hindent, by decide⟩)
  | closeLine last_eq line =>
      unfold Layout.closeLine
      rw [Block.ofSpan_closer]
      refine (hempty.blank _).prepend hbroken hc.closer ?_
      rw [String.toList_append]
      exact heol.append hbroken.fed (brokenBy_of_unbroken hindent)
  | blankBeforeClose last_eq line => exact hempty.blank _
  | blankBeforeShort short_eq line => exact hempty.blank _
  | blankBetween short_eq long_eq line => exact hempty.blank _
  | @blankBeforeTag previous t tag previous_eq line =>
      unfold singleBlankLine
      refine (hempty.blank _).append hbroken (hs.lastBetween.1 previous_eq).1 ?_
      simp only [String.toList_append]
      exact ((heol.append hbroken.fed (brokenBy_of_unbroken hindent)).append hbroken.fed
        (brokenBy_of_unbroken (by decide))).append hbroken.fed heol
  | @pad g m group misaligned =>
      have hspaces : Text.BrokenBy e (spaces m.expected.toNat).toList :=
        brokenBy_of_unbroken (unbroken_spaces _)
      obtain ⟨t, ht, hmis⟩ := TagGroup.mem_misaligned.1 misaligned
      obtain ⟨value, hvalue, -, rfl⟩ := TagGroup.misalignment?_eq_some.1 hmis
      have hfits := Block.fits_of_mem_tags hs.toPlaced hc (Block.mem_tags_of_groups group ht)
      unfold Layout.pad
      split
      · exact hempty.replace _ hspaces
      · exact hempty.prepend hbroken (hfits.value value hvalue).1 hspaces
  | @indent t blank has opener_lt le_closer kind indent_eq column =>
      unfold Layout.indent
      cases blank with
      | some blank => exact hempty.replace _ (brokenBy_of_unbroken hindent)
      | none => exact hempty.prepend hbroken has (brokenBy_of_unbroken hindent)

end Layout

namespace ParamTag

variable {p : ParamTag}

/-- The value of a parameter tag is on one line. -/
theorem unbroken_value (hs : s.Placed) (hc : s.Frames c) (hp : p ∈ (Block.ofSpan s c).paramTags s)
    {v : Token} (hv : p.tag.value = some v) : Unbroken v.text.toList := by
  obtain ⟨t, ht, -, htag⟩ := exists_of_mem_paramTags hp
  rw [htag] at hv
  exact (Block.fits_of_mem_tags hs hc ht).unbroken_value hc hv

/-- What a parameter tag says on its line is on one line. -/
theorem unbroken_parts (hs : s.Placed) (hc : s.Frames c)
    (hp : p ∈ (Block.ofSpan s c).paramTags s) :
    Unbroken p.type.toList ∧ Unbroken p.var.toList ∧ Unbroken p.firstLine.toList := by
  obtain ⟨t, ht, rfl, htag⟩ := exists_of_mem_paramTags hp
  cases hpv : (ofTag s t).value with
  | none => simp [type, var, firstLine, description, hpv]
  | some pv =>
      obtain ⟨v, hv, hparse⟩ := Option.bind_eq_some_iff.1 ((value_ofTag s t).symm.trans hpv)
      obtain ⟨htype, hvar, hdescription⟩ := ParamValue.infix_parse? hparse
      have hline := unbroken_value hs hc hp (htag ▸ hv)
      simp only [type, var, firstLine, description, hpv, Option.elim_some, Option.bind_some]
      refine ⟨hline.sublist htype.sublist, ?_, ?_⟩
      · cases hx : pv.var with
        | none => simp
        | some x => exact hline.sublist (hvar x hx).sublist
      · cases hd : pv.description with
        | none => simp
        | some d => exact hline.sublist (hdescription d hd).sublist

/-- The value that is written for a parameter tag breaks no line. -/
theorem unbroken_render (hs : s.Placed) (hc : s.Frames c)
    (hp : p ∈ (Block.ofSpan s c).paramTags s) (m n : Nat) :
    Unbroken (p.render p.type m n).toList := by
  obtain ⟨htype, hvar, hline⟩ := unbroken_parts hs hc hp
  simp only [render, String.toList_append, unbroken_append]
  exact ⟨⟨⟨⟨htype, unbroken_spaces m⟩, hvar⟩, unbroken_spaces n⟩, hline⟩

end ParamTag

namespace FunctionRule

/-- A new value on one line brings no other line breaks. -/
theorem breaksWith_respace (hbroken : s.BrokenBy e) (p : ParamTag) {content : String}
    (hcontent : Unbroken content.toList) (required found : Int) :
    (respace s p content required found).BreaksWith s e := by
  have hempty := Changeset.breaksWith_empty hbroken
  refine respace_induction (fun _ => hempty) (fun v _ => ?_) fun _ _ blank _ change n hchange => ?_
  · exact hempty.replace v (brokenBy_of_unbroken hcontent)
  · exact hchange.replace blank (brokenBy_of_unbroken (unbroken_spaces n))

/-- A new spelling of a type brings no other line breaks. -/
theorem breaksWith_retype (hbroken : s.BrokenBy e) {value : Token} {old : String}
    (hvalue : Unbroken value.text.toList) (hold : Unbroken old.toList) :
    (retype value old (TypeName.normalize old)).BreaksWith s e := by
  refine (Changeset.breaksWith_empty hbroken).replace value (brokenBy_of_unbroken ?_)
  rw [String.toList_append, dropChars, String.toList_ofList]
  exact unbroken_append.2
    ⟨TypeName.unbroken_normalize hold, hvalue.sublist (List.drop_sublist _ _)⟩

end FunctionRule

/-- A repair breaks lines as the stream does. -/
theorem Repair.breaksWith (hs : s.Sound) (hbroken : s.BrokenBy e) (h : Repair s change) :
    change.BreaksWith s e := by
  have hplaced := hs.toPlaced
  cases h with
  | layout frames repair => exact repair.breaksWith hs hbroken frames
  | paramType frames param type value_eq change =>
      exact FunctionRule.breaksWith_retype hbroken
        (ParamTag.unbroken_value hplaced frames param value_eq)
        (ParamTag.unbroken_parts hplaced frames param).1
  | firstWord frames tag value_eq change =>
      have hvalue := (Block.fits_of_mem_tags hplaced frames tag).unbroken_value frames value_eq
      refine FunctionRule.breaksWith_retype hbroken hvalue ?_
      rw [before, String.toList_ofList]
      exact hvalue.sublist (List.takeWhile_sublist _)
  | padType frames param type var space =>
      exact FunctionRule.breaksWith_respace hbroken _
        (ParamTag.unbroken_render hplaced frames param _ _) _ _
  | padName frames param type var comment space =>
      exact FunctionRule.breaksWith_respace hbroken _
        (ParamTag.unbroken_render hplaced frames param _ _) _ _
  | blankAfterComment frames has kind documents lt following_eq line =>
      exact (Changeset.breaksWith_empty hbroken).blank _

end PhpDoc
