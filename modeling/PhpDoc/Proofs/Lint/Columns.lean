import PhpDoc.Proofs.Comment.ParamValue
import PhpDoc.Proofs.Lint.Tidy
import PhpDoc.Proofs.Rule.Function
import PhpDoc.Proofs.Text.Join

/-!
# The columns of parameter tags

A parameter tag is in its columns when its name starts one space behind the longest type of the
comment, and the description on its line one space behind the longest name. Where no rule about
parameters finds anything to fix, the types are spelled in the preferred way and the tags are in
their columns (`FunctionRule.inColumns_of_silent`), and so they are in every converged result
(`Lint.columns_of_converged`).
-/

namespace PhpDoc

open Text

variable {s : Stream} {c : CommentSpan} {p : ParamTag}

/-- The name of the tag starts in the column behind the longest type among the tags, and the
description on its line, if there is one, in the column behind the longest name. -/
def ParamTag.InColumns (ps : List ParamTag) (p : ParamTag) : Prop :=
  ∃ value afterType rest, p.tag.value = some value ∧
    value.text.toList = p.type.toList ++ afterType ++ (p.var.toList ++ rest) ∧
    (∀ c ∈ afterType, isSpace c = true) ∧
    p.type.length + afterType.length = longestType ps + 1 ∧
    ∀ d, p.description = some d → d.text ≠ "" → ∃ afterName,
      rest = afterName ++ d.text.toList ∧ (∀ c ∈ afterName, isSpace c = true) ∧
      p.type.length + afterType.length + p.var.length + afterName.length =
        longestType ps + 1 + longestVar ps + 1

/-- On one line the description is all that stands behind the white space. -/
theorem ParamValue.eq_append_of_description? {after : List Char} {d : ParamText}
    (h : description? after = some d) (hline : Unbroken after) :
    ∃ space, after = space ++ d.text.toList ∧ (∀ c ∈ space, isSpace c = true) ∧
      space.length = d.space := by
  obtain ⟨-, rfl⟩ := description?_eq_some.1 h
  have hwhole : (after.dropWhile isSpace).takeWhile (· != '\n') = after.dropWhile isSpace := by
    refine List.takeWhile_eq_self_iff.2 fun c hc => ?_
    have hbreak := hline c ((List.dropWhile_sublist _).mem hc)
    have hne : c ≠ '\n' := by
      rintro rfl
      cases hbreak
    simpa using hne
  refine ⟨after.takeWhile isSpace, ?_, fun c hc => List.mem_takeWhile_imp hc, rfl⟩
  show after = after.takeWhile isSpace ++
    (String.ofList ((after.dropWhile isSpace).takeWhile (· != '\n'))).toList
  rw [String.toList_ofList, hwhole, List.takeWhile_append_dropWhile]

namespace FunctionRule

/-- A tag whose type is padded as required, and its name too if a description follows, is in its
columns. -/
theorem inColumns_of_padded (hs : s.Placed) (hc : s.Frames c)
    (hp : p ∈ (Block.ofSpan s c).paramTags s) (htype : p.type.isEmpty = false)
    (hvar : p.var.isEmpty = false) {ps : List ParamTag}
    (hpadType : (p.typeSpace : Int) = requiredPadding (ParamTag.longestType ps) p.type.length)
    (hpadVar : p.comment.isEmpty = false →
      (p.varSpace : Int) = requiredPadding (ParamTag.longestVar ps) p.var.length) :
    p.InColumns ps := by
  obtain ⟨value, pv, space, tail, hv, hhas, hkind, hpv, hparts⟩ := exists_value hs hc hp htype
  obtain ⟨x, hx⟩ : ∃ x, pv.var = some x := by
    cases hx : pv.var with
    | none => simp [ParamTag.var, hpv, hx] at hvar
    | some x => exact ⟨x, rfl⟩
  obtain ⟨after, rfl, -, -, hdescription⟩ := hparts.var x hx
  have hpvar : p.var = x := by simp [ParamTag.var, hpv, hx]
  have hptype : p.type = pv.type := by simp [ParamTag.type, hpv]
  have hpspace : p.typeSpace = pv.typeSpace := by simp [ParamTag.typeSpace, hpv]
  have hpdesc : p.description = ParamValue.description? after := by
    simp [ParamTag.description, hpv, hdescription]
  have htypeColumn : p.type.length + space.length = ParamTag.longestType ps + 1 := by
    rw [hparts.width, ← hpspace]
    unfold requiredPadding at hpadType
    omega
  refine ⟨value, space, after, hv, ?_, hparts.spaces, htypeColumn, fun d hd hne => ?_⟩
  · rw [hptype, hpvar]
    exact hparts.text
  · have hline : Unbroken after := by
      obtain ⟨t, ht, -, htag⟩ := ParamTag.exists_of_mem_paramTags hp
      have hwhole : Unbroken value.text.toList :=
        (Block.fits_of_mem_tags hs hc ht).unbroken_value hc (htag ▸ hv)
      rw [hparts.text] at hwhole
      exact (unbroken_append.1 (unbroken_append.1 hwhole).2).2
    obtain ⟨gap, hgap, hspaces, hwidth⟩ :=
      ParamValue.eq_append_of_description? (hpdesc ▸ hd) hline
    -- a description on the line of the tag is part of the comment, so its column is checked
    have hcomment : p.comment.isEmpty = false := by
      have hpart : d.text.toList <:+: p.comment.toList := by
        rw [ParamTag.comment, hd]
        exact infix_join List.mem_cons_self
      by_contra hempty
      have hempty : p.comment = "" := by simpa using hempty
      rw [hempty] at hpart
      exact hne (String.toList_eq_nil_iff.1 (List.infix_nil.1 hpart))
    have hvarSpace : p.varSpace = d.space := by simp [ParamTag.varSpace, hd]
    have hpad := hpadVar hcomment
    unfold requiredPadding at hpad
    exact ⟨gap, hgap, hspaces, by omega⟩

/-- Where no rule about parameters finds anything to fix, the types are spelled in the preferred way
and the tags with a name are in their columns. -/
theorem inColumns_of_silent (hs : s.Placed) (hc : s.Frames c) {scalarHints : Bool} {f : Function}
    (h : Silent (checkParams scalarHints s (Block.ofSpan s c) f))
    (hp : p ∈ (Block.ofSpan s c).paramTags s) (htype : p.type.isEmpty = false) :
    TypeName.normalize p.type = p.type ∧
      (p.var.isEmpty = false → p.InColumns ((Block.ofSpan s c).paramTags s)) := by
  unfold checkParams at h
  simp only [silent_append] at h
  obtain ⟨⟨-, hparams⟩, -⟩ := h
  obtain ⟨i, hi⟩ := List.mem_iff_getElem?.1 hp
  have hmem : (p, i) ∈ ((Block.ofSpan s c).paramTags s).zipIdx := List.mem_zipIdx_iff_getElem?.2 hi
  have hparam : Silent (checkParam scalarHints s f ((Block.ofSpan s c).paramTags s) p
      f.parameters[i]?) :=
    fun v hv => hparams v (List.mem_flatMap.2 ⟨(p, i), hmem, hv⟩)
  unfold checkParam at hparam
  rw [if_neg (by simp [htype]), silent_append] at hparam
  obtain ⟨hchecked, hnamed⟩ := hparam
  obtain ⟨value, -, -, -, hv, -⟩ := exists_value hs hc hp htype
  refine ⟨?_, fun hvar => ?_⟩
  · by_contra hne
    unfold checkType at hchecked
    simp only [hv, bne_iff_ne.2 hne, ↓reduceIte] at hchecked
    have := hchecked _ (List.mem_singleton_self _)
    cases this
  · rw [if_neg (by simp [hvar]), silent_append, silent_append] at hnamed
    obtain ⟨⟨htypePad, -⟩, hdescription⟩ := hnamed
    refine inColumns_of_padded hs hc hp htype hvar ?_ fun hcomment => ?_
    · simpa using condition_of_silent htypePad
    · unfold checkDescription at hdescription
      rw [if_neg (by simp [hcomment]), silent_append, silent_append] at hdescription
      simpa using condition_of_silent hdescription.1.1

end FunctionRule

namespace Lint

variable {config : Config} {text : String} {r : FixResult}

/-- A comment is found by its close marker. -/
theorem commentClosedAt?_closer (hs : s.Sound) (hc : c ∈ s.comments) :
    s.commentClosedAt? c.closer.index = some c := by
  have hframes := hs.frames hc
  obtain ⟨d, hd, hcloser, hfound⟩ :=
    exists_commentClosedAt hs hframes.closer hframes.closerKind
  have hd := hs.frames hd
  have hopener : d.opener.index ≤ c.closer.index := hcloser ▸ Nat.le_of_lt hd.lt
  obtain rfl : c = d := hframes.eq_of_mem hd (Nat.le_of_lt hframes.lt) (Nat.le_refl _) hopener
    (Nat.le_of_eq (congrArg Token.index hcloser.symm))
  exact hfound

/-- In a converged result the parameter tags of every documented function have types in the
preferred spelling, and those with a name are in their columns. -/
theorem columns_of_converged (h : fix config text = .ok r) (hconverged : r.converged = true) :
    ∃ s, tokenize r.text = .ok s ∧ ∀ t ∈ s.tokens.toList, t.kind = .function → ∀ c ∈ s.comments,
      Preceding.find s FunctionRule.isLead t.index = .doc c.closer →
        ∀ p ∈ (Block.ofSpan s c).paramTags s, p.type.isEmpty = false →
          TypeName.normalize p.type = p.type ∧
            (p.var.isEmpty = false → p.InColumns ((Block.ofSpan s c).paramTags s)) := by
  obtain ⟨s, hs, hcheck, hnot⟩ := not_fixable_of_converged h hconverged
  have hsound := Stream.sound_of_tokenize hs
  refine ⟨s, hs, fun t ht hkind c hc hfind p hp htype => ?_⟩
  have htoken : checkToken config s t = .ok (FunctionRule.checkComment config.scalarHints s
      (Function.ofToken s t) c.closer c) := by
    simp only [checkToken, hkind, checkFunction, hfind, commentClosedAt?_closer hsound hc]
  have hsilent : Silent (FunctionRule.checkParams config.scalarHints s (Block.ofSpan s c)
      (Function.ofToken s t)) := by
    intro v hv
    refine hnot v ((mem_checkStream hcheck).2 ⟨t, ht, _, htoken, ?_⟩)
    unfold FunctionRule.checkComment
    simp only [List.mem_append]
    exact .inl (.inl (.inr hv))
  exact FunctionRule.inColumns_of_silent hsound.toPlaced (hsound.frames hc) hsilent hp htype

/-- Fixing the comment of a function puts both of its parameters in their columns. -/
theorem columns_two_parameters :
    let text := "<?php\n/**\n * @param int $ab C.\n * @param boolean $d E.\n */\nfunction f() \x7b\x7d"
    ∃ r s, fix Config.default text = .ok r ∧ r.converged = true ∧ tokenize r.text = .ok s ∧
      ∃ c ∈ s.comments, (∃ p ∈ (Block.ofSpan s c).paramTags s, p.type = "bool" ∧ p.var = "$d") ∧
        ∀ p ∈ (Block.ofSpan s c).paramTags s, p.InColumns ((Block.ofSpan s c).paramTags s) := by
  intro text
  let fixed :=
    "<?php\n/**\n * @param int  $ab C.\n * @param bool $d  E.\n */\nfunction f() \x7b\x7d"
  obtain ⟨r, hr, hany⟩ := exists_ok_of_any (x := fix Config.default text)
    (p := fun r => r.converged && r.text == fixed) (by decide +kernel)
  simp only [Bool.and_eq_true, beq_iff_eq] at hany
  obtain ⟨hconverged, htext⟩ := hany
  obtain ⟨s, hs, hcolumns⟩ := columns_of_converged hr hconverged
  obtain ⟨s', hs', hlook⟩ := exists_ok_of_any (x := tokenize fixed)
    (p := fun s => s.tokens.toList.any fun t => s.comments.any fun c =>
      let ps := (Block.ofSpan s c).paramTags s
      decide (t.kind = .function ∧
        Preceding.find s FunctionRule.isLead t.index = .doc c.closer ∧
        (∃ p ∈ ps, p.type = "bool" ∧ p.var = "$d") ∧
        ∀ p ∈ ps, p.type.isEmpty = false ∧ p.var.isEmpty = false))
    (by decide +kernel)
  obtain rfl : s = s' := Except.ok.inj (hs.symm.trans (htext ▸ hs'))
  obtain ⟨t, ht, hlook⟩ := List.any_eq_true.1 hlook
  obtain ⟨c, hc, hlook⟩ := List.any_eq_true.1 hlook
  obtain ⟨hkind, hfind, hpresent, hfull⟩ := of_decide_eq_true hlook
  refine ⟨r, s, hr, hconverged, hs, c, hc, hpresent, fun p hp => ?_⟩
  exact (hcolumns t ht hkind c hc hfind p hp (hfull p hp).1).2 (hfull p hp).2

end Lint

end PhpDoc
