import PhpDoc.Proofs.Comment.Block
import PhpDoc.Proofs.Comment.ParamTag
import PhpDoc.Proofs.Comment.Star
import PhpDoc.Proofs.Rule.Repair

/-!
# Parameter fixes change something

The repair of a type puts another type in front of the same rest of the value, and the repair of a
padding writes a value of another length. The rules for parameters propose these repairs only
(`effective_checkParams`).
-/

namespace PhpDoc.FunctionRule

open Text

variable {s : Stream} {c : CommentSpan} {v : Violation}

/-- Another type in front of the rest of a value is another value. -/
theorem changes_retype {value : Token} (hvalue : s.Has value) {old new : String} (rest : List Char)
    (htext : value.text.toList = old.toList ++ rest) (hne : new ≠ old) :
    (retype value old new).Changes s := by
  refine ⟨(Changeset.over_empty s).replace hvalue _, value, hvalue, ?_⟩
  rw [retype, Changeset.current_replace, if_pos rfl]
  intro heq
  have hchars := congrArg String.toList heq
  rw [String.toList_append, toList_dropChars htext, htext] at hchars
  exact hne (String.toList_inj.1 (List.append_cancel_right hchars))

/-- What holds of a change of the value, and is kept by changes of the indentations, holds of the fix
of a padding. -/
theorem respace_induction {motive : Changeset → Prop} {p : ParamTag} {content : String}
    {required found : Int} (none : p.tag.value = none → motive Changeset.empty)
    (value : ∀ v, p.tag.value = some v → motive (Changeset.empty.replace v content))
    (indent : ∀ line ∈ p.more, ∀ blank, ParamTag.indentToken? s line = some blank →
      ∀ c n, motive c → motive (c.replace blank (spaces n))) :
    motive (respace s p content required found) := by
  unfold respace
  split
  · next hnone => exact none hnone
  · next v hv =>
      refine List.foldlRecOn _ _ (value v hv) fun c hc blank hblank => ?_
      obtain ⟨line, hline, hindent⟩ := List.mem_filterMap.1 hblank
      exact indent line hline blank hindent c _ hc

/-- The fix of a padding moves blanks and writes one value. -/
theorem over_respace (hs : s.Placed) {p : ParamTag} (content : String) (required found : Int)
    (hvalue : ∀ v, p.tag.value = some v → s.Has v) :
    (respace s p content required found).Over s := by
  refine respace_induction (fun _ => Changeset.over_empty s) (fun v hv => ?_)
    fun line _ blank hblank c n hc => ?_
  · exact (Changeset.over_empty s).replace (hvalue v hv) content
  · exact hc.replace (ParamTag.has_of_indentToken? hs hblank).1 _

/-- The fix of a padding writes the value as it should be. -/
theorem current_respace (hs : s.Placed) {p : ParamTag} {content : String} {required found : Int}
    {value : Token} (hv : p.tag.value = some value) (hhas : s.Has value)
    (hkind : value.kind = .docString) :
    (respace s p content required found).current value = content := by
  refine respace_induction (motive := fun c => c.current value = content) (fun hnone => ?_)
    (fun w hw => ?_) fun line _ blank hblank c n hc => ?_
  · rw [hv] at hnone
    cases hnone
  · obtain rfl : value = w := Option.some.inj (hv.symm.trans hw)
    rw [Changeset.current_replace, if_pos rfl]
  · obtain ⟨hblankHas, -, hblankKind, -⟩ := ParamTag.has_of_indentToken? hs hblank
    have hne : value.index ≠ blank.index := by
      intro heq
      rw [← hhas.eq hblankHas heq, hkind] at hblankKind
      cases hblankKind
    rw [Changeset.current_replace, if_neg hne, hc]

variable {p : ParamTag}

/-- A parameter tag with a type has a value, which starts with the type. -/
theorem exists_value (hs : s.Placed) (hc : s.Frames c)
    (hp : p ∈ (Block.ofSpan s c).paramTags s) (htype : p.type.isEmpty = false) :
    ∃ value pv space tail, p.tag.value = some value ∧ s.Has value ∧ value.kind = .docString ∧
      p.value = some pv ∧ ParamValue.Parts value.text pv space tail := by
  obtain ⟨t, ht, rfl, htag⟩ := ParamTag.exists_of_mem_paramTags hp
  have hfits := Block.fits_of_mem_tags hs hc ht
  have hvalue := ParamTag.value_ofTag s t
  cases hpv : (ParamTag.ofTag s t).value with
  | none =>
      rw [ParamTag.type, hpv] at htype
      cases htype
  | some pv =>
      rw [hvalue] at hpv
      obtain ⟨value, hv, hparse⟩ := Option.bind_eq_some_iff.1 hpv
      obtain ⟨space, tail, hparts⟩ := ParamValue.exists_parts hparse
      obtain ⟨hhas, hkind, -, -⟩ := hfits.value value hv
      exact ⟨value, pv, space, tail, htag.symm ▸ hv, hhas, hkind, rfl, hparts⟩

/-- A value with a variable has the length that its parts render to. -/
theorem length_render (hs : s.Sound) (hc : s.Frames c)
    (hp : p ∈ (Block.ofSpan s c).paramTags s) (htype : p.type.isEmpty = false)
    (hvar : p.var.isEmpty = false) :
    ∃ value, p.tag.value = some value ∧ s.Has value ∧ value.kind = .docString ∧
      ∀ m n, (p.render p.type m n).length + p.typeSpace + p.varSpace =
        value.text.length + m + n := by
  obtain ⟨value, pv, space, tail, hv, hhas, hkind, hpv, hparts⟩ :=
    exists_value hs.toPlaced hc hp htype
  refine ⟨value, hv, hhas, hkind, fun m n => ?_⟩
  obtain ⟨x, hx⟩ : ∃ x, pv.var = some x := by
    cases hx : pv.var with
    | none => simp [ParamTag.var, hpv, hx] at hvar
    | some x => exact ⟨x, rfl⟩
  obtain ⟨t, ht, rfl, htag⟩ := ParamTag.exists_of_mem_paramTags hp
  have hfits := Block.fits_of_mem_tags hs.toPlaced hc ht
  have hline : Unbroken value.text.toList := by
    rw [htag] at hv
    exact hfits.unbroken_value hc hv
  have hlen := hparts.length_text hline hx
  have hpvar : (ParamTag.ofTag s t).var = x := by simp [ParamTag.var, hpv, hx]
  have hptype : (ParamTag.ofTag s t).type = pv.type := by simp [ParamTag.type, hpv]
  have hpspace : (ParamTag.ofTag s t).typeSpace = pv.typeSpace := by simp [ParamTag.typeSpace, hpv]
  have hpdesc : (ParamTag.ofTag s t).description = pv.description := by
    simp [ParamTag.description, hpv]
  simp only [ParamTag.render, String.length_append, length_spaces, hpvar, hptype, hpspace,
    ParamTag.varSpace, ParamTag.firstLine, hpdesc]
  cases hd : pv.description with
  | none =>
      simp only [hd, Option.elim_none] at hlen ⊢
      simp only [String.length_empty]
      omega
  | some d =>
      simp only [hd, Option.elim_some] at hlen ⊢
      omega

/-! ## The findings about parameters -/

/-- No part that is missing is put in. -/
theorem fixedBy_missingParts {q : Changeset → Prop} (h : v ∈ missingParts p) : v.FixedBy q := by
  unfold missingParts at h
  split at h
  · rw [List.mem_singleton.1 h]
    exact Violation.fixedBy_error _ _ _ _
  · split at h
    · rw [List.mem_singleton.1 h]
      exact Violation.fixedBy_error _ _ _ _
    · rw [List.mem_singleton.1 h]
      exact Violation.fixedBy_error _ _ _ _
    · cases h

/-- No declared type is changed. -/
theorem fixedBy_checkHint {q : Changeset → Prop} {scalarHints : Bool} {f : Function}
    {declared : Parameter} (h : v ∈ checkHint scalarHints f p declared) : v.FixedBy q := by
  unfold checkHint at h
  simp only at h
  split at h
  · split at h
    · rw [List.mem_singleton.1 h]
      exact Violation.fixedBy_warning _ _ _ _
    · rw [List.mem_singleton.1 h]
      exact Violation.fixedBy_error _ _ _ _
  · split at h
    · rw [List.mem_singleton.1 h]
      exact Violation.fixedBy_error _ _ _ _
    · split at h
      · rw [List.mem_singleton.1 h]
        exact Violation.fixedBy_error _ _ _ _
      · cases h

/-- Another spelling of the type of a parameter tag changes the value of the tag. -/
theorem changes_paramType (hs : s.Placed) (hc : s.Frames c)
    (hp : p ∈ (Block.ofSpan s c).paramTags s) (htype : p.type.isEmpty = false) {value : Token}
    (hvalue : p.tag.value = some value) (hne : TypeName.normalize p.type ≠ p.type) :
    (retype value p.type (TypeName.normalize p.type)).Changes s := by
  obtain ⟨w, pv, space, tail, hv, hhas, -, hpv, hparts⟩ := exists_value hs hc hp htype
  obtain rfl : value = w := Option.some.inj (hvalue.symm.trans hv)
  refine changes_retype hhas (space ++ tail) ?_ hne
  rw [ParamTag.type, hpv, hparts.text, List.append_assoc]
  rfl

/-- The type of a parameter tag is found at fault for its spelling or, when that is the preferred
one, against the declared type. -/
theorem mem_checkType {scalarHints : Bool} {f : Function} {declared : Option Parameter}
    (h : v ∈ checkType scalarHints f p declared) :
    (∃ value, p.tag.value = some value ∧ TypeName.normalize p.type ≠ p.type ∧
      v = .fixed family "IncorrectParamVarName"
        ("Expected \"" ++ TypeName.normalize p.type ++ "\" but found \"" ++ p.type ++
          "\" for parameter type")
        p.tag.token (retype value p.type (TypeName.normalize p.type))) ∨
    TypeName.normalize p.type = p.type ∧ ∃ d, v ∈ checkHint scalarHints f p d := by
  unfold checkType at h
  simp only at h
  split at h
  · cases h
  · next value hvalue =>
      split at h
      · next hne => exact .inl ⟨value, hvalue, bne_iff_ne.1 hne, List.mem_singleton.1 h⟩
      · next heq =>
          split at h
          · cases h
          · cases declared with
            | none =>
                rw [Option.elim_none] at h
                cases h
            | some d =>
                rw [Option.elim_some] at h
                exact .inr ⟨by simpa using heq, d, h⟩

/-- The type of a parameter tag is fixed by a repair. -/
theorem effective_checkType (hc : s.Frames c)
    (hp : p ∈ (Block.ofSpan s c).paramTags s) (htype : p.type.isEmpty = false)
    {scalarHints : Bool} {f : Function} {declared : Option Parameter}
    (h : v ∈ checkType scalarHints f p declared) : v.Effective s := by
  rcases mem_checkType h with ⟨value, hvalue, hne, rfl⟩ | ⟨-, d, hhint⟩
  · exact Violation.fixedBy_fixed (.paramType hc hp htype hvalue hne) _ _ _ _
  · exact fixedBy_checkHint hhint

/-- A value that is written with paddings of another width in all is another value. -/
theorem changes_respace (hs : s.Sound) (hc : s.Frames c)
    (hp : p ∈ (Block.ofSpan s c).paramTags s) (htype : p.type.isEmpty = false)
    (hvar : p.var.isEmpty = false) {m n : Nat} (hne : m + n ≠ p.typeSpace + p.varSpace)
    (required found : Int) : (respace s p (p.render p.type m n) required found).Changes s := by
  obtain ⟨value, hv, hhas, hkind, hlen⟩ := length_render hs hc hp htype hvar
  refine ⟨over_respace hs.toPlaced _ _ _ fun w hw => ?_, value, hhas, ?_⟩
  · rw [← Option.some.inj (hv.symm.trans hw)]
    exact hhas
  · rw [current_respace hs.toPlaced hv hhas hkind]
    intro heq
    have := hlen m n
    rw [heq] at this
    omega

/-- Padding a type to its column changes the value of the tag. -/
theorem changes_padType (hs : s.Sound) (hc : s.Frames c)
    (hp : p ∈ (Block.ofSpan s c).paramTags s) (htype : p.type.isEmpty = false)
    (hvar : p.var.isEmpty = false)
    (hne : (p.typeSpace : Int) ≠ requiredPadding
      (ParamTag.longestType ((Block.ofSpan s c).paramTags s)) p.type.length) :
    (padType s ((Block.ofSpan s c).paramTags s) p).Changes s := by
  have hone := one_le_requiredPadding (ParamTag.length_type_le_longest hp)
  exact changes_respace hs hc hp htype hvar (by omega) _ _

/-- Padding a name to its column changes the value of the tag. -/
theorem changes_padName (hs : s.Sound) (hc : s.Frames c)
    (hp : p ∈ (Block.ofSpan s c).paramTags s) (htype : p.type.isEmpty = false)
    (hvar : p.var.isEmpty = false)
    (hne : (p.varSpace : Int) ≠ requiredPadding
      (ParamTag.longestVar ((Block.ofSpan s c).paramTags s)) p.var.length) :
    (padName s ((Block.ofSpan s c).paramTags s) p).Changes s := by
  have hone := one_le_requiredPadding (ParamTag.length_var_le_longest hp)
  exact changes_respace hs hc hp htype hvar (by omega) _ _

/-- No documented name is changed. -/
theorem fixedBy_checkCounterpart {q : Changeset → Prop} {declared : Option Parameter}
    (h : v ∈ checkCounterpart p declared) : v.FixedBy q := by
  unfold checkCounterpart at h
  split at h
  · unfold checkName at h
    simp only at h
    split at h
    · cases h
    · split at h
      · rw [List.mem_singleton.1 h]
        exact Violation.fixedBy_error _ _ _ _
      · rw [List.mem_singleton.1 h]
        exact Violation.fixedBy_error _ _ _ _
  · exact Violation.fixedBy_of_mem_report h

/-- Every finding at a parameter tag is effective. -/
theorem effective_checkParam (hc : s.Frames c)
    (hp : p ∈ (Block.ofSpan s c).paramTags s) {scalarHints : Bool} {f : Function}
    {declared : Option Parameter}
    (h : v ∈ checkParam scalarHints s f ((Block.ofSpan s c).paramTags s) p declared) :
    v.Effective s := by
  unfold checkParam at h
  split at h
  · cases h
  · next htype =>
      have htype : p.type.isEmpty = false := by simpa using htype
      rcases List.mem_append.1 h with h | h
      · exact effective_checkType hc hp htype h
      · split at h
        · cases h
        · next hvar =>
            have hvar : p.var.isEmpty = false := by simpa using hvar
            simp only [List.mem_append] at h
            rcases h with (h | h) | h
            · unfold spacingAfterType at h
              exact Violation.fixedBy_of_mem_report_fixed h fun hne =>
                .padType hc hp htype hvar (bne_iff_ne.1 hne)
            · exact fixedBy_checkCounterpart h
            · unfold checkDescription at h
              split at h
              · cases h
              · next hcomment =>
                  have hcomment : p.comment.isEmpty = false := by simpa using hcomment
                  simp only [List.mem_append] at h
                  rcases h with (h | h) | h
                  · unfold spacingAfterName at h
                    exact Violation.fixedBy_of_mem_report_fixed h fun hne =>
                      .padName hc hp htype hvar hcomment (bne_iff_ne.1 hne)
                  · exact Violation.fixedBy_of_mem_report h
                  · exact Violation.fixedBy_of_mem_report h

/-- Every finding about the parameters of a function is effective. -/
theorem effective_checkParams (hc : s.Frames c) {scalarHints : Bool} {f : Function}
    (h : v ∈ checkParams scalarHints s (Block.ofSpan s c) f) : v.Effective s := by
  unfold checkParams at h
  simp only [List.mem_append] at h
  rcases h with (h | h) | h
  · obtain ⟨p, -, hv⟩ := List.mem_flatMap.1 h
    exact fixedBy_missingParts hv
  · obtain ⟨⟨p, i⟩, hp, hv⟩ := List.mem_flatMap.1 h
    exact effective_checkParam hc (List.fst_mem_of_mem_zipIdx hp) hv
  · unfold missingTags at h
    obtain ⟨name, -, rfl⟩ := List.mem_map.1 h
    exact Violation.fixedBy_error _ _ _ _

end PhpDoc.FunctionRule
