import PhpDoc.Proofs.Comment.ParamValue
import PhpDoc.Proofs.Rule.Function
import PhpDoc.Proofs.Rule.Listed

/-!
# The padding of parameter tags

The rules about the white space behind the type and behind the name of a parameter tag are fixed by
paddings of the tag, and no other rule is reported under their names (`pads_checkComment`). A
padding writes a value that is read into the same parts (`Padding.exists_respaces`).
-/

namespace PhpDoc

open Text

variable {s : Stream} {c : CommentSpan} {v : Violation} {change : Changeset}

namespace FunctionRule

/-- The names of the rules about the white space in the value of a parameter tag. -/
def paddingSources : List String :=
  ["FunctionComment.SpacingAfterParamType", "FunctionComment.SpacingAfterParamName"]

/-- The fix of the white space behind the type or behind the name in the parameter tag at an
index. -/
inductive Padding (s : Stream) (index : Nat) : Changeset → Prop where
  | type {c : CommentSpan} {p : ParamTag} (frames : s.Frames c)
      (param : p ∈ (Block.ofSpan s c).paramTags s) (index_eq : p.tag.token.index = index)
      (type : p.type.isEmpty = false) (var : p.var.isEmpty = false)
      (space : (p.typeSpace : Int) ≠ requiredPadding
        (ParamTag.longestType ((Block.ofSpan s c).paramTags s)) p.type.length) :
      Padding s index (padType s ((Block.ofSpan s c).paramTags s) p)
  | name {c : CommentSpan} {p : ParamTag} (frames : s.Frames c)
      (param : p ∈ (Block.ofSpan s c).paramTags s) (index_eq : p.tag.token.index = index)
      (type : p.type.isEmpty = false) (var : p.var.isEmpty = false)
      (comment : p.comment.isEmpty = false)
      (space : (p.varSpace : Int) ≠ requiredPadding
        (ParamTag.longestVar ((Block.ofSpan s c).paramTags s)) p.var.length) :
      Padding s index (padName s ((Block.ofSpan s c).paramTags s) p)

/-- A violation under the name of one of the rules about the white space is fixed by a padding of
the tag that it is found at. -/
def Pads (s : Stream) (v : Violation) : Prop :=
  v.source ∈ paddingSources → v.FixedBy (Padding s v.index)

/-- Nothing is said of other rules of functions. -/
theorem pads_fixed {code : String} (h : family ++ "." ++ code ∉ paddingSources) (message : String)
    (t : Token) (change : Changeset) : Pads s (.fixed family code message t change) :=
  fun hsource => absurd hsource h

/-- The rules for the type of a parameter tag are no rules about white space. -/
theorem pads_checkType {scalarHints : Bool} {f : Function} {p : ParamTag}
    {declared : Option Parameter} (h : v ∈ checkType scalarHints f p declared) : Pads s v := by
  rcases mem_checkType h with ⟨value, -, -, rfl⟩ | ⟨-, d, hhint⟩
  · exact pads_fixed (by decide) _ _ _
  · exact fun _ => fixedBy_checkHint hhint

/-- The padding in front of a description is fixed by a padding of its tag. -/
theorem pads_checkDescription (hc : s.Frames c) {p : ParamTag}
    (hp : p ∈ (Block.ofSpan s c).paramTags s) (htype : p.type.isEmpty = false)
    (hvar : p.var.isEmpty = false)
    (h : v ∈ checkDescription s (ParamTag.longestVar ((Block.ofSpan s c).paramTags s)) p) :
    Pads s v := by
  unfold checkDescription at h
  split at h
  · cases h
  · next hcomment =>
      have hcomment : p.comment.isEmpty = false := by simpa using hcomment
      simp only [List.mem_append] at h
      rcases h with (h | h) | h
      · unfold spacingAfterName at h
        obtain ⟨hne, rfl⟩ := mem_report.1 h
        exact fun _ => Violation.fixedBy_fixed
          (.name hc hp rfl htype hvar hcomment (bne_iff_ne.1 hne)) _ _ _ _
      · exact fun _ => Violation.fixedBy_of_mem_report h
      · exact fun _ => Violation.fixedBy_of_mem_report h

/-- The padding in a parameter tag is fixed by a padding of the tag. -/
theorem pads_checkParam (hc : s.Frames c) {p : ParamTag}
    (hp : p ∈ (Block.ofSpan s c).paramTags s) {scalarHints : Bool} {f : Function}
    {declared : Option Parameter}
    (h : v ∈ checkParam scalarHints s f ((Block.ofSpan s c).paramTags s) p declared) :
    Pads s v := by
  unfold checkParam at h
  split at h
  · cases h
  · next htype =>
      have htype : p.type.isEmpty = false := by simpa using htype
      rcases List.mem_append.1 h with h | h
      · exact pads_checkType h
      · split at h
        · cases h
        · next hvar =>
            have hvar : p.var.isEmpty = false := by simpa using hvar
            simp only [List.mem_append] at h
            rcases h with (h | h) | h
            · unfold spacingAfterType at h
              obtain ⟨hne, rfl⟩ := mem_report.1 h
              exact fun _ => Violation.fixedBy_fixed
                (.type hc hp rfl htype hvar (bne_iff_ne.1 hne)) _ _ _ _
            · exact fun _ => fixedBy_checkCounterpart h
            · exact pads_checkDescription hc hp htype hvar h

/-- The padding in the parameter tags is fixed by paddings of the tags. -/
theorem pads_checkParams (hc : s.Frames c) {scalarHints : Bool} {f : Function}
    (h : v ∈ checkParams scalarHints s (Block.ofSpan s c) f) : Pads s v := by
  unfold checkParams at h
  simp only [List.mem_append] at h
  rcases h with (h | h) | h
  · obtain ⟨p, -, hv⟩ := List.mem_flatMap.1 h
    exact fun _ => fixedBy_missingParts hv
  · obtain ⟨⟨p, i⟩, hp, hv⟩ := List.mem_flatMap.1 h
    exact pads_checkParam hc (List.fst_mem_of_mem_zipIdx hp) hv
  · unfold missingTags at h
    obtain ⟨name, -, rfl⟩ := List.mem_map.1 h
    exact fun _ => Violation.fixedBy_error _ _ _ _

/-- The rules for return tags are no rules about white space. -/
theorem pads_checkReturn {b : Block} {f : Function} (h : v ∈ checkReturn s b f) : Pads s v := by
  unfold checkReturn at h
  split at h
  · rw [List.mem_singleton.1 h]
    exact fun _ => Violation.fixedBy_error _ _ _ _
  · split at h
    · cases h
    · split at h
      · rw [List.mem_singleton.1 h]
        exact fun _ => Violation.fixedBy_error _ _ _ _
      · split at h
        · rw [List.mem_singleton.1 h]
          exact fun _ => Violation.fixedBy_error _ _ _ _
        · unfold checkReturnType at h
          simp only at h
          rcases List.mem_append.1 h with h | h
          · rw [(mem_report.1 h).2]
            exact pads_fixed (by decide) _ _ _
          · exact fun _ => fixedBy_checkExit h

/-- In the comment of a function white space is fixed by paddings of its tags. -/
theorem pads_checkComment (hc : s.Frames c) {scalarHints : Bool} {f : Function} {closer : Token}
    (h : v ∈ checkComment scalarHints s f closer c) : Pads s v := by
  unfold checkComment at h
  simp only [List.mem_append] at h
  rcases h with (((h | h) | h) | h) | h
  · unfold spacingAfterComment at h
    rw [(mem_report.1 h).2]
    exact pads_fixed (by decide) _ _ _
  · exact fun _ => fixedBy_checkSees h
  · exact pads_checkParams hc h
  · exact pads_checkReturn h
  · exact fun _ => fixedBy_checkThrows h

/-! ## What a padding writes -/

/-- The value of a parameter tag is what its text is read as. -/
theorem parse?_of_mem_paramTags {b : Block} {p : ParamTag} (hp : p ∈ b.paramTags s)
    {pv : ParamValue} (hpv : p.value = some pv) :
    ∃ value, p.tag.value = some value ∧ ParamValue.parse? value.text = some pv := by
  obtain ⟨t, -, rfl, htag⟩ := ParamTag.exists_of_mem_paramTags hp
  rw [ParamTag.value_ofTag] at hpv
  rw [htag]
  exact Option.bind_eq_some_iff.1 hpv

/-- White space of some width divides a description from the variable. -/
theorem varSpace_eq_zero {b : Block} {p : ParamTag} (hp : p ∈ b.paramTags s) :
    p.varSpace = 0 ↔ p.description = none := by
  rw [ParamTag.varSpace]
  cases hd : p.description with
  | none => exact iff_of_true rfl rfl
  | some d =>
      refine iff_of_false ?_ (by simp)
      obtain ⟨pv, hpv, hd⟩ := Option.bind_eq_some_iff.1 hd
      obtain ⟨value, -, hparse⟩ := parse?_of_mem_paramTags hp hpv
      obtain ⟨space, tail, hparts⟩ := ParamValue.exists_parts hparse
      cases hx : pv.var with
      | none =>
          rw [(hparts.bare hx).2] at hd
          cases hd
      | some x =>
          obtain ⟨after, -, -, -, hafter⟩ := hparts.var x hx
          obtain ⟨hspace, rfl⟩ := ParamValue.description?_eq_some.1 (hafter.symm.trans hd)
          simpa using hspace

/-- The change writes the value of the tag anew, and the new value is read into the same parts with
other spacing. -/
structure Respaces (s : Stream) (p : ParamTag) (value : Token) (pv : ParamValue)
    (change : Changeset) : Prop where
  fits : change.Over s
  value_eq : p.tag.value = some value
  has : s.Has value
  parse_eq : ParamValue.parse? value.text = some pv
  writes : change.current value ≠ value.text
  keeps : ∃ n m, ParamValue.parse? (change.current value) = some (pv.respaced n m)

/-- A value with another padding has the same parts, and no other token changes. -/
theorem exists_respaces (hs : s.Sound) (hc : s.Frames c) {p : ParamTag}
    (hp : p ∈ (Block.ofSpan s c).paramTags s) (htype : p.type.isEmpty = false)
    (hvar : p.var.isEmpty = false) {n m : Nat} (hne : n + m ≠ p.typeSpace + p.varSpace)
    (hn : n = 0 → p.typeSpace = 0) (hm : m = 0 ↔ p.description = none) (required found : Int) :
    ∃ value pv, Respaces s p value pv (respace s p (p.render p.type n m) required found) := by
  obtain ⟨value, hvalue, hhas, hkind, hlen⟩ := length_render hs hc hp htype hvar
  obtain ⟨-, pv, -, -, -, -, -, hpv, -⟩ := exists_value hs.toPlaced hc hp htype
  obtain ⟨w, hw, hparse⟩ := parse?_of_mem_paramTags hp hpv
  obtain rfl : value = w := Option.some.inj (hvalue.symm.trans hw)
  have hcurrent : (respace s p (p.render p.type n m) required found).current value =
      p.render p.type n m := current_respace hs.toPlaced hvalue hhas hkind
  refine ⟨value, pv, ?_, hvalue, hhas, hparse, ?_, n, m, ?_⟩
  · refine over_respace hs.toPlaced _ _ _ fun u hu => ?_
    rwa [← Option.some.inj (hvalue.symm.trans hu)]
  · rw [hcurrent]
    intro heq
    have hlen := hlen n m
    rw [heq] at hlen
    omega
  · rw [hcurrent]
    refine ParamValue.parse?_render hpv hparse ?_ (fun hzero => ?_) ?_
    · cases hx : pv.var with
      | none => simp [ParamTag.var, hpv, hx] at hvar
      | some x => rfl
    · simpa [ParamTag.typeSpace, hpv] using hn hzero
    · simpa [ParamTag.description, hpv] using hm

/-- A padding writes a value that is read into the same parts. -/
theorem Padding.exists_respaces (hs : s.Sound) {index : Nat} (h : Padding s index change) :
    ∃ c p value pv, s.Frames c ∧ p ∈ (Block.ofSpan s c).paramTags s ∧ p.tag.token.index = index ∧
      Respaces s p value pv change := by
  cases h with
  | @type c p frames param index_eq type var space =>
      have hone := one_le_requiredPadding (ParamTag.length_type_le_longest param)
      obtain ⟨value, pv, hrespaces⟩ : ∃ value pv,
          Respaces s p value pv (padType s ((Block.ofSpan s c).paramTags s) p) :=
        FunctionRule.exists_respaces hs frames param type var (by omega) (by omega)
          (varSpace_eq_zero param) _ _
      exact ⟨c, p, value, pv, frames, param, index_eq, hrespaces⟩
  | @name c p frames param index_eq type var comment space =>
      have hone := one_le_requiredPadding (ParamTag.length_var_le_longest param)
      have hdescription : p.description ≠ none := by
        intro hnone
        rw [ParamTag.comment, hnone] at comment
        cases comment
      obtain ⟨value, pv, hrespaces⟩ : ∃ value pv,
          Respaces s p value pv (padName s ((Block.ofSpan s c).paramTags s) p) :=
        FunctionRule.exists_respaces hs frames param type var (by omega) (fun hzero => hzero)
          (iff_of_false (by omega) hdescription) _ _
      exact ⟨c, p, value, pv, frames, param, index_eq, hrespaces⟩

end FunctionRule

end PhpDoc
