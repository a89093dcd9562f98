import PhpDoc.Proofs.Comment.Retype
import PhpDoc.Proofs.Documented.Declaration
import PhpDoc.Proofs.Documented.Layout
import PhpDoc.Rule.Function

/-!
# The parameters of a documented function

Every parameter tag is read as the type, the variable and the description that were written into its
columns, and agrees with the declared parameter at its place, so no rule about parameters finds
anything (`FunctionRule.checkParams_documented`).
-/

namespace PhpDoc

open Text Lexer Documented

/-! ## The value of a tag -/

namespace ParamDoc

variable {d : ParamDoc}

/-- What the value of the tag is read into. -/
def parsed (typeWidth varWidth : Nat) (d : ParamDoc) : ParamValue :=
  ⟨d.type, typeWidth - d.type.length + 1, some d.var,
    some ⟨varWidth - d.var.length + 1, d.description⟩⟩

/-- A proper type is not empty. -/
theorem Proper.type_toList_ne_nil (h : d.Proper) : d.type.toList ≠ [] := by
  simpa using h.type_ne_empty

/-- A proper type is a name. -/
theorem Proper.isNamePart_type (h : d.Proper) :
    ∀ c ∈ d.type.toList, ParamValue.isNamePart c = true := by
  intro c hc
  have hspace := (isWord_of_isLabelPart (h.isLabelPart_type c hc)).2
  have hne : ∀ x : Char, x.isAlpha = false → c ≠ x := by
    rintro x hx rfl
    rw [h.letters c hc] at hx
    cases hx
  simp [ParamValue.isNamePart, ParamValue.isSigil, ParamValue.isParen, hspace, hne]

/-- A documented type of letters ends at the space behind it. -/
theorem Proper.divides (h : d.Proper) (n : Nat) (rest : List Char) {text : String}
    (htext : text.toList = d.type.toList ++ ((spaces (n + 1)).toList ++ rest)) :
    ParamValue.Divides text d.type ((spaces (n + 1)).toList ++ rest) := by
  have hstop : ParamValue.Stops ((spaces (n + 1)).toList ++ rest) := by
    rw [ParamValue.toList_spaces_succ]
    exact .inr (by simp; decide)
  refine ⟨htext, h.type_toList_ne_nil, ?_⟩
  rw [htext, ParamValue.whole_of_names h.isNamePart_type _
    (by simp [ParamValue.toList_spaces_succ]), ParamValue.typeWidth_stop hstop, Nat.add_zero]

/-- The name of a proper parameter is a variable. -/
theorem Proper.isVariable (h : d.Proper) : ParamValue.IsVariable d.var.toList := by
  obtain ⟨c, part, hname, hc, hpart⟩ := h.name
  have hvar : d.var.toList = [] ++ '$' :: d.name.toList := by simp [var]
  rw [hvar]
  refine .of_parts (.inl rfl) rfl (by simp [hname]) fun x hx => ?_
  exact (isWord_of_isLabelPart (h.isLabelPart_name x hx)).2

/-- A proper description stands on one line. -/
theorem Proper.not_mem_description (h : d.Proper) : '\n' ∉ d.description.toList := by
  intro hmem
  have hbreak := h.unbroken '\n' hmem
  cases hbreak

/-- A value that is written from its parts is parsed into them, whatever the padding. -/
theorem Proper.parse?_value (h : d.Proper) (typeWidth varWidth : Nat) :
    ParamValue.parse? (d.value typeWidth varWidth) = some (d.parsed typeWidth varWidth) := by
  have hspaced : ParamValue.Spaced
      ((spaces (typeWidth - d.type.length + 1)).toList ++ (d.var.toList ++
        ((spaces (varWidth - d.var.length + 1)).toList ++ d.description.toList)))
      (spaces (typeWidth - d.type.length + 1)).toList d.var.toList
      ((spaces (varWidth - d.var.length + 1)).toList ++ d.description.toList) := by
    refine ⟨rfl, fun c => ParamValue.isSpace_of_mem_spaces, h.isVariable, ?_⟩
    rw [ParamValue.toList_spaces_succ]
    simp
    decide
  have hwhole : (d.value typeWidth varWidth).toList = d.type.toList ++
      ((spaces (typeWidth - d.type.length + 1)).toList ++ (d.var.toList ++
        ((spaces (varWidth - d.var.length + 1)).toList ++ d.description.toList))) := by
    simp [value]
  rw [(h.divides _ _ hwhole).parse?, hspaced.ofParts, parsed,
    ParamValue.description?_spaces (by omega) (fun c hc => (h.capital c hc).1)
      h.not_mem_description]
  simp [spaces]

end ParamDoc

/-! ## The tags -/

/-- What a parameter tag holds besides its place. -/
def ParamTag.content (p : ParamTag) : Option ParamValue × List Token :=
  (p.value, p.more)

namespace Documented

variable {s : Stream} {i l j m stop : Nat} {x v : String} {xs : List String}

/-- The tag of a row is not continued on later lines. -/
theorem Row.content_ofTag (hs : s.Placed) (h : Row s i l x stop) :
    (ParamTag.ofTag s (tag i l stop x)).content = (ParamValue.parse? x, []) := by
  have hcontinuation : (tag i l stop x).continuation s = [] := by
    refine List.filter_eq_nil_iff.2 fun u hu hstring => ?_
    obtain ⟨hhas, hlow, hhigh⟩ := hs.mem_between.1 hu
    have hfiller := h.filler u hhas hlow hhigh
    rw [beq_iff_eq.1 hstring] at hfiller
    cases hfiller
  have hvalue : (tag i l stop x).value.bind (fun v => ParamValue.parse? v.text) =
      ParamValue.parse? x := rfl
  unfold ParamTag.ofTag
  rw [hvalue, hcontinuation]
  cases ParamValue.parse? x with
  | none => rfl
  | some pv => simp [ParamTag.content]

/-- The parameter tags in the lines have the values of the lines, and nothing continues them. -/
theorem Rows.content_ofTag (hs : s.Placed) (h : Rows s i l xs v j m) :
    (earlierTags i l xs ++ [tag j m (j + 13) v]).map (fun t => (ParamTag.ofTag s t).content) =
      (xs ++ [v]).map fun x => (ParamValue.parse? x, []) := by
  induction xs generalizing i l with
  | nil => simp [earlierTags, (h.row_last hs).content_ofTag hs]
  | cons x xs ih =>
      rw [earlierTags, List.cons_append, List.cons_append, List.map_cons, List.map_cons, ih h.tail,
        (h.row hs).content_ofTag hs]

end Documented

namespace Stream.Documents

variable {s : Stream} {c : CommentSpan} {xs : List String} {v : String} {j m : Nat}
  {before after : List Token}

/-- The tags of the comment with the name for parameters are the parameter tags. -/
theorem tagsNamed_param (h : s.Documents c xs v j m before after) :
    (Block.ofSpan s c).tagsNamed "@param" = paramTags c xs v j m := by
  have hparams : (paramTags c xs v j m).filter (·.name == "@param") = paramTags c xs v j m :=
    List.filter_eq_self.2 fun t ht => by simp [(of_mem_paramTags ht).1]
  rw [Block.tagsNamed, h.tags_eq, List.filter_append, hparams]
  simp [returnTag, Tag.name]

/-- A tag of the comment with another name can only be the return tag. -/
theorem tagsNamed_of_ne (h : s.Documents c xs v j m before after) {name : String}
    (hname : "@param" ≠ name) : (Block.ofSpan s c).tagsNamed name =
      [returnTag (j + 7) (m + 1) (j + 18)].filter (·.name == name) := by
  have hparams : (paramTags c xs v j m).filter (·.name == name) = [] :=
    List.filter_eq_nil_iff.2 fun t ht => by simp [(of_mem_paramTags ht).1, hname]
  rw [Block.tagsNamed, h.tags_eq, List.filter_append, hparams, List.nil_append]

/-- The parameter tags are read from the values of the rows. -/
theorem content_paramTags (h : s.Documents c xs v j m before after) :
    ((Block.ofSpan s c).paramTags s).map ParamTag.content =
      (xs ++ [v]).map fun x => (ParamValue.parse? x, []) := by
  rw [Block.paramTags, h.tagsNamed_param, List.map_map, ← h.rows.content_ofTag h.sound.toPlaced]
  rfl

end Stream.Documents

/-! ## The rules about parameters -/

namespace FunctionRule

variable {s : Stream} {b : Block} {f : Function} {p : ParamTag} {d : ParamDoc}
  {ps : List ParamTag} {ds : List ParamDoc}

/-- The tag has the parsed value of the parameter in columns, and no continuation. -/
def Holds (ds : List ParamDoc) (p : ParamTag) (d : ParamDoc) : Prop :=
  p.content = (some (d.parsed (longestType ds) (longestVar ds)), [])

/-- A tag that holds a documented parameter has its type, its name and its description in columns.
-/
theorem Holds.parts (h : Holds ds p d) : p.type = d.type ∧ p.var = d.var ∧
    p.typeSpace = longestType ds - d.type.length + 1 ∧
      p.varSpace = longestVar ds - d.var.length + 1 ∧ p.comment = d.description := by
  have hvalue : p.value = some (d.parsed (longestType ds) (longestVar ds)) := congrArg Prod.fst h
  have hmore : p.more = [] := congrArg Prod.snd h
  simp [ParamTag.type, ParamTag.var, ParamTag.typeSpace, ParamTag.varSpace, ParamTag.comment,
    ParamTag.description, hvalue, hmore, ParamDoc.parsed]

/-- A tag that holds a documented parameter lacks no part. -/
theorem missingParts_of_holds (h : Holds ds p d) : missingParts p = [] := by
  have hvalue : p.value = some (d.parsed (longestType ds) (longestVar ds)) := congrArg Prod.fst h
  simp [missingParts, hvalue, ParamDoc.parsed]

/-- A declared type matches itself as a hint. -/
theorem hintMatches_self (hd : d.Proper) : TypeName.hintMatches d.type d.type = true := by
  obtain ⟨c, part, htype, hc, -⟩ := hd.isLabel_type
  have hmark : c ≠ '?' := by
    rintro rfl
    cases hc
  unfold TypeName.hintMatches
  simp only [htype]
  split
  · next rest heq => exact absurd (List.cons.inj heq).1 hmark
  · simp

/-- A parameter that is declared with its documented type gives no finding about the type. -/
theorem checkHint_documented (hd : d.Proper) (htype : p.type = d.type) :
    checkHint true f p d.parameter = [] := by
  have hne : d.type.isEmpty = false := by simpa using hd.type_ne_empty
  unfold checkHint
  simp [htype, hd.hint, ParamDoc.parameter, hne, hintMatches_self hd]

/-- A documented type that is declared and spelled well gives no finding. -/
theorem checkType_documented (hd : d.Proper) (htype : p.type = d.type) :
    checkType true f p (some d.parameter) = [] := by
  unfold checkType
  cases p.tag.value with
  | none => rfl
  | some value => simp [htype, hd.normalize, checkHint_documented hd htype]

/-- A tag that holds its parameter gives no finding at all. -/
theorem checkParam_documented (hd : d.Proper) (h : Holds ds p d) (hmem : d ∈ ds)
    (htypes : ParamTag.longestType ps = longestType ds)
    (hvars : ParamTag.longestVar ps = longestVar ds) :
    checkParam true s f ps p (some d.parameter) = [] := by
  obtain ⟨htype, hvar, htypeSpace, hvarSpace, hcomment⟩ := h.parts
  have htypeSpacing : spacingAfterType s (ParamTag.longestType ps) p = [] := by
    have hle : d.type.length ≤ longestType ds :=
      le_foldl_max (List.mem_map_of_mem (f := (·.type.length)) hmem) 0
    refine report_of_not ?_ _
    rw [htypeSpace, htypes, htype, requiredPadding, bne_eq_false_iff_eq]
    omega
  have hvarSpacing : spacingAfterName s (ParamTag.longestVar ps) p = [] := by
    have hle : d.var.length ≤ longestVar ds :=
      le_foldl_max (List.mem_map_of_mem (f := (·.var.length)) hmem) 0
    refine report_of_not ?_ _
    rw [hvarSpace, hvars, hvar, requiredPadding, bne_eq_false_iff_eq]
    omega
  have hname : checkCounterpart p (some d.parameter) = [] := by
    simp [checkCounterpart, checkName, ParamDoc.parameter, Parameter.documentedName, hvar]
  have hlower : startsLower p.comment = false := by
    rw [hcomment, startsLower]
    cases hchars : d.description.toList with
    | nil => rfl
    | cons c cs => exact (hd.capital c (by rw [hchars]; rfl)).2
  have hstop : endsWith "." p.comment = true := hcomment ▸ hd.stop
  unfold checkParam checkDescription
  rw [checkType_documented hd htype, htypeSpacing, hvarSpacing, hname, hlower, hstop]
  simp [report]

/-- The tags hold the parameters, one after the other. -/
def Agree (ps : List ParamTag) (ds : List ParamDoc) : Prop :=
  ps.map ParamTag.content = ds.map fun d => (some (d.parsed (longestType ds) (longestVar ds)), [])

namespace Agree

/-- Each parameter tag holds the documented parameter at its place. -/
theorem holds (h : Agree ps ds) {i : Nat} (hp : ps[i]? = some p) :
    ∃ d, ds[i]? = some d ∧ Holds ds p d := by
  have hcontent := congrArg (·[i]?) h
  simp only [List.getElem?_map, hp, Option.map_some] at hcontent
  obtain ⟨d, hget, heq⟩ := Option.map_eq_some_iff.1 hcontent.symm
  exact ⟨d, hget, heq.symm⟩

/-- Each documented parameter is held by a tag. -/
theorem holds_of_mem (h : Agree ps ds) (hd : d ∈ ds) : ∃ p ∈ ps, Holds ds p d := by
  have hmem : (some (d.parsed (longestType ds) (longestVar ds)), []) ∈
      ps.map ParamTag.content := by
    rw [h]
    exact List.mem_map_of_mem hd
  exact List.mem_map.1 hmem

/-- The longest type of the tags is that of the documented parameters. -/
theorem longestType_eq (h : Agree ps ds) : ParamTag.longestType ps = longestType ds := by
  have hlengths : ps.map (·.type.length) = ds.map (·.type.length) := by
    have hcontent := congrArg (List.map fun c => (c.1.elim "" ParamValue.type).length) h
    rw [List.map_map, List.map_map] at hcontent
    exact hcontent
  rw [ParamTag.longestType, hlengths]
  rfl

/-- The longest name of the tags is that of the documented parameters. -/
theorem longestVar_eq (h : Agree ps ds) : ParamTag.longestVar ps = longestVar ds := by
  have hlengths : ps.map (·.var.length) = ds.map (·.var.length) := by
    have hcontent := congrArg
      (List.map fun c => ((c.1.bind ParamValue.var).getD "").length) h
    rw [List.map_map, List.map_map] at hcontent
    exact hcontent
  rw [ParamTag.longestVar, hlengths]
  rfl

end Agree

/-- No declared parameter is without a tag. -/
theorem missingTags_documented (hd : ∀ d ∈ ds, d.Proper) (h : Agree ps ds)
    (hparameters : f.parameters = ds.map ParamDoc.parameter) : missingTags b f ps = [] := by
  have hnames : f.parameters.map (·.documentedName) = ds.map (·.var) := by
    rw [hparameters, List.map_map]
    rfl
  have hfound : ∀ d ∈ ds, d.var ∈
      ((ps.filter (!·.type.isEmpty)).map (·.var)).filter (!·.isEmpty) := by
    intro d hmem
    obtain ⟨p, hp, hholds⟩ := h.holds_of_mem hmem
    obtain ⟨htype, hvar, -⟩ := hholds.parts
    have hpresent : (!p.type.isEmpty) = true := by simp [htype, (hd d hmem).type_ne_empty]
    rw [← hvar]
    refine List.mem_filter.2 ⟨List.mem_map_of_mem (List.mem_filter.2 ⟨hp, hpresent⟩), ?_⟩
    simp [hvar, ParamDoc.var]
  have hnone : (ds.map (·.var)).filter (!(((ps.filter (!·.type.isEmpty)).map (·.var)).filter
      (!·.isEmpty)).contains ·) = [] := by
    refine List.filter_eq_nil_iff.2 fun x hx => ?_
    obtain ⟨d, hmem, rfl⟩ := List.mem_map.1 hx
    rw [List.contains_iff_mem.2 (hfound d hmem)]
    simp
  unfold missingTags
  simp only [hnames, hnone]
  rfl

/-- No rule finds anything when the tags hold the parameters that are declared. -/
theorem checkParams_documented (hd : ∀ d ∈ ds, d.Proper) (h : Agree (b.paramTags s) ds)
    (hparameters : f.parameters = ds.map ParamDoc.parameter) : checkParams true s b f = [] := by
  have hmissingParts : (b.paramTags s).flatMap missingParts = [] := by
    refine List.flatMap_eq_nil_iff.2 fun p hp => ?_
    obtain ⟨i, hi⟩ := List.mem_iff_getElem?.1 hp
    obtain ⟨d, -, hholds⟩ := h.holds hi
    exact missingParts_of_holds hholds
  have hparams : ∀ x ∈ (b.paramTags s).zipIdx,
      checkParam true s f (b.paramTags s) x.1 f.parameters[x.2]? = [] := by
    rintro ⟨p, i⟩ hp
    obtain ⟨d, hget, hholds⟩ := h.holds (List.mem_zipIdx_iff_getElem?.1 hp)
    have hmem := List.mem_of_getElem? hget
    show checkParam true s f (b.paramTags s) p f.parameters[i]? = []
    rw [hparameters, List.getElem?_map, hget, Option.map_some]
    exact checkParam_documented (hd d hmem) hholds hmem h.longestType_eq h.longestVar_eq
  rw [checkParams, hmissingParts, List.flatMap_eq_nil_iff.2 hparams,
    missingTags_documented hd h hparameters]
  rfl

end FunctionRule

end PhpDoc
