import PhpDoc.Comment.ParamTag
import PhpDoc.Proofs.Comment.Group

/-!
# The value of a parameter tag

A value that can be taken apart is its type, white space, and what follows: a variable, white space
and a description that goes to the end of the line. `exists_parts` gives the parts as texts, and
`Parts.length_text` the length of the whole as that of its parts.
-/

namespace PhpDoc

open Text Lexer

/-- A text without what it starts with is what follows. -/
theorem Text.toList_dropChars {text lead : String} {rest : List Char}
    (h : text.toList = lead.toList ++ rest) : (dropChars lead.length text).toList = rest := by
  rw [dropChars, String.toList_ofList, h, ← String.length_toList, List.drop_left]

namespace ParamValue

/-- What is left behind a run is what the run leaves. -/
theorem drop_length_takeWhile (p : Char → Bool) (cs : List Char) :
    cs.drop (cs.takeWhile p).length = cs.dropWhile p := by
  conv => lhs; rw [← List.takeWhile_append_dropWhile (p := p) (l := cs)]
  rw [List.drop_left']
  simp

/-- An array shape is not empty. -/
theorem shapeWidth?_pos {cs : List Char} {width : Nat} (h : shapeWidth? cs = some width) :
    0 < width := by
  unfold shapeWidth? at h
  simp only at h
  split at h
  · split at h
    · cases h
      exact Nat.succ_pos _
    · cases h
  · cases h

/-- Outside of shapes the type stops at three dots, white space and sigils. -/
def Stops (cs : List Char) : Prop :=
  startsWith "..." cs = true ∨ ∀ c, cs.head? = some c → isSpace c = true ∨ isSigil c = true

/-- A type ends where a type has to stop. -/
theorem stops_drop_typeWidth (cs : List Char) : Stops (cs.drop (typeWidth cs)) := by
  fun_induction typeWidth cs with
  | case1 => exact .inr (by simp)
  | case2 c rest width hshape ih =>
      have hpos := shapeWidth?_pos hshape
      have hdrop : (c :: rest).drop width = rest.drop (width - 1) := by
        obtain ⟨n, rfl⟩ := Nat.exists_eq_succ_of_ne_zero (Nat.ne_of_gt hpos)
        rfl
      rwa [← List.drop_drop, hdrop]
  | case3 c rest hshape hstop =>
      simp only [Bool.or_eq_true] at hstop
      rcases hstop with (hdots | hspace) | hsigil
      · exact .inl hdots
      · exact .inr fun d hd => .inl (Option.some.inj hd ▸ hspace)
      · exact .inr fun d hd => .inr (Option.some.inj hd ▸ hsigil)
  | case4 c rest hshape hgo ih => rwa [Nat.add_comm, List.drop_succ_cons]

/-- A slash is part of a type, so none comes right behind it. -/
theorem head?_drop_typeWidth (cs : List Char) : (cs.drop (typeWidth cs)).head? ≠ some '/' := by
  intro h
  obtain ⟨rest, hrest⟩ := List.head?_eq_some_iff.1 h
  rcases stops_drop_typeWidth cs with hdots | hhead
  · rw [hrest] at hdots
    cases hdots
  · exact absurd (hhead '/' h) (by decide)

/-- A variable takes all characters up to the next white space. -/
theorem varWidth?_eq_some {cs : List Char} {n : Nat} (h : varWidth? cs = some n) :
    n ≤ cs.length ∧ 0 < n ∧ ∀ c, (cs.drop n).head? = some c → isSpace c = true := by
  unfold varWidth? at h
  simp only at h
  generalize (if startsWith "..." cs then 3 else 0) = dots at h
  split at h
  · next sigil rest hdrop =>
      split at h
      · cases h
      · next name hname =>
          split at h
          · cases h
            have hlen : cs.length - dots = rest.length + 1 := by
              simpa using congrArg List.length hdrop
            have hle : (rest.takeWhile (!isSpace ·)).length ≤ rest.length :=
              (List.takeWhile_sublist _).length_le
            refine ⟨by omega, by omega, fun c hc => ?_⟩
            have hrest : cs.drop (dots + 1 + (rest.takeWhile (!isSpace ·)).length) =
                rest.dropWhile (!isSpace ·) := by
              rw [Nat.add_assoc, ← List.drop_drop, hdrop, Nat.add_comm, List.drop_succ_cons,
                drop_length_takeWhile]
            rw [hrest] at hc
            have := Lexer.head?_dropWhile_eq hc
            simpa using this
          · cases h
  · cases h

/-- The description of a value is everything behind the white space, up to the end of the line. -/
theorem description?_eq_some {cs : List Char} {d : ParamText} :
    description? cs = some d ↔ cs.takeWhile isSpace ≠ [] ∧
      d = ⟨(cs.takeWhile isSpace).length,
        String.ofList ((cs.dropWhile isSpace).takeWhile (· != '\n'))⟩ := by
  unfold description?
  split
  · next hnil => simp [hnil]
  · next space hspace =>
      rw [drop_length_takeWhile]
      constructor
      · rintro h
        cases h
        exact ⟨hspace, rfl⟩
      · rintro ⟨-, rfl⟩
        rfl

/-- There is no description exactly when no white space stands in front of it. -/
theorem description?_eq_none {cs : List Char} :
    description? cs = none ↔ cs.takeWhile isSpace = [] := by
  unfold description?
  split
  · next hnil => simp [hnil]
  · next space hspace => simpa using hspace

/-- The parts of a value. -/
structure Parts (text : String) (pv : ParamValue) (space tail : List Char) : Prop where
  text : text.toList = pv.type.toList ++ space ++ tail
  type_ne_nil : pv.type.toList ≠ []
  width : space.length = pv.typeSpace
  spaces : ∀ c ∈ space, isSpace c = true
  stop : ∀ c, tail.head? = some c → isSpace c = false
  bound : (space ++ tail).head? ≠ some '/'
  bare : pv.var = none → varWidth? tail = none ∧ pv.description = none
  var : ∀ x, pv.var = some x → ∃ after, tail = x.toList ++ after ∧ x.toList ≠ [] ∧
    (∀ c, after.head? = some c → isSpace c = true) ∧ pv.description = description? after

/-- A value that is parsed is made of its parts, the white space between them and a tail. -/
theorem exists_parts {text : String} {pv : ParamValue} (h : parse? text = some pv) :
    ∃ space tail, Parts text pv space tail := by
  unfold parse? at h
  simp only at h
  split at h
  · cases h
  · next width hwidth =>
      have hne : text.toList.take (typeWidth text.toList) ≠ [] := by
        intro hnil
        have hzero : typeWidth text.toList ≠ 0 := hwidth
        rcases List.take_eq_nil_iff.1 hnil with h0 | h0
        · exact hzero h0
        · rw [h0, typeWidth] at hzero
          exact hzero rfl
      rw [drop_length_takeWhile] at h
      refine ⟨(text.toList.drop (typeWidth text.toList)).takeWhile isSpace,
        (text.toList.drop (typeWidth text.toList)).dropWhile isSpace, ?_⟩
      have hspaces : ∀ c ∈ (text.toList.drop (typeWidth text.toList)).takeWhile isSpace,
          isSpace c = true := fun c hc => List.mem_takeWhile_imp hc
      have hstop : ∀ c, ((text.toList.drop (typeWidth text.toList)).dropWhile isSpace).head? =
          some c → isSpace c = false := fun c => Lexer.head?_dropWhile_eq
      have hbound := head?_drop_typeWidth text.toList
      conv at hbound =>
        rw [← List.takeWhile_append_dropWhile (p := isSpace)
          (l := text.toList.drop (typeWidth text.toList))]
      -- without and with a variable behind the type
      split at h
      · next hvar =>
          cases h
          exact ⟨by simp, by simpa using hne, rfl, hspaces, hstop, hbound,
            fun _ => ⟨hvar, rfl⟩, by simp⟩
      · next n hvar =>
          cases h
          obtain ⟨hle, hpos, hafter⟩ := varWidth?_eq_some hvar
          refine ⟨by simp, by simpa using hne, rfl, hspaces, hstop, hbound, by simp, ?_⟩
          intro x hx
          cases hx
          refine ⟨((text.toList.drop (typeWidth text.toList)).dropWhile isSpace).drop n, ?_, ?_,
            hafter, rfl⟩
          · rw [String.toList_ofList, List.take_append_drop]
          · rw [String.toList_ofList]
            intro hnil
            have := congrArg List.length hnil
            simp only [List.length_take, List.length_nil] at this
            omega

/-- There is white space in front of a description. -/
theorem space_ne_zero {text : String} {pv : ParamValue} {d : ParamText} (h : parse? text = some pv)
    (hd : pv.description = some d) : d.space ≠ 0 := by
  obtain ⟨space, tail, hparts⟩ := exists_parts h
  cases hx : pv.var with
  | none =>
      rw [(hparts.bare hx).2] at hd
      cases hd
  | some x =>
      obtain ⟨after, -, -, -, hdescription⟩ := hparts.var x hx
      obtain ⟨hne, rfl⟩ := description?_eq_some.1 (hdescription.symm.trans hd)
      exact fun hzero => hne (List.length_eq_zero_iff.1 hzero)

/-- What is read from a value stands in it. -/
theorem infix_parse? {text : String} {pv : ParamValue} (h : parse? text = some pv) :
    pv.type.toList <:+: text.toList ∧
      (∀ x, pv.var = some x → x.toList <:+: text.toList) ∧
      ∀ d, pv.description = some d → d.text.toList <:+: text.toList := by
  obtain ⟨space, tail, hparts⟩ := exists_parts h
  have htail : tail <:+: text.toList := by
    rw [hparts.text]
    exact (List.suffix_append _ _).isInfix
  refine ⟨?_, fun x hx => ?_, fun d hd => ?_⟩
  · rw [hparts.text, List.append_assoc]
    exact (List.prefix_append _ _).isInfix
  · obtain ⟨after, rfl, -⟩ := hparts.var x hx
    exact (List.prefix_append _ _).isInfix.trans htail
  · cases hx : pv.var with
    | none =>
        rw [(hparts.bare hx).2] at hd
        cases hd
    | some x =>
        obtain ⟨after, rfl, -, -, hdescription⟩ := hparts.var x hx
        obtain ⟨-, rfl⟩ := description?_eq_some.1 (hdescription.symm.trans hd)
        rw [String.toList_ofList]
        exact (List.takeWhile_prefix _).isInfix.trans <| (List.dropWhile_suffix _).isInfix.trans <|
          (List.suffix_append _ _).isInfix.trans htail

/-- The length of a value on one line is that of its parts. -/
theorem Parts.length_text {text : String} {pv : ParamValue} {space tail : List Char}
    (h : Parts text pv space tail) (hline : Unbroken text.toList) {x : String}
    (hx : pv.var = some x) :
    text.length = pv.type.length + pv.typeSpace + x.length +
      pv.description.elim 0 (fun d => d.space + d.text.length) := by
  obtain ⟨after, htail, -, hafter, hdescription⟩ := h.var x hx
  have hlen := congrArg List.length h.text
  simp only [htail, List.length_append, String.length_toList, h.width] at hlen
  have hub : Unbroken after := by
    rw [h.text, htail] at hline
    exact (unbroken_append.1 (unbroken_append.1 hline).2).2
  cases hd : description? after with
  | none =>
      have hnil : after = [] := by
        cases after with
        | nil => rfl
        | cons c cs =>
            have hspace := hafter c rfl
            have := description?_eq_none.1 hd
            simp [hspace] at this
      simp only [hdescription, hd, Option.elim_none]
      simpa [hnil] using hlen
  | some d =>
      obtain ⟨-, rfl⟩ := description?_eq_some.1 hd
      have hwhole : (after.dropWhile isSpace).takeWhile (· != '\n') = after.dropWhile isSpace := by
        refine List.takeWhile_eq_self_iff.2 fun c hc => ?_
        have hbreak := hub c ((List.dropWhile_sublist _).mem hc)
        have hc : c ≠ '\n' := by
          rintro rfl
          cases hbreak
        simpa using hc
      have hsplit :=
        congrArg List.length (List.takeWhile_append_dropWhile (p := isSpace) (l := after))
      rw [List.length_append] at hsplit
      simp only [hdescription, hd, Option.elim_some, hwhole]
      rw [← String.length_toList (s := String.ofList _), String.toList_ofList]
      omega

end ParamValue

namespace ParamTag

variable {s : Stream} {c : CommentSpan} {p : ParamTag}

/-- The parameter tags of a block are tags of the block. -/
theorem exists_of_mem_paramTags {b : Block} (h : p ∈ b.paramTags s) :
    ∃ t ∈ b.tags, p = ofTag s t ∧ p.tag = t := by
  obtain ⟨t, ht, rfl⟩ := List.mem_map.1 h
  refine ⟨t, (List.mem_filter.1 ht).1, rfl, ?_⟩
  unfold ofTag
  split <;> rfl

/-- What a parameter tag says is read from its value. -/
theorem value_ofTag (s : Stream) (t : Tag) :
    (ofTag s t).value = t.value.bind fun v => ParamValue.parse? v.text := by
  unfold ofTag
  split
  · next hnone => exact hnone.symm
  · next value hsome => exact hsome.symm

/-- No type of the tags is longer than the longest one. -/
theorem length_type_le_longest {ps : List ParamTag} (h : p ∈ ps) :
    p.type.length ≤ longestType ps :=
  le_foldl_max (List.mem_map_of_mem (f := fun p : ParamTag => p.type.length) h) 0

/-- No name of the tags is longer than the longest one. -/
theorem length_var_le_longest {ps : List ParamTag} (h : p ∈ ps) :
    p.var.length ≤ longestVar ps :=
  le_foldl_max (List.mem_map_of_mem (f := fun p : ParamTag => p.var.length) h) 0

/-- The blank in front of a continuation line is a token of the comment. -/
theorem has_of_indentToken? (hs : s.Placed) {line blank : Token}
    (h : indentToken? s line = some blank) :
    s.Has blank ∧ blank.index + 1 = line.index ∧ blank.kind = .docBlank ∧
      endsLine blank.text = false := by
  unfold indentToken? at h
  split at h
  · next t ht =>
      obtain ⟨hhas, hindex⟩ := hs.before?.1 ht
      split at h
      · next hcond =>
          cases h
          simp only [Bool.and_eq_true, beq_iff_eq, Bool.not_eq_eq_eq_not, Bool.not_true] at hcond
          exact ⟨hhas, hindex, hcond.1, hcond.2⟩
      · cases h
  · cases h

end ParamTag

end PhpDoc
