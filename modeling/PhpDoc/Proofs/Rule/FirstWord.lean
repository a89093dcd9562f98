import PhpDoc.Proofs.Comment.Retype
import PhpDoc.Proofs.Rule.Function

/-!
# Types in three kinds of tags

A parameter tag reads its type as far as it goes, a return tag and the tag of a member variable up
to the first space. So all three accept a type that is one word in its preferred spelling
(`accepts_word`). Of a shape with a key and a value, which is written with spaces around its arrow,
only the start is read in the latter two, and both correct it although a parameter tag accepts the
whole (`rewrites_shape`).
-/

namespace PhpDoc

open Text

/-! ## The start of a shape -/

namespace TypeName

/-- The only long spelling with an opening parenthesis has the closing one as well. -/
theorem lookup_aliases_eq_none {s : String} (hopen : '(' ∈ s.toList) (hclose : ')' ∉ s.toList) :
    aliases.lookup (lower s) = none := by
  have haliases : ∀ entry ∈ aliases, '(' ∈ entry.1.toList → ')' ∈ entry.1.toList := by decide
  rw [Option.eq_none_iff_forall_ne_some]
  intro short halias
  obtain ⟨before, after, heq, -⟩ := List.lookup_eq_some_iff.1 halias
  have hentry : (lower s, short) ∈ aliases := by
    rw [heq]
    exact List.mem_append_right _ List.mem_cons_self
  have hlower := haliases _ hentry (mem_lower_of_mem (by decide) hopen)
  exact hclose (mem_of_mem_lower (by decide) (by decide) hlower)

/-- What starts a shape and does not close it is spelled like an array. -/
theorem suggestChars_unclosed {key : List Char} (hkey : ')' ∉ key) :
    ∃ tail, suggestChars ("array(".toList ++ key) = "array".toList ++ tail ∧ '(' ∉ tail := by
  induction hn : key.length using Nat.strong_induction_on generalizing key with
  | _ n ih =>
      have hmark : ∀ c rest, "array(".toList ++ key ≠ '?' :: c :: rest := by
        intro c rest heq
        cases (List.cons.inj heq).1
      rw [suggestChars_eq hmark]
      cases helement : elementType? ("array(".toList ++ key) with
      | some element =>
          obtain ⟨heq, -⟩ := elementType?_eq_some.1 helement
          obtain ⟨front, rfl, rfl⟩ : ∃ front, element = "array(".toList ++ front ∧
              key = front ++ ['[', ']'] := by
            rcases List.append_eq_append_iff.1 heq with ⟨front, hfront⟩ | ⟨left, hleft, hright⟩
            · exact ⟨front, hfront⟩
            · cases left with
              | nil => exact ⟨[], by simpa using hleft.symm, by simpa using hright.symm⟩
              | cons c left =>
                  obtain rfl : '[' = c := (List.cons.inj hright).1
                  have hmem : '[' ∈ "array(".toList := by
                    rw [hleft]
                    simp
                  exact absurd hmem (by decide)
          obtain ⟨tail, htail, hnot⟩ := ih front.length (by simp [← hn])
            (fun hmem => hkey (List.mem_append_left _ hmem)) rfl
          refine ⟨tail ++ ['[', ']'], ?_, by simp [hnot]⟩
          show suggestChars ("array(".toList ++ front) ++ ['[', ']'] = _
          rw [htail, List.append_assoc]
      | none =>
          have halias : aliases.lookup (lower (String.ofList ("array(".toList ++ key))) = none := by
            refine lookup_aliases_eq_none ?_ ?_
            · rw [String.toList_ofList]
              exact List.mem_append_left _ (by decide)
            · rw [String.toList_ofList, List.mem_append, not_or]
              exact ⟨by decide, hkey⟩
          have hopens : opensShape ("array(".toList ++ key) = true := by
            have htake : ("array(".toList ++ key).take 6 = "array(".toList := rfl
            rw [opensShape, htake]
            decide +kernel
          have hshape : shape? (("array(".toList ++ key).drop 6) = none := by
            have hdrop : ("array(".toList ++ key).drop 6 = key := rfl
            rw [hdrop, Option.eq_none_iff_forall_ne_some]
            rintro ⟨k, v⟩ hshape
            exact hkey ((closed_of_shape? hshape).1.mem (by simp))
          simp only [halias, hopens, hshape, ↓reduceIte]
          exact ⟨[], by simp, by simp⟩

/-- A type of one alternative is spelled as that alternative. -/
theorem normalize_of_not_mem {type : String} (h : '|' ∉ type.toList) :
    normalize type = suggest type := by
  have hnames : names (join "|" [type]) = [suggest type] :=
    names_join (List.cons_ne_nil _ _) (by simpa using h)
  rw [join_singleton] at hnames
  rw [normalize_eq, hnames, join_singleton]

end TypeName

/-! ## What the tags accept -/

/-- The first word of a value is what stands in front of its first space. -/
theorem Text.before_space {text : String} {word rest : List Char} (hword : ' ' ∉ word)
    (htext : text.toList = word ++ ' ' :: rest) : before ' ' text = String.ofList word := by
  have hrun : ∀ c ∈ word, (c != ' ') = true := fun c hc => by
    have hne : c ≠ ' ' := fun heq => hword (heq ▸ hc)
    simpa using hne
  have hend : ∀ c, (' ' :: rest).head? = some c → (c != ' ') = false := by simp
  rw [before, htext, (Lexer.takeWhile_run hrun hend).1]

variable {s : Stream} {v : Violation} {value : Token} {type : String} {rest : List Char}

/-- A type in its preferred spelling is not corrected in a parameter tag that is read with it. -/
theorem FunctionRule.fix_checkType_eq_none {scalarHints : Bool} {f : Function} {p : ParamTag}
    {declared : Option Parameter} (hsettled : TypeName.normalize p.type = p.type)
    (h : v ∈ checkType scalarHints f p declared) : v.fix = none := by
  rcases mem_checkType h with ⟨value, -, hne, -⟩ | ⟨-, d, hhint⟩
  · exact absurd hsettled hne
  · exact (fixedBy_checkHint (q := fun _ => False) hhint).resolve_right (by simp)

/-- A type that is one word in its preferred spelling is not corrected in the tags of returns and of
member variables. -/
theorem accepts_word (hword : ' ' ∉ type.toList) (hsettled : TypeName.normalize type = type)
    (htext : value.text.toList = type.toList ++ ' ' :: rest) :
    PropertyRule.checkVarType value = [] ∧
      ∀ f t, FunctionRule.checkReturnType s f t value = FunctionRule.checkExit s f t type := by
  have hbefore : before ' ' value.text = type := by
    rw [before_space hword htext, String.ofList_toList]
  refine ⟨?_, fun f t => ?_⟩
  · simp [PropertyRule.checkVarType, hbefore, hsettled, report]
  · simp [FunctionRule.checkReturnType, hbefore, hsettled, report]

/-- A shape with a key and a value is corrected in the tags of returns and of member variables,
whether or not it is in its preferred spelling. -/
theorem rewrites_shape {key element : List Char} (hkey : TypeName.IsShapeKey key)
    (hclose : ')' ∉ key) (hbar : '|' ∉ key) (hne : element ≠ [])
    (htext : value.text.toList = TypeName.writeShape key element ++ ' ' :: rest) :
    PropertyRule.checkVarType value ≠ [] ∧
      ∀ f t, ∃ v ∈ FunctionRule.checkReturnType s f t value,
        v.source = "FunctionComment.InvalidReturn" := by
  have hspace : ' ' ∉ "array(".toList ++ key := by
    intro hmem
    rcases List.mem_append.1 hmem with hmem | hmem
    · exact absurd hmem (by decide)
    · exact absurd (hkey ' ' hmem) (by decide)
  have hsplit : value.text.toList = "array(".toList ++ key ++
      ' ' :: ("=> ".toList ++ element ++ [')'] ++ ' ' :: rest) := by
    rw [htext]
    simp [TypeName.writeShape, hne]
  have hword := before_space hspace hsplit
  obtain ⟨tail, htail, hnot⟩ := TypeName.suggestChars_unclosed hclose
  have hnormalize :
      (TypeName.normalize (before ' ' value.text)).toList = "array".toList ++ tail := by
    rw [hword, TypeName.normalize_of_not_mem, TypeName.suggest, String.toList_ofList,
      String.toList_ofList, htail]
    rw [String.toList_ofList, List.mem_append, not_or]
    exact ⟨by decide, hbar⟩
  have hchange : TypeName.normalize (before ' ' value.text) ≠ before ' ' value.text := by
    intro heq
    rw [heq, hword, String.toList_ofList] at hnormalize
    have hmem : '(' ∈ "array".toList ++ tail := by
      rw [← hnormalize]
      exact List.mem_append_left _ (by decide)
    exact (List.mem_append.1 hmem).elim (by decide) hnot
  have hbool : TypeName.normalize (before ' ' value.text) ≠ "bool" := by
    intro heq
    rw [heq] at hnormalize
    cases hnormalize
  refine ⟨?_, fun f t => ⟨_, List.mem_append_left _ (mem_report.2 ⟨?_, rfl⟩), rfl⟩⟩
  · simp [PropertyRule.checkVarType, report, hchange]
  · simp [hchange, hbool]

/-- The start of a shape in its preferred spelling is not in its preferred spelling. -/
example : TypeName.normalize "array(a => b)" = "array(a => b)" ∧
    TypeName.normalize (before ' ' "array(a => b) C.") = "array" := by
  decide +kernel

end PhpDoc
