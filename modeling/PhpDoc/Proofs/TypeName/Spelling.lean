import PhpDoc.Proofs.Text.Case
import PhpDoc.Proofs.Text.Marker
import PhpDoc.Proofs.TypeName.Shape

/-!
# Spellings settle

The spelling of a type is put together from names that are spelled as they should be, question
marks, pairs of brackets and array shapes (`Spelled`). Such a text keeps its spelling unless a shape
in it is empty (`Spelled.settled`), and its own spelling is final in any case (`Spelled.settles`).
-/

namespace PhpDoc.TypeName

open Text Lexer

variable {cs rest key value element : List Char}

/-! ## Spelling one alternative -/

/-- The type of the elements is what stands in front of the brackets. -/
theorem elementType?_eq_some :
    elementType? cs = some element ↔ cs = element ++ ['[', ']'] ∧ element ≠ [] := by
  constructor
  · intro h
    unfold elementType? at h
    split at h
    · next c front hreverse =>
        cases h
        exact ⟨by simpa using congrArg List.reverse hreverse, by simp⟩
    · cases h
  · rintro ⟨rfl, hne⟩
    obtain ⟨c, front, hfront⟩ := List.exists_cons_of_ne_nil (List.reverse_ne_nil_iff.2 hne)
    have hreverse : (element ++ ['[', ']']).reverse = ']' :: '[' :: c :: front := by
      simp [hfront]
    unfold elementType?
    rw [hreverse]
    show some (c :: front).reverse = some element
    rw [← hfront, List.reverse_reverse]

/-- A nullable type is spelled as its type behind the mark. -/
theorem suggestChars_nullable (hne : cs ≠ []) :
    suggestChars ('?' :: cs) = '?' :: suggestChars cs := by
  obtain ⟨c, rest, rfl⟩ := List.exists_cons_of_ne_nil hne
  rw [suggestChars]

/-- A type without a leading question mark is an array type, a long name, an array shape or a plain
name. -/
theorem suggestChars_eq (hmark : ∀ c rest, cs ≠ '?' :: c :: rest) :
    suggestChars cs = match elementType? cs with
      | some element => suggestChars element ++ ['[', ']']
      | none =>
          match aliases.lookup (lower (String.ofList cs)) with
          | some short => short.toList
          | none =>
              if opensShape cs then
                match shape? (cs.drop 6) with
                | some (key, value) => writeShape (suggestChars key) (suggestChars value)
                | none => "array".toList
              else suggestPlain cs := by
  cases cs with
  | nil =>
      rw [suggestChars]
      decide +kernel
  | cons c rest =>
      rw [suggestChars]
      · split
        · next helement => simp only [helement]
        · next helement =>
            simp only [helement]
            cases aliases.lookup (lower (String.ofList (c :: rest))) with
            | some short => rfl
            | none =>
                have hdrop : (c :: rest).drop 6 = rest.drop 5 := rfl
                simp only [hdrop]
                split
                · split
                  · next hshape => simp only [hshape]
                  · next hshape => simp only [hshape]
                · rfl
      · rintro d ds rfl rfl
        exact hmark d ds rfl

/-- An array of elements is spelled as its element type in front of the brackets. -/
theorem suggestChars_element (hne : cs ≠ []) (hmark : cs.head? ≠ some '?') :
    suggestChars (cs ++ ['[', ']']) = suggestChars cs ++ ['[', ']'] := by
  have hmark : ∀ c rest, cs ++ ['[', ']'] ≠ '?' :: c :: rest := by
    intro c rest heq
    obtain ⟨d, ds, rfl⟩ := List.exists_cons_of_ne_nil hne
    obtain rfl : d = '?' := (List.cons.inj heq).1
    exact hmark rfl
  rw [suggestChars_eq hmark, elementType?_eq_some.2 ⟨rfl, hne⟩]

/-- A type with an alias is spelled as the alias. -/
theorem suggestChars_alias {short : String} (hmark : ∀ c rest, cs ≠ '?' :: c :: rest)
    (helement : elementType? cs = none)
    (halias : aliases.lookup (lower (String.ofList cs)) = some short) :
    suggestChars cs = short.toList := by
  rw [suggestChars_eq hmark, helement]
  simp only [halias]

/-- A type in no other form is spelled as a plain name. -/
theorem suggestChars_plain (hmark : ∀ c rest, cs ≠ '?' :: c :: rest)
    (helement : elementType? cs = none)
    (halias : aliases.lookup (lower (String.ofList cs)) = none) (hopens : opensShape cs = false) :
    suggestChars cs = suggestPlain cs := by
  rw [suggestChars_eq hmark, helement]
  simp only [halias, hopens, Bool.false_eq_true, ↓reduceIte]

/-- An array shape is spelled by its key and its value. -/
theorem suggestChars_shape (hmark : ∀ c rest, cs ≠ '?' :: c :: rest)
    (helement : elementType? cs = none)
    (halias : aliases.lookup (lower (String.ofList cs)) = none) (hopens : opensShape cs = true)
    (hshape : shape? (cs.drop 6) = some (key, value)) :
    suggestChars cs = writeShape (suggestChars key) (suggestChars value) := by
  rw [suggestChars_eq hmark, helement]
  simp only [halias, hopens, hshape, ↓reduceIte]

/-- Built-in types are written in small letters. -/
theorem mem_smallLetters_of_builtin : ∀ name ∈ builtins, ∀ c ∈ name.toList, c ∈ smallLetters := by
  decide

/-- Built-in names are spelled as they should be. -/
theorem suggestChars_builtin {name : String} (h : name ∈ builtins) :
    suggestChars name.toList = name.toList := by
  have hnames : ∀ name ∈ builtins, name.toList.head? ≠ some '?' ∧
      elementType? name.toList = none ∧ aliases.lookup name = none ∧
      (String.ofList (name.toList.take 6) == "array(") = false := by
    decide
  obtain ⟨hmark, helement, halias, hopens⟩ := hnames name h
  have hletters := mem_smallLetters_of_builtin name h
  have hlower : lower (String.ofList name.toList) = name := by
    rw [String.ofList_toList, lower_eq_self hletters]
  have htake : lower (String.ofList (name.toList.take 6)) = String.ofList (name.toList.take 6) := by
    refine lower_eq_self fun c hc => ?_
    rw [String.toList_ofList] at hc
    exact hletters c (List.mem_of_mem_take hc)
  rw [suggestChars_plain (fun c rest heq => hmark (by rw [heq, List.head?_cons])) helement
    (by rw [hlower, halias]) (by rw [opensShape, htake, hopens]), suggestPlain, hlower,
    if_pos (by simpa using h)]

/-- The long names are short. -/
theorem length_le_of_alias {s short : String} (h : aliases.lookup (lower s) = some short) :
    s.length ≤ 7 ∧ short ∈ builtins := by
  have haliases : ∀ entry ∈ aliases, entry.1.length ≤ 7 ∧ entry.2 ∈ builtins := by decide
  obtain ⟨before, after, heq, -⟩ := List.lookup_eq_some_iff.1 h
  obtain ⟨hlength, hshort⟩ := haliases (lower s, short) (heq ▸ by simp)
  exact ⟨(length_le_lower s).trans hlength, hshort⟩

/-- A shape ends with its parenthesis. -/
theorem getLast?_writeShape (key value : List Char) :
    (writeShape key value).getLast? = some ')' := by
  unfold writeShape
  split
  · exact List.getLast?_concat
  · exact List.getLast?_concat

/-- Key and value stand in a written shape. -/
theorem infix_writeShape (key value : List Char) :
    key <:+: writeShape key value ∧ value <:+: writeShape key value := by
  unfold writeShape
  split
  · next hempty =>
      rw [List.isEmpty_iff.1 hempty]
      exact ⟨⟨"array(".toList, [')'], rfl⟩, List.nil_infix⟩
  · refine ⟨⟨"array(".toList, " => ".toList ++ value ++ [')'], by simp⟩, ?_⟩
    exact ⟨"array(".toList ++ key ++ " => ".toList, [')'], rfl⟩

/-- The body of a shape with a key or a value is not only a parenthesis. -/
theorem two_le_length_shapeBody (h : key ≠ [] ∨ value ≠ []) :
    2 ≤ (shapeBody key value).length := by
  unfold shapeBody
  split
  · next hempty =>
      have hkey := List.length_pos_iff.2 (h.resolve_right (by simpa using hempty))
      simp only [List.length_append, List.length_singleton]
      omega
  · simp only [List.length_append, List.length_singleton]
    have harrow : " => ".toList.length = 4 := rfl
    omega

/-- An empty shape is spelled as the plain array. -/
theorem suggestChars_emptyShape : suggestChars (writeShape [] []) = "array".toList :=
  suggestChars_alias (by simp [writeShape]) (by decide) (by decide +kernel)

/-- A shape with a key or a value is spelled part by part. -/
theorem suggestChars_writeShape (hkey : IsShapeKey key) (hvalue : IsShapeValue value)
    (hne : key ≠ [] ∨ value ≠ []) :
    suggestChars (writeShape key value) = writeShape (suggestChars key) (suggestChars value) := by
  have hmark : ∀ c rest, writeShape key value ≠ '?' :: c :: rest := by
    intro c rest heq
    rw [writeShape_eq] at heq
    cases congrArg List.head? heq
  have helement : elementType? (writeShape key value) = none := by
    rw [Option.eq_none_iff_forall_ne_some]
    intro element h
    have hlast := congrArg List.getLast? (elementType?_eq_some.1 h).1
    rw [getLast?_writeShape, List.getLast?_append] at hlast
    simp at hlast
  have halias : aliases.lookup (lower (String.ofList (writeShape key value))) = none := by
    rw [Option.eq_none_iff_forall_ne_some]
    intro short h
    have hlength := (length_le_of_alias h).1
    rw [← String.length_toList, String.toList_ofList, writeShape_eq, List.length_append] at hlength
    have hbody : 2 ≤ (shapeBody key value).length := two_le_length_shapeBody hne
    have hopen : "array(".toList.length = 6 := rfl
    omega
  have hopens : opensShape (writeShape key value) = true := by
    rw [writeShape_eq]
    show (lower "array(" == "array(") = true
    decide
  refine suggestChars_shape hmark helement halias hopens ?_
  rw [writeShape_eq]
  exact shape?_complete hkey hvalue

/-! ## The characters of a spelling -/

/-- An array shape opens with a parenthesis. -/
theorem mem_of_opensShape (h : opensShape cs = true) : '(' ∈ cs := by
  have hlower : lower (String.ofList (cs.take 6)) = "array(" := by simpa [opensShape] using h
  have hmem : '(' ∈ (String.ofList (cs.take 6)).toList :=
    mem_of_mem_lower (by decide) (by decide) (hlower ▸ by decide)
  rw [String.toList_ofList] at hmem
  exact List.mem_of_mem_take hmem

/-- A plain name is kept, or it is the name of a built-in type. -/
theorem suggestPlain_cases (cs : List Char) :
    suggestPlain cs = cs ∨ ∃ name ∈ builtins, suggestPlain cs = name.toList := by
  unfold suggestPlain
  simp only
  split
  · next hlisted => exact .inr ⟨_, by simpa using hlisted, rfl⟩
  · exact .inl rfl

/-- What is true of the signs of a shape and of its parts is true of the written shape. -/
theorem forall_mem_writeShape {P : Char → Prop} (hletters : ∀ c ∈ smallLetters, P c) (hopen : P '(')
    (hclose : P ')') (hkey : ∀ c ∈ key, P c) (hvalue : ∀ c ∈ value, P c)
    (harrow : value ≠ [] → P '=' ∧ P '>' ∧ P ' ') : ∀ c ∈ writeShape key value, P c := by
  have harray : ∀ c ∈ "array(".toList, c ∈ smallLetters ∨ c = '(' := by decide
  have hsigns : ∀ c ∈ " => ".toList, c = '=' ∨ c = '>' ∨ c = ' ' := by decide
  have hstart : ∀ c ∈ "array(".toList, P c := by
    intro c hc
    rcases harray c hc with hc | rfl
    · exact hletters c hc
    · exact hopen
  unfold writeShape
  split
  · simp only [List.mem_append, or_imp, forall_and, List.mem_singleton, forall_eq]
    exact ⟨⟨hstart, hkey⟩, hclose⟩
  · next hne =>
      obtain ⟨hequals, hgreater, hspace⟩ := harrow (by simpa using hne)
      have hmiddle : ∀ c ∈ " => ".toList, P c := by
        intro c hc
        rcases hsigns c hc with rfl | rfl | rfl
        · exact hequals
        · exact hgreater
        · exact hspace
      simp only [List.mem_append, or_imp, forall_and, List.mem_singleton, forall_eq]
      exact ⟨⟨⟨⟨hstart, hkey⟩, hmiddle⟩, hvalue⟩, hclose⟩

/-- A written shape holds no close marker when its parts hold none. -/
theorem unclosed_writeShape (hkey : Unclosed key) (hvalue : Unclosed value) :
    Unclosed (writeShape key value) := by
  have hstart : Unclosed ("array(".toList ++ key) :=
    unclosed_append_right (by decide) (by decide) hkey
  unfold writeShape
  split
  · exact unclosed_append_left hstart (by decide)
  · rw [List.append_assoc, List.append_assoc]
    refine unclosed_append.2 ⟨hstart, unclosed_append_right (by decide) (by decide) ?_, by simp⟩
    exact unclosed_append_left hvalue (by decide)

/-- What holds of the letters, and of the signs that a shape adds when it has some of them, holds of
the characters of a spelling when it holds of those of the type. -/
theorem forall_mem_suggestChars {P : Char → Prop} (hletters : ∀ c ∈ smallLetters, P c)
    (hparentheses : P '(' → P ')') (harrow : P '=' → P '>' ∧ P ' ')
    (h : ∀ c ∈ cs, P c) : ∀ c ∈ suggestChars cs, P c := by
  have hnames : ∀ name ∈ builtins, ∀ c ∈ name.toList, P c := fun name hname c hc =>
    hletters c (mem_smallLetters_of_builtin name hname c hc)
  fun_induction suggestChars cs with
  | case1 c rest ih =>
      obtain ⟨hmark, hrest⟩ := List.forall_mem_cons.1 h
      exact List.forall_mem_cons.2 ⟨hmark, ih hrest⟩
  | case2 => exact h
  | case3 c rest hmark element helement hlt ih =>
      rw [(elementType?_eq_some.1 helement).1] at h
      simp only [List.mem_append, or_imp, forall_and] at h ⊢
      exact ⟨ih h.1, h.2⟩
  | case4 c rest hmark helement short hshort => exact hnames short (length_le_of_alias hshort).2
  | case5 c rest hmark helement halias hopens key value hshape hlt ihkey ihvalue =>
      have hopen : P '(' := h _ (mem_of_opensShape hopens)
      have hrest : ∀ c ∈ rest.drop 5, P c := fun c hc =>
        h c (List.mem_cons_of_mem _ (List.mem_of_mem_drop hc))
      obtain ⟨hkeyInfix, hvalueInfix⟩ := infix_shape? hshape
      have hkey := ihkey fun c hc => hrest c (hkeyInfix.subset hc)
      have hvalue := ihvalue fun c hc => hrest c (hvalueInfix.subset hc)
      refine forall_mem_writeShape hletters hopen (hparentheses hopen) hkey hvalue fun hne => ?_
      have hequals : P '=' := by
        refine hrest _ ((shape?_sound hshape).2.2 ?_)
        rintro rfl
        exact hne (by rw [suggestChars])
      exact ⟨hequals, harrow hequals⟩
  | case6 => exact hnames "array" (by decide)
  | case7 c rest =>
      rcases suggestPlain_cases (c :: rest) with hplain | ⟨name, hname, hplain⟩
      · rw [hplain]
        exact h
      · rw [hplain]
        exact hnames name hname

/-- No spelling has a close marker that its type does not have. -/
theorem unclosed_suggestChars (h : Unclosed cs) : Unclosed (suggestChars cs) := by
  have hnames : ∀ name ∈ builtins, Unclosed name.toList := fun name hname =>
    unclosed_of_not_mem fun hmem =>
      absurd (mem_smallLetters_of_builtin name hname _ hmem) (by decide)
  fun_induction suggestChars cs with
  | case1 c rest ih =>
      change Unclosed (['?'] ++ suggestChars (c :: rest))
      exact unclosed_append_right (by decide) (by decide) (ih (unclosed_cons.1 h).2)
  | case2 => exact h
  | case3 c rest hmark element helement hlt ih =>
      have hprefix : element <+: c :: rest := by
        rw [(elementType?_eq_some.1 helement).1]
        exact List.prefix_append _ _
      exact unclosed_append_left (ih (h.of_isInfix hprefix.isInfix)) (by decide)
  | case4 c rest hmark helement short hshort => exact hnames short (length_le_of_alias hshort).2
  | case5 c rest hmark helement halias hopens key value hshape hlt ihkey ihvalue =>
      have hrest : rest.drop 5 <:+: c :: rest := (List.drop_suffix 6 (c :: rest)).isInfix
      obtain ⟨hkey, hvalue⟩ := infix_shape? hshape
      exact unclosed_writeShape (ihkey (h.of_isInfix (hkey.trans hrest)))
        (ihvalue (h.of_isInfix (hvalue.trans hrest)))
  | case6 => exact hnames "array" (by decide)
  | case7 c rest =>
      rcases suggestPlain_cases (c :: rest) with hplain | ⟨name, hname, hplain⟩
      · rwa [hplain]
      · rw [hplain]
        exact hnames name hname

/-- A spelling starts like the type or with a letter. -/
theorem exists_head_suggestChars (hne : cs ≠ []) :
    ∃ c, (suggestChars cs).head? = some c ∧ (cs.head? = some c ∨ c ∈ smallLetters) := by
  have hnames : ∀ name ∈ builtins, name.toList.head? ∈ smallLetters.map some := by decide
  have hname : ∀ name ∈ builtins, ∀ d : Option Char,
      ∃ c, name.toList.head? = some c ∧ (d = some c ∨ c ∈ smallLetters) := fun name hname d =>
    (List.mem_map.1 (hnames name hname)).imp fun c hc => ⟨hc.2.symm, .inr hc.1⟩
  fun_induction suggestChars cs with
  | case1 => exact ⟨'?', rfl, .inl rfl⟩
  | case2 => exact absurd rfl hne
  | case3 c rest hmark element helement hlt ih =>
      obtain ⟨heq, helementNe⟩ := elementType?_eq_some.1 helement
      obtain ⟨d, hd, hcase⟩ := ih helementNe
      refine ⟨d, by rw [List.head?_append, hd, Option.some_or], hcase.imp_left fun hhead => ?_⟩
      rw [heq, List.head?_append, hhead, Option.some_or]
  | case4 c rest hmark helement short hshort => exact hname short (length_le_of_alias hshort).2 _
  | case5 => exact ⟨'a', by rw [writeShape_eq]; rfl, .inr (by decide)⟩
  | case6 => exact hname "array" (by decide) _
  | case7 c rest =>
      rcases suggestPlain_cases (c :: rest) with hplain | ⟨name, hbuiltin, hplain⟩
      · exact ⟨c, by rw [hplain, List.head?_cons], .inl rfl⟩
      · rw [hplain]
        exact hname name hbuiltin _

/-- A spelling ends like the type, with a letter, or with the parenthesis of a shape. -/
theorem exists_last_suggestChars (hne : cs ≠ []) :
    ∃ c, (suggestChars cs).getLast? = some c ∧
      (cs.getLast? = some c ∨ c ∈ smallLetters ∨ c = ')') := by
  have hnames : ∀ name ∈ builtins, name.toList.getLast? ∈ smallLetters.map some := by decide
  have hname : ∀ name ∈ builtins, ∀ d : Option Char,
      ∃ c, name.toList.getLast? = some c ∧ (d = some c ∨ c ∈ smallLetters ∨ c = ')') :=
    fun name hname d =>
      (List.mem_map.1 (hnames name hname)).imp fun c hc => ⟨hc.2.symm, .inr (.inl hc.1)⟩
  fun_induction suggestChars cs with
  | case1 c rest ih =>
      obtain ⟨d, hd, hcase⟩ := ih (by simp)
      refine ⟨d, ?_, hcase.imp_left fun hlast => ?_⟩
      · rw [List.getLast?_cons, hd, Option.getD_some]
      · rw [List.getLast?_cons, hlast, Option.getD_some]
  | case2 => exact absurd rfl hne
  | case3 c rest hmark element helement hlt ih =>
      rw [(elementType?_eq_some.1 helement).1]
      exact ⟨']', by simp, .inl (by simp)⟩
  | case4 c rest hmark helement short hshort => exact hname short (length_le_of_alias hshort).2 _
  | case5 => exact ⟨')', getLast?_writeShape _ _, .inr (.inr rfl)⟩
  | case6 => exact hname "array" (by decide) _
  | case7 c rest =>
      rcases suggestPlain_cases (c :: rest) with hplain | ⟨name, hbuiltin, hplain⟩
      · rw [hplain]
        obtain ⟨d, hd⟩ := Option.isSome_iff_exists.1 (List.getLast?_isSome.2 hne)
        exact ⟨d, hd, .inl hd⟩
      · rw [hplain]
        exact hname name hbuiltin _

/-- The spelling of a type is not empty. -/
theorem suggestChars_ne_nil (hne : cs ≠ []) : suggestChars cs ≠ [] := by
  obtain ⟨c, hc, -⟩ := exists_head_suggestChars hne
  rintro hnil
  rw [hnil] at hc
  cases hc

/-- Only a nullable type has a spelling that starts with a question mark. -/
theorem head?_suggestChars_ne (hmark : cs.head? ≠ some '?') :
    (suggestChars cs).head? ≠ some '?' := by
  by_cases hne : cs = []
  · rw [hne, suggestChars]
    simp
  · obtain ⟨c, hc, hcase⟩ := exists_head_suggestChars hne
    rw [hc]
    rintro heq
    cases heq
    exact hcase.elim hmark (by decide)

/-- The spelling of the key of a shape is the key of a shape. -/
theorem IsShapeKey.suggestChars (h : IsShapeKey key) : IsShapeKey (suggestChars key) :=
  forall_mem_suggestChars (by decide) (by decide) (by decide) h

/-- The spelling of the value of a shape is the value of a shape. -/
theorem IsShapeValue.suggestChars (h : IsShapeValue value) : IsShapeValue (suggestChars value) := by
  have hletters : ∀ c ∈ smallLetters, isSpace c = false := by decide
  by_cases hne : value = []
  · rw [hne, TypeName.suggestChars]
    exact isShapeValue_nil
  · refine ⟨fun hmem => ?_, fun c hc => ?_, fun c hc => ?_⟩
    · refine forall_mem_suggestChars (P := (· ≠ '\n')) (by decide) (by decide) (by decide) ?_ _
        hmem rfl
      rintro c hc rfl
      exact h.line hc
    · obtain ⟨d, hd, hcase⟩ := exists_head_suggestChars hne
      obtain rfl : d = c := Option.some.inj (hd.symm.trans hc)
      exact hcase.elim (h.head d) (hletters d)
    · obtain ⟨d, hd, hcase⟩ := exists_last_suggestChars hne
      obtain rfl : d = c := Option.some.inj (hd.symm.trans hc)
      rcases hcase with hlast | hletter | rfl
      · exact h.last d hlast
      · exact hletters d hletter
      · decide

/-! ## Spellings of spellings -/

/-- The texts that spellings are: texts that are spelled as they should be, in nullable types, array
types and array shapes. -/
inductive Spelled : List Char → Prop
  | plain {cs : List Char} (settled : suggestChars cs = cs) : Spelled cs
  | nullable {cs : List Char} (ne : cs ≠ []) (spelled : Spelled cs) : Spelled ('?' :: cs)
  | element {cs : List Char} (ne : cs ≠ []) (mark : cs.head? ≠ some '?') (spelled : Spelled cs) :
      Spelled (cs ++ ['[', ']'])
  | shape {key value : List Char} (isKey : IsShapeKey key) (isValue : IsShapeValue value)
      (key_spelled : Spelled key) (value_spelled : Spelled value) : Spelled (writeShape key value)

/-- Built-in types are well spelled. -/
theorem spelled_builtin {name : String} (h : name ∈ builtins) : Spelled name.toList :=
  .plain (suggestChars_builtin h)

/-- What is suggested is well spelled. -/
theorem spelled_suggestChars (cs : List Char) : Spelled (suggestChars cs) := by
  fun_induction suggestChars cs with
  | case1 c rest ih => exact .nullable (suggestChars_ne_nil (by simp)) ih
  | case2 => exact .plain (by rw [suggestChars])
  | case3 c rest hmark element helement hlt ih =>
      obtain ⟨heq, hne⟩ := elementType?_eq_some.1 helement
      refine .element (suggestChars_ne_nil hne) (head?_suggestChars_ne fun hhead => ?_) ih
      obtain ⟨ds, rfl⟩ := List.head?_eq_some_iff.1 hhead
      cases heq
      cases ds with
      | nil => exact hmark _ _ rfl rfl
      | cons d ds => exact hmark _ _ rfl rfl
  | case4 c rest hmark helement short hshort => exact spelled_builtin (length_le_of_alias hshort).2
  | case5 c rest hmark helement halias hopens key value hshape hlt ihkey ihvalue =>
      obtain ⟨hkey, hvalue, -⟩ := shape?_sound hshape
      exact .shape hkey.suggestChars hvalue.suggestChars ihkey ihvalue
  | case6 => exact spelled_builtin (by decide)
  | case7 c rest hmark helement halias hopens =>
      rcases suggestPlain_cases (c :: rest) with hplain | ⟨name, hbuiltin, hplain⟩
      · have hplain' := suggestChars_plain (fun d ds heq => hmark d ds (List.cons.inj heq).1
          (List.cons.inj heq).2) helement halias (by simpa using hopens)
        rw [hplain]
        exact .plain (hplain'.trans hplain)
      · rw [hplain]
        exact spelled_builtin hbuiltin

/-- The spelling of a spelling is final. -/
theorem Spelled.settles (h : Spelled cs) :
    suggestChars (suggestChars cs) = suggestChars cs := by
  induction h with
  | plain settled => rw [settled, settled]
  | nullable ne _ ih =>
      rw [suggestChars_nullable ne, suggestChars_nullable (suggestChars_ne_nil ne), ih]
  | element ne mark _ ih =>
      rw [suggestChars_element ne mark,
        suggestChars_element (suggestChars_ne_nil ne) (head?_suggestChars_ne mark), ih]
  | @shape key value isKey isValue _ _ ihkey ihvalue =>
      by_cases hempty : key = [] ∧ value = []
      · rw [hempty.1, hempty.2, suggestChars_emptyShape]
        exact suggestChars_builtin (by decide)
      · have hne : key ≠ [] ∨ value ≠ [] := not_and_or.1 hempty
        rw [suggestChars_writeShape isKey isValue hne,
          suggestChars_writeShape isKey.suggestChars isValue.suggestChars
            (hne.imp suggestChars_ne_nil suggestChars_ne_nil), ihkey, ihvalue]

/-- A spelling without an empty shape is final. -/
theorem Spelled.settled (h : Spelled cs) (hempty : ¬ "array()".toList <:+: cs) :
    suggestChars cs = cs := by
  induction h with
  | plain settled => exact settled
  | nullable ne _ ih =>
      rw [suggestChars_nullable ne,
        ih fun hoccurs => hempty (hoccurs.trans (List.suffix_cons _ _).isInfix)]
  | element ne mark _ ih =>
      rw [suggestChars_element ne mark,
        ih fun hoccurs => hempty (hoccurs.trans (List.prefix_append _ _).isInfix)]
  | @shape key value isKey isValue _ _ ihkey ihvalue =>
      have hne : key ≠ [] ∨ value ≠ [] := by
        by_contra hnot
        obtain ⟨hkey, hvalue⟩ := not_or.1 hnot
        rw [not_not.1 hkey, not_not.1 hvalue] at hempty
        exact hempty (List.infix_refl _)
      obtain ⟨hkey, hvalue⟩ := infix_writeShape key value
      rw [suggestChars_writeShape isKey isValue hne,
        ihkey fun hoccurs => hempty (hoccurs.trans hkey),
        ihvalue fun hoccurs => hempty (hoccurs.trans hvalue)]

end PhpDoc.TypeName
