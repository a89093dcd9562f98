import PhpDoc.Proofs.Comment.ParamValue
import PhpDoc.Proofs.TypeName.Union

/-!
# Correcting the type in a value

The preferred spelling of a type is written in front of the rest of a value. It is read back as the
type of the value when the alternatives of the type are names and array shapes without parentheses
in them, with question marks in front and pairs of brackets behind (`parse?_retype`). A shape with
another one as its value is never read back, because its arrow stands behind a space at which the
type ends (`type_ne_nested`).
-/

namespace PhpDoc.ParamValue

open Text Lexer PhpDoc.TypeName

variable {cs inner key value rest : List Char} {text : String} {pv : ParamValue}

/-! ## Texts that a type takes -/

/-- The characters of names. -/
def isNamePart (c : Char) : Bool :=
  !isSpace c && !isSigil c && !isParen c && c != '.' && c != '='

/-- The type takes the text and goes on behind it, unless the text is followed by what could be part
of the opening of a shape. -/
def Whole (cs : List Char) : Prop :=
  ∀ rest, (∀ c, rest.head? = some c → c ∉ "array(".toList) →
    typeWidth (cs ++ rest) = cs.length + typeWidth rest

/-- A type goes on at the parts of a name. -/
theorem not_stops {c : Char} (h : isNamePart c = true) (rest : List Char) :
    ¬ Stops (c :: rest) := by
  simp only [isNamePart, Bool.and_eq_true, Bool.not_eq_eq_eq_not, Bool.not_true, bne_iff_ne] at h
  obtain ⟨⟨⟨⟨hspace, hsigil⟩, -⟩, hdot⟩, -⟩ := h
  rintro (hdots | hhead)
  · obtain ⟨tail, htail⟩ := startsWith_eq_true.1 hdots
    exact hdot (List.cons.inj htail).1
  · rcases hhead c rfl with h | h
    · rw [hspace] at h
      cases h
    · rw [hsigil] at h
      cases h

/-- A text of name parts is taken as a type as a whole. -/
theorem whole_of_names (h : ∀ c ∈ cs, isNamePart c = true) : Whole cs := by
  intro rest hrest
  induction cs with
  | nil => simp
  | cons c cs ih =>
      obtain ⟨hc, hcs⟩ := List.forall_mem_cons.1 h
      have hshape : shapeWidth? (c :: (cs ++ rest)) = none := by
        rw [Option.eq_none_iff_forall_ne_some]
        intro width hwidth
        obtain ⟨_, tail, ⟨inner, -, rfl⟩, heq, -⟩ := shapeWidth?_eq_some.1 hwidth
        rw [← List.cons_append, List.append_assoc] at heq
        -- the parenthesis is none of the characters, so the opening goes on behind them
        rcases List.append_eq_append_iff.1 heq with ⟨front, hfront, rfl⟩ | ⟨left, hleft, -⟩
        · cases front with
          | nil =>
              rw [List.append_nil] at hfront
              exact absurd (h '(' (hfront ▸ by decide)) (by decide)
          | cons d front => exact hrest d rfl (by rw [hfront]; simp)
        · exact absurd (h '(' (by rw [hleft]; simp)) (by decide)
      rw [List.cons_append, typeWidth_step hshape (not_stops hc _), ih hcs, List.length_cons]
      omega

/-- A character of a name that opens no shape is taken by itself. -/
theorem Whole.cons {c : Char} (hname : isNamePart c = true) (hopen : c ≠ 'a') (h : Whole cs) :
    Whole (c :: cs) := by
  intro rest hrest
  have hshape : shapeWidth? (c :: (cs ++ rest)) = none := by
    rw [Option.eq_none_iff_forall_ne_some]
    intro width hwidth
    obtain ⟨_, tail, ⟨inner, -, rfl⟩, heq, -⟩ := shapeWidth?_eq_some.1 hwidth
    exact hopen (List.cons.inj heq).1
  rw [List.cons_append, typeWidth_step hshape (not_stops hname _), h rest hrest, List.length_cons]
  omega

/-- Two texts that are taken as a whole are taken as a whole together, unless their seam could start
an array shape. -/
theorem Whole.append (h : Whole cs) {ds : List Char} (hds : Whole ds)
    (hhead : ∀ c, ds.head? = some c → c ∉ "array(".toList) (hne : ds ≠ []) : Whole (cs ++ ds) := by
  intro rest hrest
  rw [List.append_assoc, h, hds rest hrest, List.length_append, Nat.add_assoc]
  intro c hc
  obtain ⟨d, ds, rfl⟩ := List.exists_cons_of_ne_nil hne
  exact hhead c hc

/-- An array shape is taken as a type as a whole. -/
theorem whole_of_shape (h : IsShape cs) : Whole cs :=
  fun rest _ => typeWidth_shape h rest

/-- A written shape is the text of a shape when there are no parentheses in it. -/
theorem whole_writeShape (hkey : ∀ c ∈ key, isParen c = false)
    (hvalue : ∀ c ∈ value, isParen c = false) : Whole (writeShape key value) := by
  refine whole_of_shape ?_
  unfold writeShape
  split
  · exact ⟨key, hkey, by simp⟩
  · refine ⟨key ++ " => ".toList ++ value, ?_, by simp⟩
    simp only [List.mem_append, or_imp, forall_and]
    exact ⟨⟨hkey, by decide⟩, hvalue⟩

/-! ## Types that are read back -/

/-- An alternative of a type without parentheses in parentheses: a name or an array shape, with
question marks in front and pairs of brackets behind. -/
inductive Flat : List Char → Prop
  | name {cs : List Char} (ne : cs ≠ []) (names : ∀ c ∈ cs, isNamePart c = true) : Flat cs
  | nullable {cs : List Char} (flat : Flat cs) : Flat ('?' :: cs)
  | element {cs : List Char} (mark : cs.head? ≠ some '?') (flat : Flat cs) : Flat (cs ++ ['[', ']'])
  | shape {lead inner : List Char} (mark : lead.head? ≠ some '?') (length_eq : lead.length = 6)
      (opens : opensShape lead = true) (bare : ∀ c ∈ inner, isParen c = false) :
      Flat (lead ++ (inner ++ [')']))

/-- A flat type is not empty. -/
theorem Flat.ne_nil (h : Flat cs) : cs ≠ [] := by
  cases h with
  | name ne names => exact ne
  | nullable flat => simp
  | element mark flat => simp
  | shape mark length_eq opens bare => simp

/-- The name of a built-in type is taken as a whole. -/
theorem whole_builtin {name : String} (h : name ∈ builtins) : Whole name.toList := by
  have hletters : ∀ c ∈ smallLetters, isNamePart c = true := by decide
  exact whole_of_names fun c hc => hletters c (mem_smallLetters_of_builtin name h c hc)

/-- The spelling of a text without parentheses has none. -/
theorem bare_suggestChars (h : ∀ c ∈ cs, isParen c = false) :
    ∀ c ∈ suggestChars cs, isParen c = false :=
  forall_mem_suggestChars (by decide) (by decide) (by decide) h

/-- What is read from between the parentheses of a shape has no parentheses when the text between
them has none. -/
theorem bare_of_shape? (h : shape? (inner ++ [')']) = some (key, value))
    (hinner : ∀ c ∈ inner, isParen c = false) :
    (∀ c ∈ key, isParen c = false) ∧ ∀ c ∈ value, isParen c = false := by
  have hsublist : ∀ {cs : List Char}, (cs ++ [')']).Sublist (inner ++ [')']) →
      ∀ c ∈ cs, isParen c = false :=
    fun hclosed c hc => hinner c (((List.append_sublist_append_right _).1 hclosed).mem hc)
  obtain ⟨hkey, hvalue⟩ := closed_of_shape? h
  exact ⟨hsublist hkey, fun c hc => hsublist (hvalue (List.ne_nil_of_mem hc)) c hc⟩

/-- The spelling of a shape without parentheses in it is taken as a whole. -/
theorem whole_suggestChars_shape {lead : List Char} (hmark : lead.head? ≠ some '?')
    (hlength : lead.length = 6) (hopens : opensShape lead = true)
    (hbare : ∀ c ∈ inner, isParen c = false) :
    Whole (suggestChars (lead ++ (inner ++ [')']))) := by
  have hplain : ∀ c rest, lead ++ (inner ++ [')']) ≠ '?' :: c :: rest := by
    intro c rest heq
    cases lead with
    | nil => cases hlength
    | cons d lead =>
        obtain rfl : d = '?' := (List.cons.inj heq).1
        exact hmark rfl
  have helement : elementType? (lead ++ (inner ++ [')'])) = none := by
    rw [Option.eq_none_iff_forall_ne_some]
    intro element helement
    have hlast := congrArg List.getLast? (elementType?_eq_some.1 helement).1
    simp at hlast
  have htake : (lead ++ (inner ++ [')'])).take 6 = lead.take 6 := by
    rw [← hlength, List.take_left, List.take_length]
  have hdrop : (lead ++ (inner ++ [')'])).drop 6 = inner ++ [')'] := by
    rw [← hlength, List.drop_left]
  have hopens : opensShape (lead ++ (inner ++ [')'])) = true := by
    rw [opensShape, htake]
    exact hopens
  rw [suggestChars_eq hplain, helement]
  simp only [hopens, hdrop, ↓reduceIte]
  split
  · next short halias => exact whole_builtin (length_le_of_alias halias).2
  · split
    · next hshape =>
        obtain ⟨hkey, hvalue⟩ := bare_of_shape? hshape hbare
        exact whole_writeShape (bare_suggestChars hkey) (bare_suggestChars hvalue)
    · exact whole_of_names (by decide)

/-- The spelling of an alternative without parentheses in parentheses is taken as a whole. -/
theorem Flat.whole (h : Flat cs) : Whole (suggestChars cs) := by
  induction h with
  | name ne names =>
      exact whole_of_names (forall_mem_suggestChars (by decide) (by decide) (by decide) names)
  | nullable flat ih =>
      rw [suggestChars_nullable flat.ne_nil]
      exact ih.cons (by decide) (by decide)
  | element mark flat ih =>
      rw [suggestChars_element flat.ne_nil mark]
      exact ih.append (whole_of_names (by decide)) (by simp) (by simp)
  | shape mark length_eq opens bare => exact whole_suggestChars_shape mark length_eq opens bare

/-- The preferred spelling of a union of flat types is taken as a whole. -/
theorem whole_normalize {type : String} (h : ∀ part ∈ splitOn '|' type.toList, Flat part) :
    Whole (normalize type).toList := by
  refine join_induction (whole_of_names (by simp))
    (fun hcs hds => hcs.append (hds.cons (by decide) (by decide)) (by simp) (by simp))
    fun name hname => ?_
  obtain ⟨part, hpart, heq⟩ := exists_part_of_mem_names hname
  rw [heq]
  exact (h part hpart).whole

/-- The preferred spelling of a union of flat types is not empty. -/
theorem normalize_ne_nil {type : String} (h : ∀ part ∈ splitOn '|' type.toList, Flat part) :
    (normalize type).toList ≠ [] := by
  obtain ⟨name, hname⟩ := List.exists_mem_of_ne_nil _ (names_ne_nil type)
  obtain ⟨part, hpart, heq⟩ := exists_part_of_mem_names hname
  intro hnil
  have hinfix : name.toList <:+: (normalize type).toList := infix_join hname
  rw [hnil, List.infix_nil, heq] at hinfix
  exact suggestChars_ne_nil (h part hpart).ne_nil hinfix

/-! ## Correcting a value -/

/-- Where a value is divided, its type stops. -/
theorem Divides.stops {type : String} (h : Divides text type rest) : Stops rest := by
  have hstops := stops_drop_typeWidth text.toList
  rwa [h.width, h.whole, List.drop_left] at hstops

/-- A flat type that is corrected is read back with the same parts behind it. -/
theorem parse?_retype (h : parse? text = some pv)
    (hflat : ∀ part ∈ splitOn '|' pv.type.toList, Flat part) :
    parse? (normalize pv.type ++ dropChars pv.type.length text) =
      some { pv with type := normalize pv.type } := by
  obtain ⟨rest, hdivides, hpv⟩ := exists_divides h
  have hrest : (dropChars pv.type.length text).toList = rest := toList_dropChars hdivides.whole
  have hnew : Divides (normalize pv.type ++ dropChars pv.type.length text) (normalize pv.type)
      rest := by
    refine ⟨by rw [String.toList_append, hrest], normalize_ne_nil hflat, ?_⟩
    rw [String.toList_append, hrest, whole_normalize hflat rest fun c => hdivides.stops.not_mem,
      typeWidth_stop hdivides.stops, Nat.add_zero]
  rw [hnew.parse?, ofParts_type pv.type, ← hpv]

/-! ## Types that are not read back -/

/-- What ends where it ends in front of some text ends there by itself. -/
theorem typeWidth_of_append {type : List Char} (h : typeWidth (type ++ rest) = type.length) :
    typeWidth type = type.length := by
  have hreplaces : Replaces rest [] := by
    refine ⟨.inr (by simp), fun cs _ hdots => ?_, fun hclose => by cases hclose⟩
    rw [List.append_nil] at hdots
    exact startsWith_append hdots rest
  have hwidth := typeWidth_replace hreplaces h
  rwa [List.append_nil] at hwidth

/-- Without a shape that starts in front of it the type ends at a space. -/
theorem typeWidth_le_of_space {lead : List Char}
    (h : ∀ c cs, c :: cs <:+ lead → shapeWidth? (c :: cs ++ ' ' :: rest) = none) :
    typeWidth (lead ++ ' ' :: rest) ≤ lead.length := by
  induction lead with
  | nil =>
      rw [List.nil_append, typeWidth_stop (.inr fun c hc => .inl ?_)]
      · exact Nat.le_refl _
      · obtain rfl : ' ' = c := Option.some.inj hc
        decide
  | cons c lead ih =>
      have hrest := ih fun d ds hsuffix => h d ds (hsuffix.trans (List.suffix_cons _ _))
      have hshape := h c lead (List.suffix_refl _)
      rw [List.length_cons]
      by_cases hstop : Stops (c :: lead ++ ' ' :: rest)
      · rw [typeWidth_stop hstop]
        exact Nat.zero_le _
      · rw [List.cons_append] at hshape hstop ⊢
        rw [typeWidth_step hshape hstop]
        omega

/-- A shape with another one as its value is not taken as a type. -/
theorem typeWidth_nested (hkey : ∀ c ∈ key, isParen c = false)
    (hvalue : value.find? isParen = some '(') :
    typeWidth (writeShape key value) < (writeShape key value).length := by
  have hne : value.isEmpty = false := by
    cases value with
    | nil => cases hvalue
    | cons c value => rfl
  have hwritten : writeShape key value =
      "array(".toList ++ key ++ ' ' :: ("=> ".toList ++ value ++ [')']) := by
    simp [writeShape, hne]
  rw [hwritten]
  refine Nat.lt_of_le_of_lt (typeWidth_le_of_space fun c cs hsuffix => ?_) (by simp)
  rw [Option.eq_none_iff_forall_ne_some]
  intro width hwidth
  obtain ⟨_, tail, ⟨inner, hinner, rfl⟩, heq, -⟩ := shapeWidth?_eq_some.1 hwidth
  obtain ⟨front, hfront⟩ := hsuffix
  -- the opening of a shape holds no space, so it stands in front of the arrow
  obtain ⟨behind, hbehind, hbody⟩ : ∃ behind, c :: cs = "array(".toList ++ behind ∧
      inner ++ [')'] ++ tail = behind ++ ' ' :: ("=> ".toList ++ value ++ [')']) := by
    rw [List.append_assoc "array(".toList] at heq
    rcases List.append_eq_append_iff.1 heq with ⟨left, hleft, hright⟩ | ⟨behind, hbehind, hbody⟩
    · cases left with
      | nil => exact ⟨[], by simpa using hleft.symm, by simpa using hright.symm⟩
      | cons d left =>
          obtain rfl : ' ' = d := (List.cons.inj hright).1
          exact absurd (hleft ▸ by simp : ' ' ∈ "array(".toList) (by decide)
    · exact ⟨behind, hbehind, hbody⟩
  rw [hbehind] at hfront
  cases front with
  | nil =>
      -- the first parenthesis behind the opening one does not close it
      obtain rfl : behind = key := List.append_cancel_left hfront
      have hparen := congrArg (List.find? isParen) hbody
      have hnone : ∀ {cs : List Char}, (∀ c ∈ cs, isParen c = false) → cs.find? isParen = none :=
        fun h => List.find?_eq_none.2 fun c hc => by simp [h c hc]
      have harrow : (' ' :: "=> ".toList).find? isParen = none := by decide
      have hclose : [')'].find? isParen = some ')' := rfl
      rw [← List.cons_append, ← List.cons_append] at hparen
      simp only [List.find?_append, hnone hinner, hnone hkey, harrow, hclose, hvalue,
        Option.none_or, Option.some_or] at hparen
      cases hparen
  | cons d front =>
      -- the key would hold the opening parenthesis
      have hopen : "array(".toList = "array".toList ++ ['('] := rfl
      have hsix := congrArg (List.drop 6) hfront
      have hlen : 6 ≤ (d :: front ++ "array".toList).length := by simp
      rw [hopen, List.append_assoc, ← List.append_assoc (d :: front),
        List.drop_append_of_le_length hlen] at hsix
      have hkeyEq : ("array".toList ++ ['('] ++ key).drop 6 = key := rfl
      rw [hkeyEq] at hsix
      exact absurd (hkey '(' (hsix ▸ by simp)) (by decide)

/-- No value is read with a type that is a shape with another one as its value. -/
theorem type_ne_nested (h : parse? text = some pv) (hkey : ∀ c ∈ key, isParen c = false)
    (hvalue : value.find? isParen = some '(') : pv.type.toList ≠ writeShape key value := by
  obtain ⟨rest, hdivides, -⟩ := exists_divides h
  have hwidth := hdivides.width
  rw [hdivides.whole] at hwidth
  intro heq
  have hnested := typeWidth_nested hkey hvalue
  rw [← heq, typeWidth_of_append hwidth] at hnested
  exact Nat.lt_irrefl _ hnested

/-- The arrows of a shape in a shape get white space around them, and the value that is written has
neither the variable nor the description of the value that it is written for. -/
theorem parse?_retype_nested :
    let text := "array(a=>array(b=>C)) $x F."
    let type := "array(a=>array(b=>C))"
    let written := "array(a => array(b => C)) $x F."
    parse? text = some ⟨type, 1, some "$x", some ⟨1, "F."⟩⟩ ∧
      normalize type ++ dropChars type.length text = written ∧
      parse? written = some ⟨"array(a", 1, none, none⟩ := by
  decide +kernel

end PhpDoc.ParamValue
