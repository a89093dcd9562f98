import PhpDoc.Proofs.Token.Grammar
import PhpDoc.TypeName

/-!
# Reading array shapes

The key of a shape that was read has neither white space nor a character of the arrow, and the value
is on one line without white space at its ends (`shape?_sound`). A shape that is written from such a
key and value is read as the same key and value (`shape?_complete`).
-/

namespace PhpDoc.TypeName

open Text

variable {cs rest key value : List Char}

/-! ## What is read -/

/-- An array shape ends with a parenthesis, and at most a line feed behind it. -/
theorem unclosed?_eq_some :
    unclosed? cs = some rest ↔ cs = rest ++ [')'] ∨ cs = rest ++ [')', '\n'] := by
  constructor
  · intro h
    unfold unclosed? at h
    split at h
    · next front hreverse =>
        cases h
        right
        simpa using congrArg List.reverse hreverse
    · next front hreverse =>
        cases h
        left
        simpa using congrArg List.reverse hreverse
    · cases h
  · rintro (rfl | rfl) <;> simp [unclosed?]

/-- A text that may stand as the key of an array shape. -/
def IsShapeKey (key : List Char) : Prop :=
  ∀ c ∈ key, isKeyPart c = true

/-- A text that may stand as the value of an array shape. -/
structure IsShapeValue (value : List Char) : Prop where
  line : '\n' ∉ value
  head : ∀ c, value.head? = some c → isSpace c = false
  last : ∀ c, value.getLast? = some c → isSpace c = false

/-- The empty text is a value of a shape. -/
theorem isShapeValue_nil : IsShapeValue [] :=
  ⟨by simp, by simp, by simp⟩

/-- What is found as the value of a shape is one. -/
theorem isShapeValue_of_shapeValue? (h : shapeValue? cs = some value) : IsShapeValue value := by
  unfold shapeValue? at h
  split at h
  · next front hfront =>
      simp only at h
      split at h
      · cases h
      · next hline =>
          cases h
          refine ⟨by simpa using hline, fun c hc => ?_, fun c hc => getLast?_trimEnd hc⟩
          -- the value starts where the text behind the white space starts
          obtain ⟨trail, hsplit, -⟩ := exists_eq_trimEnd_append isSpace front
          have hhead : (cs.dropWhile isSpace).head? = some c := by
            rcases unclosed?_eq_some.1 hfront with hdrop | hdrop <;>
              rw [hdrop, hsplit, List.append_assoc, List.head?_append, hc, Option.some_or]
          exact Lexer.head?_dropWhile_eq hhead
  · cases h

/-- What is found as the key of a shape is one. -/
theorem isShapeKey_of_bareKey? {run after : List Char} (hrun : IsShapeKey run)
    (h : bareKey? run after = some key) : IsShapeKey key := by
  unfold bareKey? at h
  split at h
  · cases h
    exact hrun
  · split at h
    · rcases unclosed?_eq_some.1 h with rfl | rfl
      · exact fun c hc => hrun c (List.mem_append_left _ hc)
      · exact fun c hc => hrun c (List.mem_append_left _ hc)
    · cases h

/-- Only an arrow gives an array shape a value. -/
theorem mem_of_afterArrow? (h : afterArrow? cs = some rest) : '=' ∈ cs := by
  unfold afterArrow? at h
  split at h
  · next after hdrop =>
      refine (List.dropWhile_sublist isSpace).mem ?_
      rw [hdrop]
      exact List.mem_cons_self
  · cases h

/-- Key and value of an array shape are such texts, and there is an arrow when there is a value. -/
theorem shape?_sound (h : shape? cs = some (key, value)) :
    IsShapeKey key ∧ IsShapeValue value ∧ (value ≠ [] → '=' ∈ cs) := by
  have hrun : IsShapeKey ((cs.dropWhile isSpace).takeWhile isKeyPart) :=
    fun c hc => List.mem_takeWhile_imp hc
  unfold shape? at h
  simp only at h
  split at h
  · next v hv =>
      obtain ⟨after, hafter, hvalue⟩ := Option.bind_eq_some_iff.1 hv
      cases h
      refine ⟨hrun, isShapeValue_of_shapeValue? hvalue, fun _ => ?_⟩
      exact (List.dropWhile_sublist isSpace).mem
        ((List.dropWhile_sublist isKeyPart).mem (mem_of_afterArrow? hafter))
  · obtain ⟨k, hk, heq⟩ := Option.map_eq_some_iff.1 h
    cases heq
    exact ⟨isShapeKey_of_bareKey? hrun hk, isShapeValue_nil, by simp⟩

/-! ## Where it is read -/

/-- What an array shape holds stands in front of the parenthesis that closes it. -/
theorem closed_of_unclosed? (h : unclosed? cs = some rest) : (rest ++ [')']).Sublist cs := by
  rcases unclosed?_eq_some.1 h with rfl | rfl
  · exact .refl _
  · exact (List.Sublist.refl _).append (by simp)

/-- A value that is found stands in front of a closing parenthesis. -/
theorem closed_of_shapeValue? (h : shapeValue? cs = some value) :
    (value ++ [')']).Sublist cs := by
  unfold shapeValue? at h
  split at h
  · next front hfront =>
      simp only at h
      split at h
      · cases h
      · cases h
        obtain ⟨trail, hsplit, -⟩ := exists_eq_trimEnd_append isSpace front
        have hclosed := (closed_of_unclosed? hfront).trans (List.dropWhile_sublist _)
        rw [hsplit, List.append_assoc] at hclosed
        exact ((List.Sublist.refl _).append (by simp)).trans hclosed
  · cases h

/-- A key that is found stands in front of a closing parenthesis. -/
theorem closed_of_bareKey? {run after : List Char} (h : bareKey? run after = some key) :
    (key ++ [')']).Sublist (run ++ after) := by
  unfold bareKey? at h
  split at h
  · next hclose =>
      cases h
      have hclosed := (closed_of_unclosed? hclose).trans (List.dropWhile_sublist _)
      exact (List.Sublist.refl _).append hclosed
  · split at h
    · exact (closed_of_unclosed? h).trans (List.sublist_append_left _ _)
    · cases h

/-- What stands behind an arrow is the end of the text. -/
theorem suffix_afterArrow? (h : afterArrow? cs = some rest) : rest <:+ cs := by
  unfold afterArrow? at h
  split at h
  · next after hdrop =>
      cases h
      refine List.IsSuffix.trans ?_ (List.dropWhile_suffix isSpace)
      rw [hdrop]
      exact List.suffix_append ['=', '>'] rest
  · cases h

/-- Key and value of an array shape stand in front of the parenthesis that closes it. -/
theorem closed_of_shape? (h : shape? cs = some (key, value)) :
    (key ++ [')']).Sublist cs ∧ (value ≠ [] → (value ++ [')']).Sublist cs) := by
  have hbody : ((cs.dropWhile isSpace).takeWhile isKeyPart ++
      (cs.dropWhile isSpace).dropWhile isKeyPart).Sublist cs := by
    rw [List.takeWhile_append_dropWhile]
    exact List.dropWhile_sublist _
  unfold shape? at h
  simp only at h
  split at h
  · next v hv =>
      obtain ⟨behind, harrow, hvalue⟩ := Option.bind_eq_some_iff.1 hv
      cases h
      have hclosed := (closed_of_shapeValue? hvalue).trans (suffix_afterArrow? harrow).sublist
      have hclose := (List.sublist_append_right value [')']).trans hclosed
      exact ⟨((List.Sublist.refl _).append hclose).trans hbody,
        fun _ => (hclosed.trans (List.sublist_append_right _ _)).trans hbody⟩
  · obtain ⟨k, hk, heq⟩ := Option.map_eq_some_iff.1 h
    cases heq
    exact ⟨(closed_of_bareKey? hk).trans hbody, fun hne => absurd rfl hne⟩

/-- What stands in front of the closing parenthesis is the start of the text. -/
theorem prefix_unclosed? (h : unclosed? cs = some rest) : rest <+: cs := by
  rcases unclosed?_eq_some.1 h with rfl | rfl <;> exact List.prefix_append _ _

/-- The value of a shape is a piece of the text. -/
theorem infix_shapeValue? (h : shapeValue? cs = some value) : value <:+: cs := by
  unfold shapeValue? at h
  split at h
  · next front hfront =>
      simp only at h
      split at h
      · cases h
      · cases h
        obtain ⟨trail, hsplit, -⟩ := exists_eq_trimEnd_append isSpace front
        have hvalue : trimEnd isSpace front <+: front := ⟨trail, hsplit.symm⟩
        exact (hvalue.trans (prefix_unclosed? hfront)).isInfix.trans
          (List.dropWhile_suffix _).isInfix
  · cases h

/-- The key of a shape is the start of the text. -/
theorem prefix_bareKey? {run after : List Char} (h : bareKey? run after = some key) :
    key <+: run := by
  unfold bareKey? at h
  split at h
  · cases h
    exact List.prefix_refl _
  · split at h
    · exact prefix_unclosed? h
    · cases h

/-- The key and the value of an array shape stand in the text between its parentheses. -/
theorem infix_shape? (h : shape? cs = some (key, value)) : key <:+: cs ∧ value <:+: cs := by
  have hbody : cs.dropWhile isSpace <:+: cs := (List.dropWhile_suffix _).isInfix
  have hrun : (cs.dropWhile isSpace).takeWhile isKeyPart <:+: cs :=
    (List.takeWhile_prefix _).isInfix.trans hbody
  unfold shape? at h
  simp only at h
  split at h
  · next v hv =>
      obtain ⟨behind, harrow, hvalue⟩ := Option.bind_eq_some_iff.1 hv
      cases h
      exact ⟨hrun, (infix_shapeValue? hvalue).trans <| (suffix_afterArrow? harrow).isInfix.trans <|
        (List.dropWhile_suffix _).isInfix.trans hbody⟩
  · obtain ⟨k, hk, heq⟩ := Option.map_eq_some_iff.1 h
    cases heq
    exact ⟨(prefix_bareKey? hk).isInfix.trans hrun, List.nil_infix⟩

/-! ## What is written -/

/-- The parts of keys are no white space. -/
theorem isSpace_of_isKeyPart {c : Char} (h : isKeyPart c = true) : isSpace c = false := by
  simp only [isKeyPart, Bool.and_eq_true, Bool.not_eq_eq_eq_not, Bool.not_true] at h
  exact h.1.1

/-- A key is read up to what cannot be part of it. -/
theorem dropWhile_key (hkey : IsShapeKey key) (hne : key ≠ []) (rest : List Char) :
    (key ++ rest).dropWhile isSpace = key ++ rest := by
  cases key with
  | nil => exact absurd rfl hne
  | cons c key => simp [isSpace_of_isKeyPart (hkey c List.mem_cons_self)]

/-- The value that is written behind an arrow is read. -/
theorem shapeValue?_written (hvalue : IsShapeValue value) (hne : value ≠ []) :
    shapeValue? (' ' :: (value ++ [')'])) = some value := by
  have hdrop : (' ' :: (value ++ [')'])).dropWhile isSpace = value ++ [')'] := by
    cases value with
    | nil => exact absurd rfl hne
    | cons c value =>
        have hspace : isSpace ' ' = true := by decide
        simp [hspace, hvalue.head c rfl]
  have hline : value.contains '\n' = false := by simpa using hvalue.line
  unfold shapeValue?
  rw [hdrop, unclosed?_eq_some.2 (.inl rfl)]
  simp only [trimEnd_eq_self hvalue.last, hline, Bool.false_eq_true, ↓reduceIte]

/-- The text between the opening parenthesis and the end of a written shape. -/
def shapeBody (key value : List Char) : List Char :=
  if value.isEmpty then key ++ [')'] else key ++ " => ".toList ++ value ++ [')']

/-- A shape is written as its body behind the word and the parenthesis. -/
theorem writeShape_eq (key value : List Char) :
    writeShape key value = "array(".toList ++ shapeBody key value := by
  unfold writeShape shapeBody
  split <;> simp

/-- A key alone is read as a shape without a value. -/
theorem shape?_bare (hkey : IsShapeKey key) : shape? (key ++ [')']) = some (key, []) := by
  have hclose : isKeyPart ')' = true := by decide
  have hspace : isSpace ')' = false := by decide
  have hbody : (key ++ [')']).dropWhile isSpace = key ++ [')'] := by
    cases key with
    | nil => simp [hspace]
    | cons c key => exact dropWhile_key hkey (by simp) _
  have hrun : ∀ c ∈ key ++ [')'], isKeyPart c = true := by
    intro c hc
    rcases List.mem_append.1 hc with hc | hc
    · exact hkey c hc
    · rw [List.mem_singleton.1 hc]
      exact hclose
  have htake : (key ++ [')']).takeWhile isKeyPart = key ++ [')'] :=
    List.takeWhile_eq_self_iff.2 hrun
  have hdrop : (key ++ [')']).dropWhile isKeyPart = [] := List.dropWhile_eq_nil_iff.2 hrun
  have harrow : afterArrow? [] = none := rfl
  have hunclosed : unclosed? (([] : List Char).dropWhile isSpace) = none := rfl
  unfold shape?
  simp only [hbody, htake, hdrop, harrow, Option.bind_none, bareKey?, hunclosed,
    unclosed?_eq_some.2 (.inl rfl)]
  rfl

/-- A key and a value are read as a shape with both. -/
theorem shape?_keyed (hkey : IsShapeKey key) (hvalue : IsShapeValue value) (hne : value ≠ []) :
    shape? (key ++ " => ".toList ++ value ++ [')']) = some (key, value) := by
  have hparts : ∀ c ∈ " =".toList, isKeyPart c = false := by decide
  -- without a key the white space in front of the arrow is passed over with the body
  obtain ⟨after, hbody, hstop, hafter⟩ : ∃ after,
      (key ++ " => ".toList ++ value ++ [')']).dropWhile isSpace = key ++ after ∧
      (∀ c, after.head? = some c → isKeyPart c = false) ∧
      afterArrow? after = some (' ' :: (value ++ [')'])) := by
    cases key with
    | nil =>
        refine ⟨'=' :: '>' :: ' ' :: (value ++ [')']), rfl, fun c hc => ?_, rfl⟩
        rw [List.head?_cons, Option.some.injEq] at hc
        exact hparts c (by simp [← hc])
    | cons c key =>
        refine ⟨' ' :: '=' :: '>' :: ' ' :: (value ++ [')']), ?_, fun c hc => ?_, rfl⟩
        · rw [List.append_assoc, List.append_assoc]
          exact dropWhile_key hkey (by simp) _
        · rw [List.head?_cons, Option.some.injEq] at hc
          exact hparts c (by simp [← hc])
  obtain ⟨htake, hdrop⟩ := Lexer.takeWhile_run hkey hstop
  unfold shape?
  simp only [hbody, htake, hdrop, hafter, Option.bind_some, shapeValue?_written hvalue hne]

/-- The key and the value that a shape was written from are read from it. -/
theorem shape?_complete (hkey : IsShapeKey key) (hvalue : IsShapeValue value) :
    shape? (shapeBody key value) = some (key, value) := by
  unfold shapeBody
  split
  · next hempty =>
      rw [List.isEmpty_iff.1 hempty]
      exact shape?_bare hkey
  · next hne => exact shape?_keyed hkey hvalue (by simpa using hne)

end PhpDoc.TypeName
