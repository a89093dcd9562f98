import PhpDoc.Proofs.Comment.ParamTag
import PhpDoc.Proofs.Comment.Star
import PhpDoc.Proofs.Token.Lookahead
import PhpDoc.Proofs.Token.Piece

/-!
# Reading a value again

What a value with a variable is read as depends on where its type ends, and that on the text behind
the type: three dots divide a type from what follows, and a shape that the type leaves open may be
closed there. `Replaces` says when another text behind the type moves no boundary, and
`typeWidth_replace` that the type then ends at the same place. A value is read as its type in front
of the parts behind it (`Divides.parse?`, `exists_divides`), and these are white space, a variable
and what follows it (`Spaced.ofParts`, `exists_spaced`). So with other white space between the parts
a value is read into the same ones (`parse?_render`).
-/

namespace PhpDoc.ParamValue

open Text Lexer

variable {cs type old new rest x after : List Char} {text : String} {pv : ParamValue}

/-! ## Array shapes -/

/-- The characters that no array shape holds between its parentheses. -/
def isParen (c : Char) : Bool :=
  c == '(' || c == ')'

/-- The text of an array shape. -/
def IsShape (shape : List Char) : Prop :=
  ∃ inner, (∀ c ∈ inner, isParen c = false) ∧ shape = "array(".toList ++ (inner ++ [')'])

/-- The width that is found is that of an array shape at the start of the text. -/
theorem shapeWidth?_eq_some {width : Nat} :
    shapeWidth? cs = some width ↔ ∃ shape rest, IsShape shape ∧ cs = shape ++ rest ∧
      width = shape.length := by
  have hparen : (fun c => c != '(' && c != ')') = (!isParen ·) := by
    funext c
    simp [isParen, bne]
  unfold shapeWidth?
  simp only [hparen]
  constructor
  · intro h
    split at h
    · next hopen =>
        obtain ⟨body, rfl⟩ := startsWith_eq_true.1 hopen
        have hdrop : ("array(".toList ++ body).drop 6 = body := rfl
        rw [← List.drop_drop, hdrop, drop_length_takeWhile] at h
        split at h
        · next hclose =>
            obtain ⟨rest, hrest⟩ := startsWith_eq_true.1 hclose
            cases h
            refine ⟨_, rest, ⟨body.takeWhile (!isParen ·), fun c hc => ?_, rfl⟩, ?_, ?_⟩
            · simpa using List.mem_takeWhile_imp hc
            · conv => lhs; rw [← List.takeWhile_append_dropWhile (p := (!isParen ·)) (l := body)]
              rw [hrest]
              simp
            · simp
        · cases h
    · cases h
  · rintro ⟨_, rest, ⟨inner, hinner, rfl⟩, rfl, rfl⟩
    have hopen : startsWith "array(" ("array(".toList ++ (inner ++ [')']) ++ rest) = true :=
      startsWith_eq_true.2 ⟨inner ++ [')'] ++ rest, by simp⟩
    have hdrop : ("array(".toList ++ (inner ++ [')']) ++ rest).drop 6 = inner ++ ')' :: rest := by
      simp
    have hrun : ∀ c ∈ inner, (!isParen c) = true := fun c hc => by simp [hinner c hc]
    have hend : ∀ c, (')' :: rest).head? = some c → (!isParen c) = false := by simp [isParen]
    have hclose : startsWith ")" (')' :: rest) = true := startsWith_eq_true.2 ⟨rest, rfl⟩
    obtain ⟨htake, hleft⟩ := takeWhile_run hrun hend
    rw [if_pos hopen, ← List.drop_drop, hdrop, drop_length_takeWhile, htake, hleft, if_pos hclose]
    simp

/-- A shape that a text and what follows it close together is closed behind the text, when the text
does not hold all of it. -/
theorem exists_of_straddle {shape : List Char} (hshape : IsShape shape) (hne : type ≠ [])
    {tail : List Char} (htail : tail ≠ []) (heq : shape = type ++ tail)
    (hstop : ∀ c, tail.head? = some c → c ∉ "array(".toList) :
    ∃ front back, type = "array(".toList ++ front ∧ tail = back ++ [')'] ∧
      (∀ c ∈ front, isParen c = false) ∧ ∀ c ∈ back, isParen c = false := by
  obtain ⟨inner, hinner, rfl⟩ := hshape
  rcases List.append_eq_append_iff.1 heq with ⟨front, rfl, hbody⟩ | ⟨back, hopen, rfl⟩
  · -- what follows holds the closing parenthesis
    obtain ⟨back, c, rfl⟩ : ∃ back c, tail = back ++ [c] :=
      ⟨tail.dropLast, tail.getLast htail, (List.dropLast_concat_getLast htail).symm⟩
    rw [← List.append_assoc, List.append_singleton_inj] at hbody
    obtain ⟨rfl, rfl⟩ := hbody
    exact ⟨front, back, rfl, rfl, fun c hc => hinner c (List.mem_append_left _ hc),
      fun c hc => hinner c (List.mem_append_right _ hc)⟩
  · cases back with
    | nil =>
        refine ⟨[], inner, by simpa using hopen.symm, rfl, by simp, hinner⟩
    | cons c back =>
        refine absurd ?_ (hstop c rfl)
        rw [hopen]
        simp

/-! ## The end of the type -/

/-- The type takes a whole shape. -/
theorem typeWidth_shape {shape : List Char} (h : IsShape shape) (rest : List Char) :
    typeWidth (shape ++ rest) = shape.length + typeWidth rest := by
  have hshape := shapeWidth?_eq_some.2 ⟨shape, rest, h, rfl, rfl⟩
  obtain ⟨c, cs, rfl⟩ : ∃ c cs, shape = c :: cs := by
    obtain ⟨inner, -, rfl⟩ := h
    exact ⟨_, _, rfl⟩
  rw [List.cons_append, typeWidth]
  rw [List.cons_append] at hshape
  simp only [hshape, List.length_cons, Nat.add_sub_cancel, List.drop_left]

/-- Where a type has to stop, it has no more characters. -/
theorem typeWidth_stop (h : Stops cs) : typeWidth cs = 0 := by
  unfold typeWidth
  split
  · rfl
  · next c rest =>
      split
      · next width hshape =>
          obtain ⟨_, tail, ⟨inner, -, rfl⟩, heq, -⟩ := shapeWidth?_eq_some.1 hshape
          obtain rfl : c = 'a' := (List.cons.inj heq).1
          rcases h with h | h
          · cases h
          · exact absurd (h 'a' rfl) (by decide)
      · rw [if_pos]
        rcases h with h | h
        · simp [h]
        · simpa [or_assoc] using .inr (h c rfl)

/-- A character that neither stops a type nor starts an array shape is taken alone. -/
theorem typeWidth_step {c : Char} (hshape : shapeWidth? (c :: rest) = none)
    (h : ¬ Stops (c :: rest)) : typeWidth (c :: rest) = 1 + typeWidth rest := by
  have hgo : (startsWith "..." (c :: rest) || isSpace c || isSigil c) = false := by
    simpa [Stops, and_assoc] using h
  rw [typeWidth]
  simp only [hshape, hgo, Bool.false_eq_true, ↓reduceIte]

/-- A type is not longer than the text. -/
theorem typeWidth_le (cs : List Char) : typeWidth cs ≤ cs.length := by
  fun_induction typeWidth cs with
  | case1 => exact Nat.le_refl _
  | case2 c rest width hshape ih =>
      obtain ⟨shape, tail, -, heq, rfl⟩ := shapeWidth?_eq_some.1 hshape
      have hlen := congrArg List.length heq
      simp only [List.length_append, List.length_cons, List.length_drop] at hlen ih ⊢
      omega
  | case3 => exact Nat.zero_le _
  | case4 c rest hshape hgo ih =>
      rw [List.length_cons]
      omega

/-- In front of `new` a type ends where it ends in front of `old`. -/
structure Replaces (old new : List Char) : Prop where
  stops : Stops new
  dots : ∀ cs, cs ≠ [] → startsWith "..." (cs ++ new) = true → startsWith "..." (cs ++ old) = true
  closes : new.find? isParen = some ')' → old.find? isParen = some ')'

/-- A character at which a type stops is no part of the word in front of an array shape. -/
theorem Stops.not_mem {c : Char} (h : Stops cs) (hc : cs.head? = some c) :
    c ∉ "array(".toList := by
  intro hmem
  rcases h with h | h
  · obtain ⟨rest, rfl⟩ := startsWith_eq_true.1 h
    obtain rfl : '.' = c := by simpa using hc
    exact absurd hmem (by decide)
  · have hstop : ∀ c ∈ "array(".toList, isSpace c = false ∧ isSigil c = false := by decide
    obtain ⟨hspace, hsigil⟩ := hstop c hmem
    rcases h c hc with h | h
    · rw [hspace] at h
      cases h
    · rw [hsigil] at h
      cases h

/-- A type that leaves no shape open in front of `old` leaves none open in front of `new`. -/
theorem Replaces.shapeWidth? (h : Replaces old new) (hne : type ≠ [])
    (hshape : shapeWidth? (type ++ old) = none) : shapeWidth? (type ++ new) = none := by
  rw [Option.eq_none_iff_forall_ne_some]
  intro width hwidth
  obtain ⟨shape, rest, hwhole, heq, -⟩ := shapeWidth?_eq_some.1 hwidth
  have hnone : ∀ shape rest, IsShape shape → type ++ old ≠ shape ++ rest := by
    intro shape rest hwhole heq
    rw [shapeWidth?_eq_some.2 ⟨shape, rest, hwhole, heq, rfl⟩] at hshape
    cases hshape
  rcases List.append_eq_append_iff.1 heq with ⟨tail, hsplit, rfl⟩ | ⟨left, rfl, rfl⟩
  · by_cases htail : tail = []
    · -- the shape is the type
      rw [htail, List.append_nil] at hsplit
      exact hnone shape old hwhole (by rw [hsplit])
    · obtain ⟨front, back, rfl, rfl, hfront, hback⟩ := exists_of_straddle hwhole hne htail hsplit
        fun c hc => h.stops.not_mem (by rw [List.head?_append, hc, Option.some_or])
      -- what closes the shape in `new` closes it in `old` as well
      have hnew : (back ++ [')'] ++ rest).find? isParen = some ')' := by
        refine List.find?_eq_some_iff_append.2 ⟨rfl, back, rest, by simp, fun c hc => ?_⟩
        simp [hback c hc]
      obtain ⟨-, back', rest', rfl, hback'⟩ := List.find?_eq_some_iff_append.1 (h.closes hnew)
      refine hnone ("array(".toList ++ (front ++ back' ++ [')'])) rest' ⟨_, ?_, rfl⟩ (by simp)
      intro c hc
      rcases List.mem_append.1 hc with hc | hc
      · exact hfront c hc
      · simpa using hback' c hc
  · exact hnone shape (left ++ old) hwhole (by simp)

/-- The type ends at the same place in front of another text. -/
theorem typeWidth_replace (h : Replaces old new) (hwidth : typeWidth (type ++ old) = type.length) :
    typeWidth (type ++ new) = type.length := by
  induction hn : type.length using Nat.strong_induction_on generalizing type with
  | _ n ih =>
      subst hn
      cases type with
      | nil => exact typeWidth_stop h.stops
      | cons c rest =>
          cases hshape : shapeWidth? (c :: rest ++ old) with
          | some width =>
              obtain ⟨shape, tail, hwhole, heq, rfl⟩ := shapeWidth?_eq_some.1 hshape
              have hpos := shapeWidth?_pos hshape
              rw [heq, typeWidth_shape hwhole] at hwidth
              -- the shape is part of the type, which goes on behind it
              obtain ⟨left, hleft⟩ : ∃ left, c :: rest = shape ++ left :=
                (List.prefix_of_prefix_length_le ⟨tail, heq.symm⟩ ⟨old, rfl⟩ (by omega)).imp
                  fun _ h => h.symm
              obtain rfl : tail = left ++ old := by
                rw [hleft, List.append_assoc] at heq
                exact (List.append_cancel_left heq).symm
              rw [hleft, List.length_append] at hwidth ⊢
              rw [List.append_assoc, typeWidth_shape hwhole,
                ih left.length (by rw [hleft, List.length_append]; omega) (by omega) rfl]
          | none =>
              have hgo : ¬ Stops (c :: rest ++ old) := by
                intro hstop
                rw [typeWidth_stop hstop] at hwidth
                cases hwidth
              have hgo' : ¬ Stops (c :: rest ++ new) := by
                rintro (hdots | hhead)
                · exact hgo (.inl (h.dots _ (by simp) hdots))
                · exact hgo (.inr hhead)
              have hnone := h.shapeWidth? (by simp) hshape
              rw [List.cons_append] at hwidth hshape hgo hgo' hnone ⊢
              rw [typeWidth_step hshape hgo, List.length_cons] at hwidth
              rw [typeWidth_step hnone hgo', List.length_cons,
                ih rest.length (by simp) (by omega) rfl]
              omega

/-! ## The variable -/

/-- A text that is read as a variable: a sigil and a name without white space, with three dots in
front of them for a variadic parameter. -/
inductive IsVariable : List Char → Prop
  | of_parts {dots name : List Char} {sigil : Char} (dots_eq : dots = [] ∨ dots = "...".toList)
      (sigil_eq : isSigil sigil = true) (ne_nil : name ≠ [])
      (bare : ∀ c ∈ name, isSpace c = false) : IsVariable (dots ++ sigil :: name)

/-- A sigil is not the first of three dots. -/
theorem startsWith_dots_of_sigil {c : Char} (h : isSigil c = true) (cs : List Char) :
    startsWith "..." (c :: cs) = false := by
  rw [Bool.eq_false_iff]
  intro hdots
  obtain ⟨rest, heq⟩ := startsWith_eq_true.1 hdots
  obtain rfl : c = '.' := (List.cons.inj heq).1
  cases h

/-- A variable in front of white space, or at the end of the text, is found with its length. -/
theorem varWidth?_complete (hx : IsVariable x)
    (hafter : ∀ c, after.head? = some c → isSpace c = true) :
    varWidth? (x ++ after) = some x.length := by
  obtain @⟨dots, name, sigil, hdots, hsigil, hne, hbare⟩ := hx
  have hlead : (if startsWith "..." (dots ++ sigil :: name ++ after) then 3 else 0) =
      dots.length := by
    rcases hdots with rfl | rfl
    · rw [if_neg]
      · rfl
      · simp [startsWith_dots_of_sigil hsigil]
    · rfl
  have hdrop : (dots ++ sigil :: name ++ after).drop dots.length = sigil :: (name ++ after) := by
    simp
  have hrun : ∀ c ∈ name, (!isSpace c) = true := fun c hc => by simp [hbare c hc]
  have hend : ∀ c, after.head? = some c → (!isSpace c) = false := fun c hc => by simp [hafter c hc]
  obtain ⟨htake, -⟩ := takeWhile_run hrun hend
  unfold varWidth?
  simp only [hlead, hdrop, htake]
  cases name with
  | nil => exact absurd rfl hne
  | cons c name =>
      simp only [hsigil, if_true, List.length_append, List.length_cons]
      congr 1
      omega

/-- What is found is a variable in front of white space or at the end of the text. -/
theorem varWidth?_sound {n : Nat} (h : varWidth? cs = some n) :
    ∃ x after, IsVariable x ∧ cs = x ++ after ∧ n = x.length ∧
      ∀ c, after.head? = some c → isSpace c = true := by
  obtain ⟨dots, body, hdots, rfl, hlead⟩ : ∃ dots body, (dots = [] ∨ dots = "...".toList) ∧
      cs = dots ++ body ∧ (if startsWith "..." cs then 3 else 0) = dots.length := by
    split
    · next hstart =>
        obtain ⟨body, hbody⟩ := startsWith_eq_true.1 hstart
        exact ⟨_, body, .inr rfl, hbody, rfl⟩
    · exact ⟨[], cs, .inl rfl, rfl, rfl⟩
  unfold varWidth? at h
  simp only [hlead, List.drop_left] at h
  split at h
  · next sigil rest =>
      split at h
      · cases h
      · next hne =>
          split at h
          · next hsigil =>
              cases h
              refine ⟨_, rest.dropWhile (!isSpace ·), .of_parts hdots hsigil hne
                fun c hc => by simpa using List.mem_takeWhile_imp hc, ?_, ?_, fun c hc => ?_⟩
              · rw [List.append_assoc, List.cons_append, List.takeWhile_append_dropWhile]
              · rw [List.length_append, List.length_cons]
                omega
              · simpa using head?_dropWhile_eq hc
          · cases h
  · cases h

/-! ## The parts of a value -/

/-- What a value is read into, with the text behind its type. -/
def ofParts (type : String) (rest : List Char) : ParamValue :=
  let tail := rest.dropWhile isSpace
  match varWidth? tail with
  | none => ⟨type, (rest.takeWhile isSpace).length, none, none⟩
  | some n =>
      ⟨type, (rest.takeWhile isSpace).length, some (String.ofList (tail.take n)),
        description? (tail.drop n)⟩

/-- Another type in front of the same rest has the same parts behind it. -/
theorem ofParts_type (type new : String) (rest : List Char) :
    ofParts new rest = { ofParts type rest with type := new } := by
  unfold ofParts
  simp only
  cases varWidth? (rest.dropWhile isSpace) with
  | none => rfl
  | some n => rfl

/-- The parts keep the type. -/
@[simp] theorem type_ofParts (type : String) (rest : List Char) :
    (ofParts type rest).type = type :=
  congrArg ParamValue.type (ofParts_type "" type rest)

/-- The text is the type and a rest, and the type ends where the rest starts. -/
structure Divides (text type : String) (rest : List Char) : Prop where
  whole : text.toList = type.toList ++ rest
  ne_nil : type.toList ≠ []
  width : typeWidth text.toList = type.toList.length

/-- A value that is divided behind its type is parsed into the parts of the rest. -/
theorem Divides.parse? {type : String} (h : Divides text type rest) :
    parse? text = some (ofParts type rest) := by
  obtain ⟨width, hwidth⟩ : ∃ width, type.toList.length = width + 1 :=
    Nat.exists_eq_succ_of_ne_zero (by simpa using h.ne_nil)
  have htake : text.toList.take (width + 1) = type.toList := by
    rw [← hwidth, h.whole, List.take_left]
  have hdrop : text.toList.drop (width + 1) = rest := by
    rw [← hwidth, h.whole, List.drop_left]
  unfold ParamValue.parse? ofParts
  simp only [h.width, hwidth, hdrop, htake, drop_length_takeWhile, String.ofList_toList]
  cases varWidth? (rest.dropWhile isSpace) with
  | none => rfl
  | some n => rfl

/-- A value that is parsed is divided behind its type. -/
theorem exists_divides (h : parse? text = some pv) :
    ∃ rest, Divides text pv.type rest ∧ pv = ofParts pv.type rest := by
  have hle := typeWidth_le text.toList
  have hne : typeWidth text.toList ≠ 0 := by
    intro hzero
    unfold parse? at h
    simp only [hzero] at h
    cases h
  have hdivides : Divides text (String.ofList (text.toList.take (typeWidth text.toList)))
      (text.toList.drop (typeWidth text.toList)) := by
    refine ⟨?_, ?_, ?_⟩
    · rw [String.toList_ofList, List.take_append_drop]
    · rw [String.toList_ofList, ← List.length_pos_iff, List.length_take]
      omega
    · rw [String.toList_ofList, List.length_take, Nat.min_eq_left hle]
  obtain rfl := Option.some.inj (h.symm.trans hdivides.parse?)
  rw [type_ofParts]
  exact ⟨_, hdivides, rfl⟩

/-- White space, a variable, and what follows the variable. -/
structure Spaced (rest space x after : List Char) : Prop where
  whole : rest = space ++ (x ++ after)
  spaces : ∀ c ∈ space, isSpace c = true
  isVariable : IsVariable x
  stop : ∀ c, after.head? = some c → isSpace c = true

/-- A variable starts with no white space. -/
theorem IsVariable.head (h : IsVariable x) (cs : List Char) :
    ∀ c, (x ++ cs).head? = some c → isSpace c = false := by
  obtain @⟨dots, name, sigil, hdots, hsigil, -, -⟩ := h
  intro c hc
  have hplain : isSpace '.' = false ∧ isSpace '$' = false ∧ isSpace '&' = false := by decide
  rcases hdots with rfl | rfl
  · obtain rfl : sigil = c := by simpa using hc
    rcases (by simpa [isSigil] using hsigil : sigil = '$' ∨ sigil = '&') with rfl | rfl
    · exact hplain.2.1
    · exact hplain.2.2
  · obtain rfl : '.' = c := by simpa using hc
    exact hplain.1

/-- A variable does not start with a slash. -/
theorem IsVariable.head?_ne (h : IsVariable x) : x.head? ≠ some '/' := by
  obtain @⟨dots, name, sigil, hdots, hsigil, -, -⟩ := h
  intro hhead
  rcases hdots with rfl | rfl
  · obtain rfl : sigil = '/' := by simpa using hhead
    cases hsigil
  · cases hhead

/-- White space, a variable and what follows give the parts of a value. -/
theorem Spaced.ofParts {space : List Char} (h : Spaced rest space x after) (type : String) :
    ofParts type rest = ⟨type, space.length, some (String.ofList x), description? after⟩ := by
  obtain ⟨hspace, htail⟩ := takeWhile_run h.spaces (h.isVariable.head after)
  have hvar := varWidth?_complete h.isVariable h.stop
  unfold ParamValue.ofParts
  simp only [h.whole, hspace, htail, hvar, List.take_left, List.drop_left]

/-- A value with a variable has white space in front of it and a rest behind it. -/
theorem exists_spaced {type : String} (h : (ofParts type rest).var.isSome = true) :
    ∃ space x after, Spaced rest space x after := by
  unfold ofParts at h
  simp only at h
  split at h
  · cases h
  · next n hn =>
      obtain ⟨x, after, hx, htail, -, hstop⟩ := varWidth?_sound hn
      refine ⟨rest.takeWhile isSpace, x, after, ?_, fun c => List.mem_takeWhile_imp, hx, hstop⟩
      rw [← htail, List.takeWhile_append_dropWhile]

/-- The name in a value does not start with a slash. -/
theorem head?_var {y : String} (h : parse? text = some pv) (hy : pv.var = some y) :
    y.toList.head? ≠ some '/' := by
  obtain ⟨rest, -, hpv⟩ := exists_divides h
  have hvar : pv.var.isSome = true := by
    rw [hy]
    rfl
  obtain ⟨space, x, after, hspaced⟩ := exists_spaced (hpv ▸ hvar)
  rw [hpv, hspaced.ofParts] at hy
  obtain rfl : String.ofList x = y := Option.some.inj hy
  rw [String.toList_ofList]
  exact hspaced.isVariable.head?_ne

/-! ## Other white space between the parts -/

/-- The value with other white space between its parts. -/
def respaced (pv : ParamValue) (typeSpace varSpace : Nat) : ParamValue :=
  { pv with typeSpace, description := pv.description.map ({ · with space := varSpace }) }

/-- Spaces are white space. -/
theorem isSpace_of_mem_spaces {n : Nat} {c : Char} (h : c ∈ (spaces n).toList) :
    isSpace c = true := by
  rw [spaces, String.toList_ofList] at h
  rw [List.eq_of_mem_replicate h]
  decide

/-- One more space stands in front of the others. -/
theorem toList_spaces_succ (n : Nat) : (spaces (n + 1)).toList = ' ' :: (spaces n).toList := by
  rw [spaces, spaces, String.toList_ofList, String.toList_ofList, List.replicate_succ]

/-- White space holds no parenthesis. -/
theorem find?_isParen_of_space {space : List Char} (h : ∀ c ∈ space, isSpace c = true) :
    space.find? isParen = none := by
  refine List.find?_eq_none.2 fun c hc hparen => ?_
  rcases (by simpa [isParen] using hparen : c = '(' ∨ c = ')') with rfl | rfl
  · exact absurd (h _ hc) (by decide)
  · exact absurd (h _ hc) (by decide)

/-- The description stands behind white space and goes up to the end of the line. -/
theorem exists_of_description? {d : ParamText} (h : description? cs = some d) :
    ∃ space trail, cs = space ++ (d.text.toList ++ trail) ∧ (∀ c ∈ space, isSpace c = true) ∧
      (∀ c, d.text.toList.head? = some c → isSpace c = false) ∧ '\n' ∉ d.text.toList := by
  obtain ⟨-, rfl⟩ := description?_eq_some.1 h
  refine ⟨cs.takeWhile isSpace, (cs.dropWhile isSpace).dropWhile (· != '\n'), ?_,
    fun c hc => List.mem_takeWhile_imp hc, fun c hc => ?_, fun hmem => ?_⟩
  · rw [String.toList_ofList, List.takeWhile_append_dropWhile, List.takeWhile_append_dropWhile]
  · rw [String.toList_ofList, List.head?_takeWhile, Option.filter_eq_some_iff] at hc
    exact head?_dropWhile_eq hc.1
  · rw [String.toList_ofList] at hmem
    simpa using List.mem_takeWhile_imp hmem

/-- A line behind spaces is a description. -/
theorem description?_spaces {line : String} {n : Nat} (hn : n ≠ 0)
    (hhead : ∀ c, line.toList.head? = some c → isSpace c = false) (hline : '\n' ∉ line.toList) :
    description? ((spaces n).toList ++ line.toList) = some ⟨n, line⟩ := by
  obtain ⟨htake, hdrop⟩ := takeWhile_run (fun c => isSpace_of_mem_spaces (n := n)) hhead
  have hwhole : line.toList.takeWhile (· != '\n') = line.toList :=
    List.takeWhile_eq_self_iff.2 fun c hc => by
      have hne : c ≠ '\n' := fun heq => hline (heq ▸ hc)
      simpa using hne
  refine description?_eq_some.2 ⟨?_, ?_⟩
  · rw [htake]
    exact fun hnil => hn (by rw [← length_spaces n, ← String.length_toList, hnil, List.length_nil])
  · rw [htake, hdrop, hwhole, String.ofList_toList, String.length_toList, length_spaces]

/-- Dots that a text and one without a dot in front make are in the first. -/
theorem startsWith_dots_of_append (h : rest.head? ≠ some '.')
    (hdots : startsWith "..." (cs ++ rest) = true) : startsWith "..." cs = true := by
  obtain ⟨tail, htail⟩ := startsWith_eq_true.1 hdots
  rcases List.append_eq_append_iff.1 htail with ⟨front, hfront, rfl⟩ | ⟨left, rfl, -⟩
  · cases front with
    | nil => exact startsWith_eq_true.2 ⟨[], by simpa using hfront.symm⟩
    | cons c front =>
        have hmem : c ∈ "...".toList := by rw [hfront]; simp
        obtain rfl : c = '.' := by simpa using hmem
        exact absurd rfl h
  · exact startsWith_eq_true.2 ⟨left, rfl⟩

/-- What a text starts with does not depend on what is put behind it. -/
theorem startsWith_append {lead : String} (h : startsWith lead cs = true) (rest : List Char) :
    startsWith lead (cs ++ rest) = true := by
  obtain ⟨tail, rfl⟩ := startsWith_eq_true.1 h
  exact startsWith_eq_true.2 ⟨tail ++ rest, by simp⟩

/-- A variable has a sigil and at least one further character. -/
theorem IsVariable.two_le_length (h : IsVariable x) : 2 ≤ x.length := by
  obtain @⟨dots, name, sigil, -, -, hname, -⟩ := h
  have hpos := List.length_pos_iff.2 hname
  rw [List.length_append, List.length_cons]
  omega

/-- A type stops in front of a variable. -/
theorem IsVariable.stops (h : IsVariable x) (cs : List Char) : Stops (x ++ cs) := by
  obtain @⟨dots, name, sigil, hdots, hsigil, -, -⟩ := h
  rcases hdots with rfl | rfl
  · refine .inr fun c hc => .inr ?_
    obtain rfl : sigil = c := by simpa using hc
    exact hsigil
  · exact .inl (startsWith_append (startsWith_append rfl _) cs)

/-- Other white space in front of a variable, and other text behind it, move no boundary of the
type. -/
theorem replaces_spaces {space tail : List Char} (hspace : ∀ c ∈ space, isSpace c = true)
    (hx : IsVariable x) {n : Nat} (hn : n = 0 → space = [])
    (htail : tail.find? isParen = some ')' → after.find? isParen = some ')') :
    Replaces (space ++ (x ++ after)) ((spaces n).toList ++ (x ++ tail)) := by
  refine ⟨?stops, ?dots, ?closes⟩
  case stops =>
    cases n with
    | zero => exact hx.stops tail
    | succ n =>
        rw [toList_spaces_succ]
        refine .inr fun c hc => .inl ?_
        obtain rfl : ' ' = c := by simpa using hc
        decide
  case dots =>
    intro cs hcs hdots
    cases n with
    | zero =>
        -- the text and the variable are longer than the dots
        have hlen : "...".toList.length ≤ (cs ++ x).length := by
          have hpos := List.length_pos_iff.2 hcs
          have htwo := hx.two_le_length
          have hthree : "...".toList.length = 3 := rfl
          rw [List.length_append]
          omega
        rw [hn rfl, List.nil_append, ← List.append_assoc]
        refine startsWith_append ?_ after
        rw [startsWith, ← isPrefixOf_append hlen tail, List.append_assoc]
        exact hdots
    | succ n =>
        rw [toList_spaces_succ] at hdots
        exact startsWith_append (startsWith_dots_of_append (by simp) hdots) _
  case closes =>
    intro hclose
    have hblank := find?_isParen_of_space fun c => isSpace_of_mem_spaces (n := n)
    rw [List.find?_append, List.find?_append, hblank, Option.none_or] at hclose
    rw [List.find?_append, List.find?_append, find?_isParen_of_space hspace, Option.none_or]
    rcases Option.or_eq_some_iff.1 hclose with hparen | ⟨hparen, hclose⟩
    · rw [hparen, Option.some_or]
    · rw [hparen, Option.none_or, htail hclose]

/-- Behind other white space the description is the same. -/
theorem description?_respaced {d : Option ParamText} (h : d = description? after) {m : Nat}
    (hm : m = 0 ↔ d = none) {tail : List Char}
    (htail : tail = (spaces m).toList ++ (d.elim "" (·.text)).toList) :
    description? tail = d.map ({ · with space := m }) ∧
      (∀ c, tail.head? = some c → isSpace c = true) ∧
      (tail.find? isParen = some ')' → after.find? isParen = some ')') := by
  cases d with
  | none =>
      obtain rfl : m = 0 := hm.2 rfl
      obtain rfl : tail = [] := htail
      exact ⟨rfl, by simp, by simp⟩
  | some d =>
      obtain ⟨n, rfl⟩ := Nat.exists_eq_succ_of_ne_zero (mt hm.1 (by simp))
      obtain ⟨space, trail, rfl, hspace, hhead, hline⟩ := exists_of_description? h.symm
      rw [Option.elim_some] at htail
      subst htail
      refine ⟨description?_spaces n.succ_ne_zero hhead hline, fun c hc => ?_, fun hclose => ?_⟩
      · rw [toList_spaces_succ] at hc
        obtain rfl : ' ' = c := by simpa using hc
        decide
      · rw [List.find?_append, find?_isParen_of_space fun c => isSpace_of_mem_spaces,
          Option.none_or] at hclose
        rw [List.find?_append, find?_isParen_of_space hspace, Option.none_or, List.find?_append,
          hclose, Option.some_or]

/-- The value with other spacing is read into the same parts, with that spacing between them. -/
theorem parse?_render {p : ParamTag} (hp : p.value = some pv) (h : parse? text = some pv)
    (hvar : pv.var.isSome = true) {n m : Nat} (hn : n = 0 → pv.typeSpace = 0)
    (hm : m = 0 ↔ pv.description = none) :
    parse? (p.render p.type n m) = some (pv.respaced n m) := by
  obtain ⟨rest, hdivides, hpv⟩ := exists_divides h
  obtain ⟨space, x, after, hspaced⟩ := exists_spaced (hpv ▸ hvar)
  rw [hspaced.ofParts] at hpv
  have hdescription : pv.description = description? after := by rw [hpv]
  obtain ⟨hrespaced, hstop, hclose⟩ := description?_respaced hdescription hm rfl
  have hrender : (p.render p.type n m).toList = pv.type.toList ++ ((spaces n).toList ++
      (x ++ ((spaces m).toList ++ (pv.description.elim "" (·.text)).toList))) := by
    have hx : pv.var = some (String.ofList x) := by rw [hpv]
    simp [ParamTag.render, ParamTag.type, ParamTag.var, ParamTag.firstLine, ParamTag.description,
      hp, hx]
  have hreplaces := replaces_spaces hspaced.spaces hspaced.isVariable (n := n) (fun hzero => by
    rw [← List.length_eq_zero_iff, ← hn hzero, hpv]) hclose
  have hwidth : typeWidth (p.render p.type n m).toList = pv.type.toList.length := by
    rw [hrender]
    refine typeWidth_replace hreplaces ?_
    rw [← hspaced.whole, ← hdivides.whole, hdivides.width]
  have hnew : Spaced _ (spaces n).toList x _ :=
    ⟨rfl, fun c => isSpace_of_mem_spaces, hspaced.isVariable, hstop⟩
  rw [Divides.parse? ⟨hrender, hdivides.ne_nil, hwidth⟩, hnew.ofParts, hrespaced,
    String.length_toList, length_spaces, hpv]
  rfl

end PhpDoc.ParamValue
