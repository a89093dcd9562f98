import PhpDoc.Proofs.Declaration.Parameter

/-!
# Attributes in front of parameters

An attribute group is balanced, so it leaves the parameter list cut where it was and only goes into
the part of the parameter in front of which it stands (`parts_group`). But the reader of a part does
not pass over a group: it takes the group for a piece of the declaration. A group without a variable
and an equals sign keeps the name and the default value, and what it holds of types and flags is
added to those of the parameter (`ofPart?_append`). With an equals sign in the group there is no
parameter (`ofPart?_of_equal`), and a variable in the group is taken for the name
(`ofPart?_of_variable`). So the parameters stay what they are exactly when the group adds nothing to
the one behind it (`Stream.parameters_eq_iff_of_group`), and an attribute with a name adds that name
to its type (`Stream.parameters_ne_of_group`).
-/

namespace PhpDoc

/-- The text of tokens in a row is that of the first ones followed by that of the others. -/
@[simp] theorem Token.textOf_append (ts us : List Token) :
    Token.textOf (ts ++ us) = Token.textOf ts ++ Token.textOf us := by
  rw [← String.toList_inj]
  simp [Token.textOf, String.toList_join]

/-- An attribute group: its mark and a balanced word in square brackets. -/
inductive Token.IsGroup : List Token → Prop
  | mk {mark opener closer : Token} {inner : List Token} {ps : List (Nat × Nat)} :
      mark.kind = .attributeMark → opener.kind = .openSquare → closer.kind = .closeSquare →
      Balanced inner ps → IsGroup (mark :: opener :: (inner ++ [closer]))

namespace Parameter

open Token

variable {group before after xs ys part : List Token} {rest : List (List Token)}
variable {ps : List (Nat × Nat)} {p : Parameter} {t : Token} {depth : Int}

/-! ## The cutting -/

/-- Inside of brackets a balanced word is not cut, and the depth behind it is the one in front. -/
theorem parts_balanced (h : Balanced xs ps) (hdepth : 0 < depth)
    (hparts : parts depth ys = part :: rest) : parts depth (xs ++ ys) = (xs ++ part) :: rest := by
  induction h generalizing depth ys part rest with
  | nil => exact hparts
  | @skip t ts ps hopens hcloses _ ih =>
      refine parts_cons_of_uncut (fun _ => by omega) ?_
      rw [depthChange_of_neutral hopens hcloses, Int.add_zero]
      exact ih hdepth hparts
  | @pair o c inner back ps qs shape hopens hcloses _ _ ihinner ihback =>
      have hback : parts depth (back ++ ys) = (back ++ part) :: rest := ihback hdepth hparts
      have hclose : parts (depth + 1) (c :: (back ++ ys)) = (c :: (back ++ part)) :: rest := by
        refine parts_cons_of_uncut (fun _ => by omega) ?_
        rwa [depthChange_of_closes hcloses, Int.add_neg_cancel_right]
      have hinner := ihinner (show 0 < depth + 1 by omega) hclose
      have hopen : parts depth (o :: (inner ++ c :: (back ++ ys))) =
          (o :: (inner ++ c :: (back ++ part))) :: rest := by
        refine parts_cons_of_uncut (fun _ => by omega) ?_
        rwa [depthChange_of_opens hopens]
      simpa using hopen

/-- A group at depth zero goes into the first part. -/
theorem parts_group (h : IsGroup group) (hparts : parts 0 ys = part :: rest) :
    parts 0 (group ++ ys) = (group ++ part) :: rest := by
  obtain @⟨mark, opener, closer, inner, _, hmark, hopener, hcloser, hinner⟩ := h
  have hclose : parts 1 (closer :: ys) = (closer :: part) :: rest := by
    refine parts_cons_of_uncut (fun _ => by omega) ?_
    rwa [hcloser]
  have hopen : parts 0 (opener :: (inner ++ closer :: ys)) =
      (opener :: (inner ++ closer :: part)) :: rest := by
    refine parts_cons_of_uncut (by simp [hopener]) ?_
    rw [hopener]
    exact parts_balanced hinner Int.one_pos hclose
  have hgroup : parts 0 (mark :: opener :: (inner ++ closer :: ys)) =
      (mark :: opener :: (inner ++ closer :: part)) :: rest := by
    refine parts_cons_of_uncut (by simp [hmark]) ?_
    rwa [hmark]
  simpa using hgroup

/-- A parameter starts behind the tokens: what follows them is cut on its own. That is so at the
front of a parameter list (`starts_nil`) and behind a comma at depth zero (`starts_comma`). -/
def Starts (before : List Token) : Prop :=
  ∃ first, ∀ after, parts 0 (before ++ after) = first ++ parts 0 after

/-- A parameter starts in front of all tokens. -/
theorem starts_nil : Starts [] :=
  ⟨[], fun _ => rfl⟩

/-- A parameter starts behind a comma at depth zero. -/
theorem starts_comma (hdepth : depthOf xs = 0) (hcomma : t.kind = .comma) :
    Starts (xs ++ [t]) := by
  obtain ⟨front, last, hparts⟩ := exists_parts_append 0 xs
  refine ⟨front ++ [last], fun after => ?_⟩
  have hcut : parts (0 + depthOf xs) (t :: after) = [] :: parts 0 after := by
    simp [hdepth, parts, hcomma]
  rw [List.append_assoc, List.singleton_append, hparts _ _ _ hcut]
  simp

/-! ## The reading -/

/-- The parameter with what tokens in front of it add to its type and its flags. -/
def annotate (xs : List Token) (p : Parameter) : Parameter :=
  { p with
    type := Token.textOf (xs.filter isTypePart) ++ p.type
    variadic := xs.any (·.kind == .ellipsis) || p.variadic
    byReference := xs.any (·.kind == .ampersand) || p.byReference }

/-- Tokens without a variable and an equals sign leave the parameter its name and its default value,
and add what they hold to its type and its flags. -/
theorem ofPart?_append (h : ∀ t ∈ xs, t.kind ≠ .variable ∧ t.kind ≠ .equal) (part : List Token) :
    ofPart? (xs ++ part) = (ofPart? part).map (annotate xs) := by
  have hvariable : ∀ t ∈ xs, (t.kind != .variable) = true := fun t ht => by simpa using (h t ht).1
  have hequal : ∀ t ∈ xs, (t.kind != .equal) = true := fun t ht => by simpa using (h t ht).2
  have hdefault : default? (xs ++ part) = default? part := by
    rw [default?, default?, List.dropWhile_append_of_pos hequal]
  unfold ofPart?
  rw [hdefault, List.takeWhile_append_of_pos hequal]
  simp only [List.dropWhile_append_of_pos hvariable, List.takeWhile_append_of_pos hvariable]
  split
  · rfl
  · simp [annotate, Token.textOf_append]

/-- There is no parameter when an equals sign stands in front of the first variable. -/
theorem ofPart?_of_equal {lead : List Token} {sign : Token}
    (hlead : ∀ t ∈ lead, t.kind ≠ .variable) (hsign : sign.kind = .equal) :
    ofPart? (lead ++ sign :: ys) = none := by
  have hnone : (lead.takeWhile (·.kind != .equal)).dropWhile (·.kind != .variable) = [] := by
    rw [List.dropWhile_eq_nil_iff]
    intro t ht
    simpa using hlead t (List.takeWhile_subset _ ht)
  unfold ofPart?
  simp only [takeWhile_append_sign lead hsign, hnone]

/-- The first variable with no equals sign in front of it is the name, wherever it stands. -/
theorem ofPart?_of_variable {lead : List Token} {found : Token}
    (hlead : ∀ t ∈ lead, t.kind ≠ .variable ∧ t.kind ≠ .equal) (hfound : found.kind = .variable) :
    ofPart? (lead ++ found :: ys) =
      some (annotate lead ⟨found.text, "", false, false, default? ys⟩) := by
  have hname : ofPart? (found :: ys) = some ⟨found.text, "", false, false, default? ys⟩ := by
    simp [ofPart?, default?, hfound, Token.textOf]
  rw [ofPart?_append hlead, hname, Option.map_some]

/-! ## Groups -/

/-- A parameter stays what it is exactly when the tokens add neither a part of a type nor a flag
that it does not have. -/
theorem annotate_eq_iff : annotate xs p = p ↔
    Token.textOf (xs.filter isTypePart) = "" ∧
      (p.variadic = false → xs.any (·.kind == .ellipsis) = false) ∧
      (p.byReference = false → xs.any (·.kind == .ampersand) = false) := by
  have htype : Token.textOf (xs.filter isTypePart) ++ p.type = p.type ↔
      Token.textOf (xs.filter isTypePart) = "" := by
    rw [← String.toList_inj, String.toList_append, List.append_left_eq_self,
      String.toList_eq_nil_iff]
  have hflag (a b : Bool) : (a || b) = b ↔ (b = false → a = false) := by
    cases a <;> cases b <;> simp
  cases p with
  | mk name type variadic byReference default =>
      simp only [annotate, Parameter.mk.injEq, true_and, and_true, hflag] at htype ⊢
      rw [htype]

/-- A name in front of a parameter changes its type. -/
theorem annotate_ne_of_name (ht : t ∈ xs) (hname : t.kind = .name) (htext : t.text ≠ "") :
    annotate xs p ≠ p := by
  intro heq
  have hempty := (annotate_eq_iff.1 heq).1
  have hmem : t ∈ xs.filter isTypePart := List.mem_filter.2 ⟨ht, by simp [isTypePart, hname]⟩
  rw [← String.toList_eq_nil_iff, Token.textOf, String.toList_join,
    List.flatMap_eq_nil_iff] at hempty
  have hnil := hempty t.text (List.mem_map_of_mem hmem)
  exact htext (String.toList_eq_nil_iff.1 hnil)

/-- The parameters of parts are those of the first part and those of the others. -/
theorem filterMap_cons_toList (part : List Token) (rest : List (List Token)) :
    (part :: rest).filterMap ofPart? = (ofPart? part).toList ++ rest.filterMap ofPart? := by
  rw [List.filterMap_cons]
  cases ofPart? part with
  | none => rfl
  | some p => rfl

/-- The parameter of the first part of a parameter list, if that part declares one. -/
def next? (after : List Token) : Option Parameter :=
  ofPart? ((parts 0 after).headD [])

/-- With a group in front of it a parameter is read with what the group adds, and all other
parameters are read as they are without the group. -/
theorem exists_parameters_group (hbefore : Starts before) (hgroup : IsGroup group)
    (hplain : ∀ t ∈ group, t.kind ≠ .variable ∧ t.kind ≠ .equal) (after : List Token) :
    ∃ first others,
      (parts 0 (before ++ after)).filterMap ofPart? =
        first ++ ((next? after).toList ++ others) ∧
      (parts 0 (before ++ (group ++ after))).filterMap ofPart? =
        first ++ (((next? after).map (annotate group)).toList ++ others) := by
  obtain ⟨first, hfirst⟩ := hbefore
  obtain ⟨part, rest, hafter⟩ := List.exists_cons_of_ne_nil (parts_ne_nil 0 after)
  have hnext : next? after = ofPart? part := by
    rw [next?, hafter]
    rfl
  refine ⟨first.filterMap ofPart?, rest.filterMap ofPart?, ?_, ?_⟩
  · rw [hfirst, hafter, List.filterMap_append, filterMap_cons_toList, hnext]
  · rw [hfirst, parts_group hgroup hafter, List.filterMap_append, filterMap_cons_toList,
      ofPart?_append hplain, hnext]

/-! ## Places -/

/-- The token without its place. -/
def unplaced (t : Token) : Token :=
  ⟨t.kind, t.text, 0, 0, 0⟩

/-- Without its place a token keeps its kind. -/
@[simp] theorem kind_unplaced (t : Token) : (unplaced t).kind = t.kind := rfl

/-- Without its place a token keeps its text. -/
@[simp] theorem text_unplaced (t : Token) : (unplaced t).text = t.text := rfl

/-- Whether a token is part of a type does not depend on its place. -/
@[simp] theorem isTypePart_unplaced (t : Token) : isTypePart (unplaced t) = isTypePart t := rfl

/-- The text of tokens does not depend on their places. -/
@[simp] theorem textOf_unplaced (ts : List Token) :
    Token.textOf (ts.map unplaced) = Token.textOf ts := by
  rw [Token.textOf, List.map_map]
  rfl

/-- Where tokens are cut into parts does not depend on their places. -/
theorem parts_unplaced (depth : Int) (ts : List Token) :
    parts depth (ts.map unplaced) = (parts depth ts).map (·.map unplaced) := by
  fun_induction parts depth ts with
  | case1 => rfl
  | case2 depth t ts hcut ih =>
      rw [List.map_cons, parts, kind_unplaced, if_pos hcut, ih, List.map_cons, List.map_nil]
  | case3 depth t ts hcut hparts ih => exact absurd hparts (parts_ne_nil _ ts)
  | case4 depth t ts hcut part rest hparts ih =>
      rw [hparts] at ih
      rw [List.map_cons, parts, kind_unplaced, if_neg hcut, ih]
      rfl

/-- The default value in a part does not depend on the places of its tokens. -/
theorem default?_unplaced (part : List Token) : default? (part.map unplaced) = default? part := by
  rw [default?, default?, List.dropWhile_map]
  simp only [Function.comp_def, kind_unplaced]
  cases part.dropWhile (·.kind != .equal) with
  | nil => rfl
  | cons sign value => simp

/-- The place of a token does not matter to a parameter. -/
theorem ofPart?_unplaced (part : List Token) : ofPart? (part.map unplaced) = ofPart? part := by
  rw [ofPart?, ofPart?, default?_unplaced]
  simp only [List.takeWhile_map, List.dropWhile_map, List.filter_map, List.any_map, textOf_unplaced,
    Function.comp_def, kind_unplaced, isTypePart_unplaced]
  cases (part.takeWhile (·.kind != .equal)).dropWhile (·.kind != .variable) with
  | nil => rfl
  | cons found rest => rfl

/-- Tokens that differ in their places alone declare the same parameters. -/
theorem filterMap_parts_of_unplaced (h : xs.map unplaced = ys.map unplaced) :
    (parts 0 xs).filterMap ofPart? = (parts 0 ys).filterMap ofPart? := by
  have hparts (ts : List Token) : (parts 0 (ts.map unplaced)).filterMap ofPart? =
      (parts 0 ts).filterMap ofPart? := by
    rw [parts_unplaced, List.filterMap_map]
    simp only [Function.comp_def, ofPart?_unplaced]
  rw [← hparts xs, h, hparts]

end Parameter

namespace Stream

open Token Parameter

variable {s s' : Stream} {i i' o o' c c' : Nat} {before group after : List Token}

/-- The declaration at index `i` has parentheses, with these tokens between them. -/
def Holds (s : Stream) (i : Nat) (inside : List Token) : Prop :=
  ∃ o c, (s.scope i).parenOpener = some o ∧ (s.scope i).parenCloser = some c ∧
    (s.between (o + 1) c).map unplaced = inside.map unplaced

/-- The parameters of a declaration are read from the tokens between its parentheses. -/
theorem Holds.parameters_eq {inside : List Token} (h : s.Holds i inside) :
    s.parameters i = (parts 0 inside).filterMap ofPart? := by
  obtain ⟨o, c, hopener, hcloser, hinside⟩ := h
  rw [parameters, hopener, hcloser]
  exact filterMap_parts_of_unplaced hinside

/-- The parameters of two declarations, of which the second has a group in front of one parameter:
this one is read with what the group adds, and all others are read alike. -/
theorem exists_parameters_of_group (hwithout : s.Holds i (before ++ after))
    (hwith : s'.Holds i' (before ++ (group ++ after))) (hbefore : Starts before)
    (hgroup : IsGroup group) (hplain : ∀ t ∈ group, t.kind ≠ .variable ∧ t.kind ≠ .equal) :
    ∃ first others, s.parameters i = first ++ ((next? after).toList ++ others) ∧
      s'.parameters i' = first ++ (((next? after).map (annotate group)).toList ++ others) := by
  rw [hwithout.parameters_eq, hwith.parameters_eq]
  exact exists_parameters_group hbefore hgroup hplain after

/-- The group leaves the parameters as they are exactly when it adds nothing to the one behind
it. -/
theorem parameters_eq_iff_of_group (hwithout : s.Holds i (before ++ after))
    (hwith : s'.Holds i' (before ++ (group ++ after))) (hbefore : Starts before)
    (hgroup : IsGroup group) (hplain : ∀ t ∈ group, t.kind ≠ .variable ∧ t.kind ≠ .equal) :
    s'.parameters i' = s.parameters i ↔ ∀ p, next? after = some p → annotate group p = p := by
  obtain ⟨first, others, hs, hs'⟩ :=
    exists_parameters_of_group hwithout hwith hbefore hgroup hplain
  rw [hs, hs', List.append_cancel_left_eq, List.append_cancel_right_eq]
  cases next? after with
  | none => simp
  | some p => simp

/-- An attribute with a name changes the parameters of the declaration. -/
theorem parameters_ne_of_group (hwithout : s.Holds i (before ++ after))
    (hwith : s'.Holds i' (before ++ (group ++ after))) (hbefore : Starts before)
    (hgroup : IsGroup group) (hplain : ∀ t ∈ group, t.kind ≠ .variable ∧ t.kind ≠ .equal)
    (hname : ∃ t ∈ group, t.kind = .name ∧ t.text ≠ "") (hnext : (next? after).isSome = true) :
    s'.parameters i' ≠ s.parameters i := by
  obtain ⟨t, ht, hkind, htext⟩ := hname
  obtain ⟨p, hp⟩ := Option.isSome_iff_exists.1 hnext
  intro heq
  have hkept :=
    (parameters_eq_iff_of_group hwithout hwith hbefore hgroup hplain).1 heq p hp
  exact annotate_ne_of_name ht hkind htext hkept

example :
    let s := ofTokens (place 0 Position.start [⟨.function, "function"⟩, ⟨.name, "f"⟩,
      ⟨.openParenthesis, "("⟩, ⟨.attributeMark, "#"⟩, ⟨.openSquare, "["⟩, ⟨.name, "A"⟩,
      ⟨.closeSquare, "]"⟩, ⟨.whitespace, " "⟩, ⟨.name, "int"⟩, ⟨.whitespace, " "⟩,
      ⟨.variable, "$x"⟩, ⟨.closeParenthesis, ")"⟩])
    s.parameters 0 = [⟨"$x", "Aint", false, false, none⟩] := by
  rfl

end Stream

end PhpDoc
