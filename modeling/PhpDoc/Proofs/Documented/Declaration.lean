import PhpDoc.Declaration.Function
import PhpDoc.Proofs.Declaration.Parameter
import PhpDoc.Proofs.Documented.Text
import PhpDoc.Proofs.Token.Neighbour
import PhpDoc.Proofs.Token.Partner

/-!
# The declaration of a documented function

How a function is read whose parameter list and body are the only brackets of the source text: its
scope, its parameters, and that it is never left (`Stream.Declares.function_eq`,
`Stream.Declares.firstExit_eq`).
-/

namespace PhpDoc

open Text Lexer Documented

variable {s : Stream} {before after : List Token} {ts xs : List Token} {t : Token}

/-- The token neither opens nor closes a bracket. -/
def Token.Neutral (t : Token) : Prop :=
  t.kind.opens? = none ∧ t.kind.closes? = none

/-- Tokens that are no brackets do not disturb the balance of those behind them. -/
theorem Token.Balanced.skips {ps : List (Nat × Nat)} (h : Balanced ts ps)
    (hxs : ∀ t ∈ xs, t.Neutral) : Balanced (xs ++ ts) ps := by
  induction xs with
  | nil => exact h
  | cons x xs ih =>
      obtain ⟨⟨hopens, hcloses⟩, hrest⟩ := List.forall_mem_cons.1 hxs
      exact .skip hopens hcloses (ih hrest)

/-! ## Scopes -/

namespace Scope

variable {partner : Nat → Option Nat} {resume : Nat}

/-- The scope of a function stands in the scan of the tokens around it. -/
theorem mem_scan_of_append (ht : t.kind.isFunctionLike = true) :
    (t.index, ofFunction partner after) ∈ scan partner (before ++ t :: after) := by
  induction before with
  | nil =>
      rw [List.nil_append, scan, if_pos ht]
      exact List.mem_cons_self
  | cons u before ih =>
      rw [List.cons_append, scan]
      split
      · exact List.mem_cons_of_mem _ ih
      · split
        · exact List.mem_cons_of_mem _ ih
        · exact ih

/-- What stands in front of the place where the search resumes is passed over. -/
theorem functionBody?_append (h : ∀ t ∈ xs, t.index < resume) :
    functionBody? partner resume (xs ++ ts) = functionBody? partner resume ts := by
  induction xs with
  | nil => rfl
  | cons x xs ih =>
      obtain ⟨hx, hxs⟩ := List.forall_mem_cons.1 h
      rw [List.cons_append, functionBody?, if_pos hx, ih hxs]

end Scope

/-- The scope of a function of a stream. -/
theorem Stream.scope_of_append (h : Token.Numbered (before ++ t :: after))
    (ht : t.kind.isFunctionLike = true) :
    (ofTokens (before ++ t :: after)).scope t.index =
      Scope.ofFunction (ofTokens (before ++ t :: after)).partner? after := by
  have hmem : (t.index, Scope.ofFunction (ofTokens (before ++ t :: after)).partner? after) ∈
      Scope.scan (ofTokens (before ++ t :: after)).partner? (before ++ t :: after) :=
    Scope.mem_scan_of_append ht
  have hlookup := lookup_of_mem (pairwise_scopes h.pairwise) hmem
  unfold Stream.scope
  show ((Scope.scan (ofTokens (before ++ t :: after)).partner? _).lookup t.index).getD _ = _
  rw [hlookup]
  rfl

/-! ## Parameters -/

/-- The declared parameter. -/
def ParamDoc.parameter (d : ParamDoc) : Parameter :=
  ⟨d.var, d.type, false, false, none⟩

namespace Parameter

/-- A space in front of a part declares nothing. -/
theorem ofPart?_space (ht : t.lexeme = ⟨.whitespace, " "⟩) : ofPart? (t :: ts) = ofPart? ts := by
  have hkind : t.kind = .whitespace := congrArg Lexeme.kind ht
  have htext : t.text = " " := congrArg Lexeme.text ht
  have htype : isTypePart t = false := by simp [isTypePart, hkind, htext]
  simp [ofPart?, default?, hkind, htype]
  rfl

/-- A space in front of a list of parts declares nothing. -/
theorem filterMap_parts_space (ht : t.lexeme = ⟨.whitespace, " "⟩) :
    (parts 0 (t :: ts)).filterMap ofPart? = (parts 0 ts).filterMap ofPart? := by
  have hkind : t.kind = .whitespace := congrArg Lexeme.kind ht
  obtain ⟨part, rest, hparts⟩ := List.exists_cons_of_ne_nil (parts_ne_nil 0 ts)
  have hstep : parts 0 (t :: ts) = (t :: part) :: rest := by
    rw [parts]
    simp [hkind, depthChange, Kind.opens?, Kind.closes?, hparts]
  rw [hstep, hparts, List.filterMap_cons, List.filterMap_cons, ofPart?_space ht]

/-- Tokens without a comma or a bracket stay in one part. -/
theorem parts_append (hxs : ∀ t ∈ xs, t.kind ≠ .comma ∧ depthChange t.kind = 0) {part : List Token}
    {rest : List (List Token)} (h : parts 0 ts = part :: rest) :
    parts 0 (xs ++ ts) = (xs ++ part) :: rest := by
  have hdepth : depthOf xs = 0 := by
    clear h
    induction xs with
    | nil => rfl
    | cons x xs ih =>
        obtain ⟨hx, hxs⟩ := List.forall_mem_cons.1 hxs
        rw [depthOf_cons, hx.2, ih hxs, Int.add_zero]
  refine parts_append_of_uncut (fun front t back heq hcomma => ?_) (by rwa [hdepth])
  exact absurd hcomma (hxs t (by simp [heq])).1

/-- A documented parameter is declared by its pieces. -/
theorem ofPart?_paramPieces {d : ParamDoc} (h : ts.map Token.lexeme = lexemesOf (paramPieces d)) :
    ofPart? ts = some d.parameter ∧ ∀ t ∈ ts, t.kind ≠ .comma ∧ depthChange t.kind = 0 := by
  obtain ⟨type, rest, rfl, htype, hrest⟩ := List.map_eq_cons_iff.1 h
  obtain ⟨space, rest, rfl, hspace, hrest⟩ := List.map_eq_cons_iff.1 hrest
  obtain ⟨name, rest, rfl, hname, hrest⟩ := List.map_eq_cons_iff.1 hrest
  obtain rfl := List.map_eq_nil_iff.1 hrest
  have htypeKind : type.kind = .name := congrArg Lexeme.kind htype
  have htypeText : type.text = d.type := congrArg Lexeme.text htype
  have hspaceKind : space.kind = .whitespace := congrArg Lexeme.kind hspace
  have hspaceText : space.text = " " := congrArg Lexeme.text hspace
  have hnameKind : name.kind = .variable := congrArg Lexeme.kind hname
  have hnameText : name.text = d.var := congrArg Lexeme.text hname
  constructor
  · simp [ofPart?, default?, isTypePart, htypeKind, hspaceKind, hnameKind, htypeText, hspaceText,
      hnameText, Token.textOf, ParamDoc.parameter]
  · simp [htypeKind, hspaceKind, hnameKind, depthChange, Kind.opens?, Kind.closes?]

/-- The parts of a list of documented parameters declare them. -/
theorem filterMap_parts {ds : List ParamDoc} (hne : ds ≠ [])
    (h : ts.map Token.lexeme = lexemesOf (listPieces ds)) :
    (parts 0 ts).filterMap ofPart? = ds.map ParamDoc.parameter := by
  fun_induction listPieces ds generalizing ts with
  | case1 => exact absurd rfl hne
  | case2 d =>
      obtain ⟨hpart, hneutral⟩ := ofPart?_paramPieces h
      have hparts : parts 0 (ts ++ []) = [ts ++ []] := parts_append hneutral rfl
      rw [List.append_nil] at hparts
      rw [hparts, List.filterMap_cons, hpart]
      rfl
  | case3 d ds hds ih =>
      simp only [lexemesOf_append, lexemesOf_cons] at h
      obtain ⟨part, rest, rfl, hpart, hrest⟩ := List.map_eq_append_iff.1 h
      obtain ⟨comma, rest, rfl, hcomma, hrest⟩ := List.map_eq_cons_iff.1 hrest
      obtain ⟨space, rest, rfl, hspace, hrest⟩ := List.map_eq_cons_iff.1 hrest
      have hcommaKind : comma.kind = .comma := congrArg Lexeme.kind hcomma
      have hcut : parts 0 (comma :: space :: rest) = [] :: parts 0 (space :: rest) := by
        rw [parts, if_pos (by simp [hcommaKind])]
      obtain ⟨hdeclared, hneutral⟩ := ofPart?_paramPieces hpart
      rw [parts_append hneutral hcut, List.append_nil, List.filterMap_cons, hdeclared,
        List.map_cons, filterMap_parts_space hspace, ih hds hrest]

end Parameter

/-! ## The function -/

/-- A declaration in a stream without other brackets: the keyword and the name, the parentheses with
the parameters `ds` between them, and the braces of an empty body. -/
structure Stream.Declares (s : Stream) (ds : List ParamDoc) (before : List Token)
    (newline function space name opener : Token) (params : List Token)
    (closer line curly blank closing last : Token) : Prop where
  stream : s = ofTokens s.tokens.toList
  placed : s.Placed
  tokens : s.tokens.toList = before ++ newline :: function :: space :: name :: opener ::
    (params ++ [closer, line, curly, blank, closing, last])
  neutral : ∀ t ∈ before, t.Neutral
  front : [newline, function, space, name, opener].map Token.lexeme =
    [⟨.whitespace, "\n"⟩, ⟨.function, "function"⟩, ⟨.whitespace, " "⟩, ⟨.name, "f"⟩,
      ⟨.openParenthesis, "("⟩]
  params : params.map Token.lexeme = lexemesOf (listPieces ds)
  back : [closer, line, curly, blank, closing, last].map Token.lexeme =
    [⟨.closeParenthesis, ")"⟩, ⟨.whitespace, "\n"⟩, ⟨.openCurly, "\x7b"⟩, ⟨.whitespace, "\n"⟩,
      ⟨.closeCurly, "\x7d"⟩, ⟨.whitespace, "\n"⟩]

/-- A parameter list without default values is written with names, blanks, variables and commas. -/
theorem kind_of_mem_listPieces {ds : List ParamDoc} {l : Lexeme}
    (h : l ∈ lexemesOf (listPieces ds)) : l.kind = .name ∨ l.kind = .whitespace ∨
      l.kind = .variable ∨ l.kind = .comma := by
  have hparam : ∀ d : ParamDoc, l ∈ lexemesOf (paramPieces d) →
      l.kind = .name ∨ l.kind = .whitespace ∨ l.kind = .variable ∨ l.kind = .comma := by
    intro d hl
    have hlexemes : lexemesOf (paramPieces d) =
        [⟨.name, d.type⟩, ⟨.whitespace, " "⟩, ⟨.variable, d.var⟩] := rfl
    rw [hlexemes] at hl
    simp only [List.mem_cons, List.not_mem_nil, or_false] at hl
    rcases hl with rfl | rfl | rfl <;> simp
  fun_induction listPieces ds with
  | case1 => cases h
  | case2 d => exact hparam d h
  | case3 d ds _ ih =>
      rw [lexemesOf_append] at h
      rcases List.mem_append.1 h with h | h
      · exact hparam d h
      · rcases List.mem_cons.1 h with rfl | h
        · simp
        · rcases List.mem_cons.1 h with rfl | h
          · simp
          · exact ih h

namespace Stream.Declares

variable {ds : List ParamDoc} {newline function space name opener : Token} {params : List Token}
  {closer line curly blank closing last : Token}

/-- The tokens of the declaration have the kinds that they were written with. -/
theorem kinds (h : s.Declares ds before newline function space name opener params closer line curly
    blank closing last) :
    (newline.kind = .whitespace ∧ function.kind = .function ∧ space.kind = .whitespace ∧
      name.kind = .name ∧ opener.kind = .openParenthesis) ∧
    closer.kind = .closeParenthesis ∧ line.kind = .whitespace ∧ curly.kind = .openCurly ∧
      blank.kind = .whitespace ∧ closing.kind = .closeCurly ∧ last.kind = .whitespace := by
  have hfront := congrArg (List.map Lexeme.kind) h.front
  have hback := congrArg (List.map Lexeme.kind) h.back
  simp only [List.map_cons, List.map_nil, List.cons.injEq, Token.lexeme_kind, and_true]
    at hfront hback
  exact ⟨hfront, hback⟩

/-- Between the parentheses there are names, blanks, variables and commas only. -/
theorem kind_of_mem_params (h : s.Declares ds before newline function space name opener params
    closer line curly blank closing last) (ht : t ∈ params) : t.kind = .name ∨
      t.kind = .whitespace ∨ t.kind = .variable ∨ t.kind = .comma := by
  have hmem : t.lexeme ∈ lexemesOf (listPieces ds) := h.params ▸ List.mem_map_of_mem ht
  exact kind_of_mem_listPieces hmem

/-- The tokens of the stream are numbered in order. -/
theorem numbered (h : s.Declares ds before newline function space name opener params closer line
    curly blank closing last) : Token.Numbered s.tokens.toList := by
  intro i t ht
  rw [Array.getElem?_toList] at ht
  exact h.placed.index ht

/-- The parentheses and the braces are the only brackets. -/
theorem balanced (h : s.Declares ds before newline function space name opener params closer line
    curly blank closing last) : Token.Balanced s.tokens.toList
      [(opener.index, closer.index), (curly.index, closing.index)] := by
  obtain ⟨⟨hnewline, hfunction, hspace, hname, hopener⟩, hcloser, hline, hcurly, hblank, hclosing,
    hlast⟩ := h.kinds
  have hneutral : ∀ t : Token, t.kind = .name ∨ t.kind = .whitespace ∨ t.kind = .variable ∨
      t.kind = .comma → t.Neutral := by
    rintro t (hkind | hkind | hkind | hkind) <;>
      simp [Token.Neutral, hkind, Kind.opens?, Kind.closes?]
  have hword : function.Neutral := by simp [Token.Neutral, hfunction, Kind.opens?, Kind.closes?]
  have hbody : Token.Balanced (curly :: ([blank] ++ closing :: [last]))
      ((curly.index, closing.index) :: ([] ++ [])) := by
    obtain ⟨hopens, hcloses⟩ := hneutral blank (.inr (.inl hblank))
    obtain ⟨hopens', hcloses'⟩ := hneutral last (.inr (.inl hlast))
    exact .pair (by rw [hcurly]; rfl) (by rw [hclosing]; rfl) (.skip hopens hcloses .nil)
      (.skip hopens' hcloses' .nil)
  have hlist : Token.Balanced
      (opener :: ((params ++ []) ++ closer :: ([line] ++ [curly, blank, closing, last])))
      ((opener.index, closer.index) :: ([] ++ [(curly.index, closing.index)])) := by
    refine .pair (by rw [hopener]; rfl) (by rw [hcloser]; rfl) (.skips .nil fun t ht => ?_)
      (hbody.skips ?_)
    · exact hneutral t (h.kind_of_mem_params ht)
    · simp [hneutral line (.inr (.inl hline))]
  have hfront : ∀ t ∈ [newline, function, space, name], t.Neutral := by
    simp [hneutral newline (.inr (.inl hnewline)), hword, hneutral space (.inr (.inl hspace)),
      hneutral name (.inl hname)]
  have hwhole := (hlist.skips hfront).skips h.neutral
  simpa [h.tokens] using hwhole

/-- The parentheses of the declaration are partners, and so are its braces. -/
theorem partners (h : s.Declares ds before newline function space name opener params closer line
    curly blank closing last) :
    s.partner? opener.index = some closer.index ∧ s.partner? curly.index = some closing.index := by
  have hpartner : ∀ {i j : Nat},
      (i, j) ∈ [(opener.index, closer.index), (curly.index, closing.index)] →
      s.partner? i = some j := by
    intro i j hmem
    rw [h.stream]
    exact (partner?_eq_some_iff h.numbered).2 (.inl ((h.balanced.mem_pairs_iff [] (i, j)).2 hmem))
  exact ⟨hpartner (by simp), hpartner (by simp)⟩

/-- Behind the parameter list the body starts. -/
theorem functionBody?_eq (h : s.Declares ds before newline function space name opener params closer
    line curly blank closing last) :
    Scope.functionBody? s.partner? (closer.index + 1) (space :: name :: opener ::
      (params ++ [closer, line, curly, blank, closing, last])) = some curly.index := by
  obtain ⟨-, -, hline, hcurly, -⟩ := h.kinds
  have hlist : s.tokens.toList = (before ++ newline :: function :: space :: name :: opener ::
      params) ++ [closer, line, curly, blank, closing, last] := by
    rw [h.tokens]
    simp
  have hbehind : s.tokens.toList = (before ++ newline :: function :: space :: name :: opener ::
      (params ++ [closer])) ++ [line, curly, blank, closing, last] := by
    rw [h.tokens]
    simp
  have hlineIndex : closer.index < line.index :=
    h.placed.index_lt_of_append hbehind (by simp) (by simp)
  have hcurlyIndex : closer.index < curly.index :=
    h.placed.index_lt_of_append hbehind (by simp) (by simp)
  have hpassed : ∀ t ∈ (space :: name :: opener :: params) ++ [closer],
      t.index < closer.index + 1 := by
    intro t ht
    rcases List.mem_append.1 ht with ht | ht
    · refine Nat.lt_succ_of_lt (h.placed.index_lt_of_append hlist ?_ List.mem_cons_self)
      exact List.mem_append_right _ (List.mem_cons_of_mem _ (List.mem_cons_of_mem _ ht))
    · rw [List.mem_singleton.1 ht]
      exact Nat.lt_succ_self _
  have hwhole : space :: name :: opener :: (params ++ [closer, line, curly, blank, closing, last]) =
      ((space :: name :: opener :: params) ++ [closer]) ++ [line, curly, blank, closing, last] := by
    simp
  rw [hwhole, Scope.functionBody?_append hpassed, Scope.functionBody?, if_neg (by omega)]
  simp only [hline]
  rw [Scope.functionBody?, if_neg (by omega)]
  simp only [hcurly]

/-- The scope of the function. -/
theorem scope_eq (h : s.Declares ds before newline function space name opener params closer line
    curly blank closing last) : s.scope function.index =
      ⟨some opener.index, some closer.index, some curly.index, some closing.index⟩ := by
  obtain ⟨⟨-, hfunction, hspace, hname, hopener⟩, -⟩ := h.kinds
  obtain ⟨hparens, hbraces⟩ := h.partners
  have htokens : s.tokens.toList = (before ++ [newline]) ++ function :: (space :: name :: opener ::
      (params ++ [closer, line, curly, blank, closing, last])) := by
    rw [h.tokens]
    simp
  have hnumbered := h.numbered
  rw [htokens] at hnumbered
  have hscope := Stream.scope_of_append hnumbered (by simp [hfunction, Kind.isFunctionLike])
  rw [← htokens, ← h.stream] at hscope
  have hopenerOf : Scope.parameterOpener? (space :: name :: opener ::
      (params ++ [closer, line, curly, blank, closing, last])) = some opener.index := by
    simp [Scope.parameterOpener?, hspace, hname, hopener]
  rw [hscope, Scope.ofFunction, hopenerOf]
  simp only [hparens, h.functionBody?_eq, hbraces]

/-- The function that is read at the keyword. -/
theorem function_eq (h : s.Declares ds before newline function space name opener params closer line
    curly blank closing last) (hne : ds ≠ []) : Function.ofToken s function =
      ⟨function, "f", ds.map ParamDoc.parameter, some curly.index, some closing.index⟩ := by
  obtain ⟨⟨-, -, hspace, hname, -⟩, -⟩ := h.kinds
  have hnameText : name.text = "f" := by
    have htexts := congrArg (List.map Lexeme.text) h.front
    simp only [List.map_cons, List.map_nil, List.cons.injEq, Token.lexeme_text] at htexts
    exact htexts.2.2.2.1
  have hnamed : s.tokens.toList = (before ++ [newline]) ++ function :: ([space, name] ++ opener ::
      (params ++ [closer, line, curly, blank, closing, last])) := by
    rw [h.tokens]
    simp
  have hlist : s.tokens.toList = (before ++ [newline, function, space, name]) ++ opener ::
      (params ++ closer :: [line, curly, blank, closing, last]) := by
    rw [h.tokens]
    simp
  have hfirst : s.firstBetween (· == .name) (function.index + 1) opener.index = some name := by
    rw [Stream.firstBetween, h.placed.between_eq_of_append hnamed]
    simp [hspace, hname]
  have hparams : s.parameters function.index = ds.map ParamDoc.parameter := by
    rw [Stream.parameters, h.scope_eq]
    show (Parameter.parts 0 (s.between (opener.index + 1) closer.index)).filterMap _ = _
    rw [h.placed.between_eq_of_append hlist]
    exact Parameter.filterMap_parts hne h.params
  rw [Function.ofToken, h.scope_eq, hparams]
  show Function.mk _ ((s.firstBetween (· == .name) (function.index + 1) opener.index).elim "" _) _ _
    _ = _
  rw [hfirst]
  simp only [Option.elim_some, hnameText]

/-- The body of the function is never left. -/
theorem firstExit_eq (h : s.Declares ds before newline function space name opener params closer line
    curly blank closing last) (hne : ds ≠ []) :
    (Function.ofToken s function).firstExit s = .none := by
  obtain ⟨-, -, -, -, hblank, -⟩ := h.kinds
  have hbody : s.tokens.toList = (before ++ newline :: function :: space :: name :: opener ::
      (params ++ [closer, line])) ++ curly :: ([blank] ++ closing :: [last]) := by
    rw [h.tokens]
    simp
  rw [h.function_eq hne]
  show Exit.find s 0 (s.between (curly.index + 1) closing.index) = .none
  rw [h.placed.between_eq_of_append hbody]
  simp [Exit.find, hblank, Kind.isFunctionLike, Kind.isClassLike]

end Stream.Declares

end PhpDoc
