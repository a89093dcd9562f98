import PhpDoc.Proofs.Documented.Params
import PhpDoc.Proofs.Lint.Alone

/-!
# A documented function is clean

In the source text of a documented function nothing is found: the layout of the comment, the
parameters, the return type and the place of the comment are as the rules want them
(`Lint.check_documented`).
-/

namespace PhpDoc

open Text Lexer Documented

/-! ## The stream -/

/-- The kind of a token at which nothing is checked and no class starts. -/
def Kind.Idle (k : Kind) : Prop :=
  k ≠ .docOpen ∧ k ≠ .function ∧ k.isClassLike = false

/-- The stream of the source text, with the comment `c` in front of the keyword `function`. -/
structure Stream.Documented (s : Stream) (ds : List ParamDoc) (c : CommentSpan)
    (function : Token) : Prop where
  documents : ∃ xs v j m before after, values ds = xs ++ [v] ∧
    s.Documents c xs v j m before after
  declares : ∃ before newline space name opener params closer line curly blank closing last,
    s.Declares ds (before ++ [c.closer]) newline function space name opener params closer line
      curly blank closing last
  idle : ∀ t, s.Has t → t = c.opener ∨ t = function ∨ t.kind.Idle

/-- The lexemes of the text are the open tag, the comment with its body, and the declaration. -/
theorem lexemesOf_pieces (ds : List ParamDoc) : lexemesOf (pieces ds) =
    [⟨.openTag, "<?php"⟩, ⟨.whitespace, "\n"⟩] ++ ⟨.docOpen, "/**"⟩ ::
      (docBody (body (values ds)) ++ ⟨.docClose, "*/"⟩ :: lexemesOf (declarationPieces ds)) := by
  have hdoc : (Piece.doc (body (values ds))).lexemes =
      ⟨.docOpen, "/**"⟩ :: (docBody (body (values ds)) ++ [⟨.docClose, "*/"⟩]) := rfl
  have htag : (Piece.code ⟨.openTag, "<?php"⟩).lexemes = [⟨.openTag, "<?php"⟩] := rfl
  have hline : (Piece.space ['\n']).lexemes = [⟨.whitespace, "\n"⟩] := rfl
  simp [pieces, hdoc, htag, hline]

/-- The lexemes of the declaration are the keyword, the name, the parameters in parentheses and the
empty body. -/
theorem lexemesOf_declarationPieces (ds : List ParamDoc) :
    lexemesOf (declarationPieces ds) =
      [⟨.whitespace, "\n"⟩, ⟨.function, "function"⟩, ⟨.whitespace, " "⟩, ⟨.name, "f"⟩,
        ⟨.openParenthesis, "("⟩] ++ (lexemesOf (listPieces ds) ++
      [⟨.closeParenthesis, ")"⟩, ⟨.whitespace, "\n"⟩, ⟨.openCurly, "\x7b"⟩, ⟨.whitespace, "\n"⟩,
        ⟨.closeCurly, "\x7d"⟩, ⟨.whitespace, "\n"⟩]) := by
  rw [declarationPieces, lexemesOf_append, lexemesOf_append, List.append_assoc]
  rfl

/-- Tokens with the lexemes of a declaration, one by one. -/
theorem exists_declaration {ds : List ParamDoc} {ts : List Token}
    (h : ts.map Token.lexeme = lexemesOf (declarationPieces ds)) :
    ∃ newline function space name opener params closer line curly blank closing last,
      ts = newline :: function :: space :: name :: opener ::
        (params ++ [closer, line, curly, blank, closing, last]) ∧
      [newline, function, space, name, opener].map Token.lexeme =
        [⟨.whitespace, "\n"⟩, ⟨.function, "function"⟩, ⟨.whitespace, " "⟩, ⟨.name, "f"⟩,
          ⟨.openParenthesis, "("⟩] ∧
      params.map Token.lexeme = lexemesOf (listPieces ds) ∧
      [closer, line, curly, blank, closing, last].map Token.lexeme =
        [⟨.closeParenthesis, ")"⟩, ⟨.whitespace, "\n"⟩, ⟨.openCurly, "\x7b"⟩, ⟨.whitespace, "\n"⟩,
          ⟨.closeCurly, "\x7d"⟩, ⟨.whitespace, "\n"⟩] := by
  rw [lexemesOf_declarationPieces] at h
  obtain ⟨front, rest, rfl, hfront, hrest⟩ := List.map_eq_append_iff.1 h
  obtain ⟨params, back, rfl, hparams, hback⟩ := List.map_eq_append_iff.1 hrest
  have hfrontLength : front.length = 5 := by simpa using congrArg List.length hfront
  have hbackLength : back.length = 6 := by simpa using congrArg List.length hback
  match front, hfrontLength, back, hbackLength with
  | [newline, function, space, name, opener], _, [closer, line, curly, blank, closing, last], _ =>
      exact ⟨newline, function, space, name, opener, params, closer, line, curly, blank, closing,
        last, rfl, hfront, hparams, hback⟩

/-- What stands in front of the declaration is no bracket, and only the open marker of the comment
is checked. -/
theorem kind_of_mem_front {before inside : List Token} {body : List Char}
    (hbefore : before.map Token.lexeme = [⟨.openTag, "<?php"⟩, ⟨.whitespace, "\n"⟩])
    (hinside : inside.map Token.lexeme = docBody body) {t : Token} (ht : t ∈ before ++ inside) :
    t.Neutral ∧ t.kind.Idle := by
  have hlexeme : t.lexeme ∈ (before ++ inside).map Token.lexeme := List.mem_map_of_mem ht
  rw [List.map_append, hbefore, hinside] at hlexeme
  unfold Token.Neutral
  rw [← Token.lexeme_kind]
  generalize t.lexeme = l at hlexeme ⊢
  rcases List.mem_append.1 hlexeme with hbefore | hinside
  · rcases List.mem_pair.1 hbefore with rfl | rfl <;>
      simp [Kind.Idle, Kind.opens?, Kind.closes?, Kind.isClassLike]
  · rcases kind_of_mem_docBody hinside with h | h | h | h <;>
      simp [h, Kind.Idle, Kind.opens?, Kind.closes?, Kind.isClassLike]

/-- In the declaration only the keyword is checked. -/
theorem Stream.Declares.idle {s : Stream} {ds : List ParamDoc} {before params : List Token}
    {newline function space name opener closer line curly blank closing last : Token}
    (h : s.Declares ds before newline function space name opener params closer line curly blank
      closing last) {t : Token}
    (ht : t ∈ newline :: function :: space :: name :: opener ::
      (params ++ [closer, line, curly, blank, closing, last])) : t = function ∨ t.kind.Idle := by
  obtain ⟨⟨hnewline, hfunction, hspace, hname, hopener⟩, hcloser, hline, hcurly, hblank, hclosing,
    hlast⟩ := h.kinds
  simp only [List.mem_cons, List.mem_append, List.not_mem_nil, or_false] at ht
  rcases ht with rfl | rfl | rfl | rfl | rfl | ht | rfl | rfl | rfl | rfl | rfl | rfl
  case inr.inl => exact .inl rfl
  case inr.inr.inr.inr.inr.inl =>
    rcases h.kind_of_mem_params ht with hkind | hkind | hkind | hkind <;>
      simp [hkind, Kind.Idle, Kind.isClassLike]
  all_goals simp [Kind.Idle, Kind.isClassLike, *]

/-- The source text of a documented function can be read. -/
theorem Stream.exists_documented {ds : List ParamDoc} (hne : ds ≠ []) (h : ∀ d ∈ ds, d.Proper) :
    ∃ s c function, tokenize (Documented.text ds) = .ok s ∧ s.Documented ds c function := by
  have hproper : ∀ v ∈ values ds, IsString v.toList ∧ Unclosed v.toList := by
    intro v hv
    obtain ⟨d, hd, rfl⟩ := List.mem_map.1 hv
    exact ⟨(h d hd).isString_value _ _, (h d hd).unclosed_value _ _⟩
  have hstring : ∀ v ∈ values ds, IsString v.toList := fun v hv => (hproper v hv).1
  have hbody : Closed (body (values ds)) := closed_body fun v hv => (hproper v hv).2
  have htokenize := tokenize_textOf (reads_pieces hne h hbody) (textOf_pieces ds)
  have hsound := sound_of_tokenize htokenize
  obtain ⟨c, before, inside, after, hframes, htokens, hbefore, hinside, hafter⟩ :=
    hsound.exists_frames hbody
      ((Token.map_lexeme_place 0 Position.start _).trans (lexemesOf_pieces ds))
  obtain ⟨newline, function, space, name, opener, params, closer, line, curly, blank, closing, last,
    rfl, hfront, hparams, hback⟩ := exists_declaration hafter
  have hneutral : ∀ t ∈ (before ++ c.opener :: inside) ++ [c.closer], t.Neutral := by
    intro t ht
    simp only [List.mem_append, List.mem_cons, List.not_mem_nil, or_false] at ht
    rcases ht with (ht | rfl | ht) | rfl
    · exact (kind_of_mem_front hbefore hinside (List.mem_append_left _ ht)).1
    · simp [Token.Neutral, hframes.openerKind, Kind.opens?, Kind.closes?]
    · exact (kind_of_mem_front hbefore hinside (List.mem_append_right _ ht)).1
    · simp [Token.Neutral, hframes.closerKind, Kind.opens?, Kind.closes?]
  have hdeclares := Stream.Declares.mk (by simp [Stream.ofTokens]) hsound.toPlaced
    (by rw [htokens]; simp) hneutral hfront hparams hback
  refine ⟨_, c, function, htokenize, ?_, ⟨_, _, _, _, _, _, _, _, _, _, _, _, hdeclares⟩, ?_⟩
  · -- the last parameter has a line of its own in the documentation
    have hvalues : values ds ≠ [] := by simpa [values] using hne
    have hlast := List.dropLast_append_getLast hvalues
    have hunbroken : ∀ v ∈ (values ds).dropLast ++ [(values ds).getLast hvalues],
        Unbroken v.toList := fun v hv => (hstring v (hlast ▸ hv)).unbroken
    have hlexemes : inside.map Token.lexeme =
        Documented.inside ((values ds).dropLast ++ [(values ds).getLast hvalues]) := by
      rw [hlast, hinside, docBody_body hstring]
    exact ⟨_, _, _, _, _, _, hlast.symm, Stream.documents_of_append hsound hframes htokens hlexemes
      (fun v hv => hunbroken v (List.mem_append_left _ hv)) (hunbroken _ (by simp))⟩
  · intro t ht
    have hmem := (Stream.has_iff_mem hsound.toPlaced).1 ht
    rw [htokens] at hmem
    rcases List.mem_append.1 hmem with hmem | hmem
    · exact .inr (.inr (kind_of_mem_front hbefore hinside (List.mem_append_left _ hmem)).2)
    rcases List.mem_cons.1 hmem with rfl | hmem
    · exact .inl rfl
    rcases List.mem_append.1 hmem with hmem | hmem
    · exact .inr (.inr (kind_of_mem_front hbefore hinside (List.mem_append_right _ hmem)).2)
    rcases List.mem_cons.1 hmem with rfl | hmem
    · exact .inr (.inr (by simp [hframes.closerKind, Kind.Idle, Kind.isClassLike]))
    · exact .inr (hdeclares.idle hmem)

/-! ## The checks -/

/-- A function that is never left returns nothing. -/
theorem FunctionRule.checkReturnType_void (s : Stream) {f : Function} (t : Tag) {value : Token}
    (hvalue : value.text = "void") (hexit : f.firstExit s = .none) :
    checkReturnType s f t value = [] := by
  have htype : Text.before ' ' "void" = "void" := by decide
  have hnormalize : TypeName.normalize "void" = "void" := by decide +kernel
  have hexits : checkExit s f t "void" = [] := by
    unfold checkExit
    split
    · rfl
    · rw [hexit]
      rfl
  unfold checkReturnType
  simp only [hvalue, htype, hnormalize, hexits]
  rfl

namespace Stream.Documented

variable {s : Stream} {ds : List ParamDoc} {c : CommentSpan} {function : Token}

/-- The stream of a documented function is sound. -/
theorem sound (h : s.Documented ds c function) : s.Sound := by
  obtain ⟨xs, v, j, m, before, after, -, hdocuments⟩ := h.documents
  exact hdocuments.sound

/-- The comment of a documented function lies in its stream. -/
theorem frames (h : s.Documented ds c function) : s.Frames c := by
  obtain ⟨xs, v, j, m, before, after, -, hdocuments⟩ := h.documents
  exact hdocuments.frames

/-- The function is read as a plain one with the documented parameters and without an exit. -/
theorem function_spec (h : s.Documented ds c function) (hne : ds ≠ []) :
    function.kind = .function ∧ s.Has function ∧
      ∃ f, Function.ofToken s function = f ∧ f.token = function ∧ f.isSpecial = false ∧
        f.parameters = ds.map ParamDoc.parameter ∧ f.firstExit s = .none := by
  obtain ⟨before, newline, space, name, opener, params, closer, line, curly, blank, closing, last,
    hdeclares⟩ := h.declares
  obtain ⟨⟨-, hfunction, -⟩, -⟩ := hdeclares.kinds
  have hhas := h.sound.toPlaced.next_of_append hdeclares.tokens
  have hspecial : (lower "f" == "__construct" || lower "f" == "__destruct") = false := by decide
  refine ⟨hfunction, hhas.2.1, _, rfl, ?_⟩
  rw [hdeclares.firstExit_eq hne, hdeclares.function_eq hne]
  exact ⟨rfl, hspecial, rfl, rfl⟩

/-- Only a line break stands between the comment and the function. -/
theorem exists_newline (h : s.Documented ds c function) : ∃ newline : Token,
    s.get? (c.closer.index + 1) = some newline ∧ newline.kind = .whitespace ∧
      function.index = c.closer.index + 2 ∧ function.line = c.closer.line + 1 ∧
        s.firstBetween (· != .whitespace) (c.closer.index + 1) function.index = none := by
  obtain ⟨before, newline, space, name, opener, params, closer, line, curly, blank, closing, last,
    hdeclares⟩ := h.declares
  have hs := h.sound.toPlaced
  obtain ⟨⟨hnewline, -⟩, -⟩ := hdeclares.kinds
  have hfront := congrArg (List.map Lexeme.text) hdeclares.front
  simp only [List.map_cons, List.map_nil, List.cons.injEq, Token.lexeme_text] at hfront
  have htokens : s.tokens.toList = before ++ c.closer :: newline :: function ::
      space :: name :: opener :: (params ++ [closer, line, curly, blank, closing, last]) := by
    simpa using hdeclares.tokens
  obtain ⟨-, hhas, hnewlineIndex⟩ := hs.next_of_append htokens
  obtain ⟨-, -, hfunctionIndex⟩ := hs.next_of_append hdeclares.tokens
  have hcloser : Unbroken c.closer.text.toList := by
    rw [h.frames.closerText]
    decide
  have hending : IsEnding newline.text.toList := by
    rw [hfront.1]
    decide
  obtain ⟨hline, -⟩ := hs.unbroken_of_append htokens hcloser
  obtain ⟨hnext, -⟩ := hs.ending_of_append hdeclares.tokens hending
  have hnone : s.firstBetween (· != .whitespace) (c.closer.index + 1) function.index = none := by
    have hbetween : s.between (c.closer.index + 1) function.index = [newline] :=
      hs.between_eq_of_append htokens
    rw [Stream.firstBetween, hbetween]
    simp [hnewline]
  refine ⟨newline, ?_, hnewline, by omega, by omega, hnone⟩
  rw [← hnewlineIndex]
  exact hhas

/-- The comment is the only one of the stream. -/
theorem opener_of_kind (h : s.Documented ds c function) (hne : ds ≠ []) {t : Token} (ht : s.Has t)
    (hkind : t.kind = .docOpen) : t = c.opener := by
  rcases h.idle t ht with heq | rfl | hidle
  · exact heq
  · rw [(h.function_spec hne).1] at hkind
    cases hkind
  · exact absurd hkind hidle.1

/-- The comment is found in front of the function. -/
theorem preceding_eq (h : s.Documented ds c function) :
    Preceding.find s FunctionRule.isLead function.index = .doc c.closer := by
  obtain ⟨newline, hnewline, hkind, hindex, -, -⟩ := h.exists_newline
  have hlead : FunctionRule.isLead newline = true := by simp [FunctionRule.isLead, hkind]
  have hcloser : FunctionRule.isLead c.closer = false := by
    simp [FunctionRule.isLead, h.frames.closerKind]
  have hattribute : Preceding.attributeStart? s c.closer = none := by
    simp [Preceding.attributeStart?, h.frames.closerKind]
  have hget : s.get? c.closer.index = some c.closer := h.frames.closer
  rw [hindex, Preceding.find]
  simp only [hnewline, hlead, ↓reduceIte]
  rw [Preceding.find]
  simp [hget, hcloser, hattribute, Preceding.ofToken, h.frames.closerKind]

/-- The comment is found at its open marker. -/
theorem commentAt?_eq (h : s.Documented ds c function) :
    s.commentAt? c.opener.index = some c := by
  obtain ⟨d, hd, heq, hat⟩ := Lint.exists_commentAt h.sound h.frames.opener h.frames.openerKind
  rw [hat, (h.sound.frames hd).eq h.frames heq]

/-- The comment is found at its close marker. -/
theorem commentClosedAt?_eq (h : s.Documented ds c function) (hne : ds ≠ []) :
    s.commentClosedAt? c.closer.index = some c := by
  obtain ⟨d, hd, heq, hat⟩ :=
    Lint.exists_commentClosedAt h.sound h.frames.closer h.frames.closerKind
  have hframes := h.sound.frames hd
  rw [hat, hframes.eq h.frames (h.opener_of_kind hne hframes.opener hframes.openerKind)]

/-- No rule finds anything in the comment of the function. -/
theorem checkComment_eq (h : s.Documented ds c function) (hne : ds ≠ [])
    (hproper : ∀ d ∈ ds, d.Proper) :
    FunctionRule.checkComment true s (Function.ofToken s function) c.closer c = [] := by
  obtain ⟨xs, v, j, m, before, after, hvalues, hdocuments⟩ := h.documents
  obtain ⟨-, -, f, hf, htoken, hspecial, hparameters, hexit⟩ := h.function_spec hne
  have hspacing : FunctionRule.spacingAfterComment s c.closer f = [] := by
    obtain ⟨newline, -, -, -, hline, hnone⟩ := h.exists_newline
    refine report_of_not ?_ _
    rw [htoken, hnone, Option.getD_none, hline]
    simp
  have hsees : FunctionRule.checkSees (Block.ofSpan s c) = [] := by
    rw [FunctionRule.checkSees, hdocuments.tagsNamed_of_ne (by decide)]
    rfl
  have hthrows : FunctionRule.checkThrows s (Block.ofSpan s c) = [] := by
    rw [FunctionRule.checkThrows, hdocuments.tagsNamed_of_ne (by decide)]
    rfl
  have hparams : FunctionRule.checkParams true s (Block.ofSpan s c) f = [] := by
    refine FunctionRule.checkParams_documented hproper ?_ hparameters
    rw [FunctionRule.Agree, hdocuments.content_paramTags, ← hvalues, values, List.map_map]
    refine List.map_congr_left fun d hd => ?_
    simp [(hproper d hd).parse?_value]
  have hreturn : FunctionRule.checkReturn s (Block.ofSpan s c) f = [] := by
    have htag : [returnTag (j + 7) (m + 1) (j + 18)].filter (·.name == "@return") =
        [returnTag (j + 7) (m + 1) (j + 18)] := rfl
    rw [FunctionRule.checkReturn, hdocuments.tagsNamed_of_ne (by decide), htag]
    simp only [hspecial, returnTag]
    exact FunctionRule.checkReturnType_void s _ rfl hexit
  rw [hf, FunctionRule.checkComment]
  simp only [hspacing, hsees, hparams, hreturn, hthrows, List.append_nil]

/-- No token declares a member variable, because there is no class. -/
theorem isProperty_eq (h : s.Documented ds c function) (hne : ds ≠ []) (t : Token) :
    s.isProperty t = false := by
  have hclass : s.inClass t.index = false := by
    unfold Stream.inClass
    split
    · next owner howner =>
        obtain ⟨i, -, hget⟩ := Option.bind_eq_some_iff.1 howner
        rcases h.idle owner (h.sound.toPlaced.has_of_get? hget) with rfl | rfl | hidle
        · simp [h.frames.openerKind, Kind.isClassLike]
        · simp [(h.function_spec hne).1, Kind.isClassLike]
        · exact hidle.2.2
    · rfl
  simp [Stream.isProperty, hclass]

/-- No token of the stream of a documented function has a finding. -/
theorem checkToken_eq (h : s.Documented ds c function) (hne : ds ≠ [])
    (hproper : ∀ d ∈ ds, d.Proper) {config : Config} (hconfig : config.scalarHints = true)
    {t : Token} (ht : s.Has t) : Lint.checkToken config s t = .ok [] := by
  obtain ⟨xs, v, j, m, before, after, -, hdocuments⟩ := h.documents
  unfold Lint.checkToken
  rcases h.idle t ht with rfl | rfl | ⟨hopener, hfunction, -⟩
  · rw [h.frames.openerKind]
    simp only [Lint.checkBlock, h.commentAt?_eq, hdocuments.layout_check]
  · rw [(h.function_spec hne).1]
    simp only [Lint.checkFunction, h.preceding_eq, h.commentClosedAt?_eq hne, hconfig,
      h.checkComment_eq hne hproper]
  · split
    · next hkind => exact absurd hkind hopener
    · next hkind => exact absurd hkind hfunction
    · rw [h.isProperty_eq hne, if_neg Bool.false_ne_true]
    · rfl

end Stream.Documented

/-- Nothing is found in the source text of a documented function. -/
theorem Lint.check_documented {ds : List ParamDoc} (hne : ds ≠ []) (h : ∀ d ∈ ds, d.Proper) :
    check Config.default (Documented.text ds) = .ok [] := by
  obtain ⟨s, c, function, htokenize, hdocumented⟩ := Stream.exists_documented hne h
  have hidle : ∀ t ∈ s.tokens.toList, checkToken Config.default s t = .ok [] := fun t ht =>
    hdocumented.checkToken_eq hne h rfl ((Stream.has_iff_mem hdocumented.sound.toPlaced).2 ht)
  have hstream : checkStream Config.default s = .ok [] := flatten_mapM_of_idle hidle
  rw [check, htokenize]
  exact hstream

/-- Two parameters, with types and names of different lengths. -/
theorem Lint.check_documented_pair :
    let ds : List ParamDoc := [⟨"int", "size_0", "The size * / of it."⟩, ⟨"Shape", "x", "É."⟩]
    ds ≠ [] ∧ (∀ d ∈ ds, d.Proper) ∧ check Config.default (Documented.text ds) = .ok [] := by
  have hsize : ParamDoc.Proper ⟨"int", "size_0", "The size * / of it."⟩ :=
    ⟨by decide, by decide, by decide +kernel, by decide +kernel, by decide +kernel,
      by decide +kernel, ⟨'s', "ize_0".toList, by decide, by decide, by decide⟩, by decide,
      by unfold Unclosed; decide, by rintro _ ⟨⟩; decide +kernel, by decide⟩
  have hshape : ParamDoc.Proper ⟨"Shape", "x", "É."⟩ :=
    ⟨by decide, by decide, by decide +kernel, by decide +kernel, by decide +kernel,
      by decide +kernel, ⟨'x', [], by decide, by decide, by decide⟩, by decide,
      by unfold Unclosed; decide, by rintro _ ⟨⟩; decide +kernel, by decide⟩
  have hproper : ∀ d ∈ [⟨"int", "size_0", "The size * / of it."⟩, ⟨"Shape", "x", "É."⟩],
      ParamDoc.Proper d := by
    simp [hsize, hshape]
  exact ⟨by simp, hproper, check_documented (by simp) hproper⟩

end PhpDoc
