import PhpDoc.Proofs.Lint.Frame
import PhpDoc.Proofs.Token.Comments
import PhpDoc.Proofs.Token.Neighbour
import PhpDoc.Proofs.Token.Position

/-!
# A file with a comment and nothing else

What stands around the comment of such a file is an open tag, a line break and the indentation of
the comment, and a line break behind it. The findings of the file are those about the layout of the
comment (`Alone.checkStream_eq`).
-/

namespace PhpDoc

open Text Lexer

variable {s : Stream} {c : CommentSpan} {indent body : List Char}

/-! ## Reading -/

namespace Lexer

/-- A lexeme for a text that may be empty has its kind. -/
theorem kind_of_mem_lexeme? {kind : Kind} {cs : List Char} {l : Lexeme}
    (h : l ∈ lexeme? kind cs) : l.kind = kind := by
  unfold lexeme? at h
  split at h
  · cases h
  · rw [List.mem_singleton.1 h]

/-- A line feed with blanks behind it is two tokens, or one if there are no blanks. -/
theorem lexemes_indented (h : IsBlanks indent) :
    (Piece.space ('\n' :: indent)).lexemes =
      ⟨.whitespace, "\n"⟩ :: lexeme? .whitespace indent := by
  have hending : IsEnding ['\n'] := by decide
  have hseparate : Separate ['\n'] indent := by simp [Separate]
  have hcut := cutLines_ending hending hseparate
  rw [List.singleton_append] at hcut
  rw [Piece.lexemes, hcut, List.map_cons]
  by_cases hnil : indent = []
  · subst hnil
    rfl
  · rw [cutLines_unbroken (unbroken_of_blank h) hnil, lexeme?_of_ne_nil hnil]
    rfl

/-- The lexemes of the file. -/
theorem lexemesOf_comment (h : IsBlanks indent) (body : List Char) :
    lexemesOf [.code ⟨.openTag, "<?php"⟩, .space ('\n' :: indent), .doc body, .space ['\n']] =
      ⟨.openTag, "<?php"⟩ :: ⟨.whitespace, "\n"⟩ :: lexeme? .whitespace indent ++
        ⟨.docOpen, "/**"⟩ :: (docBody body ++ [⟨.docClose, "*/"⟩, ⟨.whitespace, "\n"⟩]) := by
  have hlast : (Piece.space ['\n']).lexemes = [⟨.whitespace, "\n"⟩] := rfl
  have hdoc : (Piece.doc body).lexemes =
      ⟨.docOpen, "/**"⟩ :: (docBody body ++ [⟨.docClose, "*/"⟩]) := rfl
  have htag : (Piece.code ⟨.openTag, "<?php"⟩).lexemes = [⟨.openTag, "<?php"⟩] := rfl
  simp [lexemes_indented h, hlast, hdoc, htag]

/-- A comment behind an open tag and an indent is read piece by piece. -/
theorem reads_comment (hindent : IsBlanks indent) (hbody : Closed body) :
    Reads .html none
      [.code ⟨.openTag, "<?php"⟩, .space ('\n' :: indent), .doc body, .space ['\n']] := by
  have hspace : (Piece.space ('\n' :: indent)).Valid := by
    refine ⟨by simp, fun ch hch => ?_⟩
    rcases List.mem_cons.1 hch with rfl | hch
    · decide
    · exact isCodeSpace_of_isBlank (hindent ch hch)
  have hlast : Reads .code (some ⟨.docClose, "*/"⟩) [.space ['\n']] :=
    .spaceCons ⟨by simp, by decide⟩ rfl .nil
  have hstop : (textOf [.doc body, .space ['\n']]).takeWhile isCodeSpace = [] := by
    rw [textOf_doc]
    rfl
  have hfound : openTag? ([] ++ "<?php".toList ++
      textOf [.space ('\n' :: indent), .doc body, .space ['\n']]) = some (0, 5) :=
    rfl
  exact .openTag hfound (.spaceCons hspace hstop (.doc hbody hlast))

end Lexer

/-- A comment in a stream, from the lexemes. -/
theorem Stream.Placed.exists_frames (hs : s.Placed) (hbody : Closed body) {front back : List Lexeme}
    (h : s.tokens.toList.map Token.lexeme =
      front ++ ⟨.docOpen, "/**"⟩ :: (docBody body ++ ⟨.docClose, "*/"⟩ :: back)) :
    ∃ c before inside after, s.Frames c ∧
      s.tokens.toList = before ++ c.opener :: (inside ++ c.closer :: after) ∧
      before.map Token.lexeme = front ∧ inside.map Token.lexeme = docBody body ∧
      after.map Token.lexeme = back := by
  obtain ⟨before, rest, htokens, hbefore, hrest⟩ := List.map_eq_append_iff.1 h
  obtain ⟨opener, rest, rfl, hopener, hrest⟩ := List.map_eq_cons_iff.1 hrest
  obtain ⟨inside, rest, rfl, hinside, hrest⟩ := List.map_eq_append_iff.1 hrest
  obtain ⟨closer, after, rfl, hcloser, hafter⟩ := List.map_eq_cons_iff.1 hrest
  have hframed : CommentSpan.Framed s.tokens.toList
      ⟨opener, closer, inside.filter (·.kind == .docTag)⟩ :=
    ⟨before, inside, after, htokens, hopener, hcloser, ⟨body, hbody, hinside⟩, rfl⟩
  exact ⟨_, before, inside, after, hs.frames_of_framed hframed, htokens, hbefore, hinside, hafter⟩

/-- The stream of a file with nothing but a comment: the text `body` between its markers, and
`indent` in front of it. -/
structure Stream.Alone (s : Stream) (c : CommentSpan) (indent body : List Char)
    (before inside after : List Token) : Prop where
  sound : s.Sound
  frames : s.Frames c
  tokens : s.tokens.toList = before ++ c.opener :: (inside ++ c.closer :: after)
  before : before.map Token.lexeme =
    ⟨.openTag, "<?php"⟩ :: ⟨.whitespace, "\n"⟩ :: lexeme? .whitespace indent
  inside : inside.map Token.lexeme = docBody body
  after : after.map Token.lexeme = [⟨.whitespace, "\n"⟩]

/-- A file with nothing but a comment can be read. -/
theorem Stream.exists_alone {text : String} (hindent : IsBlanks indent) (hbody : Closed body)
    (htext : text.toList =
      "<?php\n".toList ++ indent ++ "/**".toList ++ body ++ "*/\n".toList) :
    ∃ s c before inside after, tokenize text = .ok s ∧
      s.Alone c indent body before inside after := by
  have hchars : textOf [.code ⟨.openTag, "<?php"⟩, .space ('\n' :: indent), .doc body,
      .space ['\n']] = text.toList := by
    simp [htext, Piece.chars]
  have htokenize := tokenize_textOf (reads_comment hindent hbody) hchars
  have hsound := sound_of_tokenize htokenize
  obtain ⟨c, before, inside, after, hframes, htokens, hbefore, hinside, hafter⟩ :=
    hsound.exists_frames hbody
      ((Token.map_lexeme_place 0 Position.start _).trans (lexemesOf_comment hindent body))
  exact ⟨_, c, before, inside, after, htokenize, hsound, hframes, htokens, hbefore, hinside, hafter⟩

namespace Lint

variable {config : Config}

/-- Findings in a row of tokens are those in its first part and those in the rest. -/
theorem flatten_mapM_append {α β ε : Type} {f : α → Except ε (List β)} {xs ys : List α}
    {vs ws : List β} (hxs : (xs.mapM f).map List.flatten = .ok vs)
    (hys : (ys.mapM f).map List.flatten = .ok ws) :
    ((xs ++ ys).mapM f).map List.flatten = .ok (vs ++ ws) := by
  rw [List.mapM_append]
  cases hx : xs.mapM f with
  | error e =>
      rw [hx] at hxs
      cases hxs
  | ok vss =>
      cases hy : ys.mapM f with
      | error e =>
          rw [hy] at hys
          cases hys
      | ok wss =>
          rw [hx] at hxs
          rw [hy] at hys
          cases hxs
          cases hys
          exact congrArg Except.ok List.flatten_append

/-- Tokens without findings leave nothing to report. -/
theorem flatten_mapM_of_idle {α β ε : Type} {f : α → Except ε (List β)} {xs : List α}
    (h : ∀ x ∈ xs, f x = .ok []) : (xs.mapM f).map List.flatten = .ok [] := by
  induction xs with
  | nil => rfl
  | cons x xs ih =>
      have hx : ([x].mapM f).map List.flatten = .ok [] := by
        simp [h x List.mem_cons_self, Except.map, bind, Except.bind, pure, Except.pure]
      exact flatten_mapM_append hx (ih fun y hy => h y (List.mem_cons_of_mem _ hy))

/-- When there is something to find at one token only, that is all there is to find. -/
theorem checkStream_of_idle {before after : List Token} {t : Token} {vs : List Violation}
    (htokens : s.tokens.toList = before ++ t :: after)
    (hidle : ∀ u ∈ before ++ after, checkToken config s u = .ok [])
    (ht : checkToken config s t = .ok vs) : checkStream config s = .ok vs := by
  have hone : ([t].mapM (checkToken config s)).map List.flatten = .ok vs := by
    simp [ht, Except.map, bind, Except.bind, pure, Except.pure]
  have hbefore := flatten_mapM_of_idle fun u hu => hidle u (List.mem_append_left _ hu)
  have hafter := flatten_mapM_of_idle fun u hu => hidle u (List.mem_append_right _ hu)
  unfold checkStream
  rw [htokens]
  simpa using flatten_mapM_append hbefore (flatten_mapM_append hone hafter)

end Lint

namespace Stream

/-- The white space between a line break and a token indents the token. -/
theorem Placed.leadingWhitespace?_of_append (hs : s.Placed) {before blanks after : List Token}
    {t u : Token} (htokens : s.tokens.toList = before ++ t :: (blanks ++ u :: after))
    (hends : endsLine t.text = true) {kind : Kind} (hkind : kind = .whitespace ∨ kind = .docBlank)
    (hblanks : blanks.map Token.lexeme = lexeme? kind indent) (hindent : IsBlanks indent) :
    s.leadingWhitespace? u.index = some (String.ofList indent) := by
  by_cases hnil : indent = []
  · subst hnil
    obtain rfl := List.map_eq_nil_iff.1 hblanks
    unfold Stream.leadingWhitespace?
    rw [hs.before?_of_append htokens]
    simp only [hends, ↓reduceIte]
  · rw [lexeme?_of_ne_nil hnil] at hblanks
    obtain ⟨blank, none, rfl, hblank, hnone⟩ := List.map_eq_cons_iff.1 hblanks
    obtain rfl := List.map_eq_nil_iff.1 hnone
    have hblankKind : blank.kind = kind := congrArg Lexeme.kind hblank
    have hblankText : blank.text = String.ofList indent := congrArg Lexeme.text hblank
    have hblankEnds : endsLine blank.text = false :=
      Stream.Frames.endsLine_of_blank (by rwa [hblankText, String.toList_ofList])
    have hspace : (blank.kind == .whitespace || blank.kind == .docBlank) = true := by
      rw [hblankKind]
      rcases hkind with rfl | rfl <;> rfl
    have hblanked : s.tokens.toList = (before ++ [t]) ++ blank :: u :: after := by simp [htokens]
    unfold Stream.leadingWhitespace?
    rw [hs.before?_of_append hblanked]
    simp only [hblankEnds, hspace, hs.before?_of_append htokens, hends, ↓reduceIte]
    rw [if_neg (by simp), hblankText]

end Stream

namespace Stream.Alone

variable {before inside after : List Token}

/-- In front of the comment stand the open tag, a line feed and the indent. -/
theorem exists_before (h : s.Alone c indent body before inside after) :
    ∃ tag newline blanks, before = tag :: newline :: blanks ∧
      tag.lexeme = ⟨.openTag, "<?php"⟩ ∧ newline.lexeme = ⟨.whitespace, "\n"⟩ ∧
      blanks.map Token.lexeme = lexeme? .whitespace indent := by
  obtain ⟨tag, rest, rfl, htag, hrest⟩ := List.map_eq_cons_iff.1 h.before
  obtain ⟨newline, blanks, rfl, hnewline, hblanks⟩ := List.map_eq_cons_iff.1 hrest
  exact ⟨tag, newline, blanks, rfl, htag, hnewline, hblanks⟩

/-- Nothing but the comment of the text is checked. -/
theorem kind_of_mem (h : s.Alone c indent body before inside after) {t : Token}
    (ht : t ∈ before ++ (inside ++ c.closer :: after)) :
    t.kind ≠ .docOpen ∧ t.kind ≠ .function ∧ t.kind ≠ .variable := by
  have hlexeme : t.lexeme ∈ (before ++ (inside ++ c.closer :: after)).map Token.lexeme :=
    List.mem_map_of_mem ht
  rw [List.map_append, List.map_append, List.map_cons, h.before, h.inside, h.after,
    h.frames.closes] at hlexeme
  rw [← Token.lexeme_kind]
  generalize t.lexeme = l at hlexeme ⊢
  rcases List.mem_append.1 hlexeme with hbefore | hlexeme
  · rcases List.mem_cons.1 hbefore with heq | hbefore
    · simp [heq]
    · rcases List.mem_cons.1 hbefore with heq | hblank
      · simp [heq]
      · simp [kind_of_mem_lexeme? hblank]
  · rcases List.mem_append.1 hlexeme with hinside | hlexeme
    · rcases kind_of_mem_docBody hinside with h | h | h | h <;> simp [h]
    · rcases List.mem_cons.1 hlexeme with heq | hafter
      · simp [heq]
      · simp [List.mem_singleton.1 hafter]

/-- The findings of the file are those about the layout of the comment. -/
theorem checkStream_eq (h : s.Alone c indent body before inside after) (config : Config) :
    Lint.checkStream config s = .ok (Layout.check s (Block.ofSpan s c)) := by
  refine Lint.checkStream_of_idle h.tokens (fun t ht => ?_) ?_
  · obtain ⟨hopen, hfunction, hvariable⟩ := h.kind_of_mem ht
    unfold Lint.checkToken
    split
    · next hkind => exact absurd hkind hopen
    · next hkind => exact absurd hkind hfunction
    · next hkind => exact absurd hkind hvariable
    · rfl
  · obtain ⟨d, hd, heq, hat⟩ := Lint.exists_commentAt h.sound h.frames.opener h.frames.openerKind
    obtain rfl := (h.sound.frames hd).eq h.frames heq
    unfold Lint.checkToken
    rw [h.frames.openerKind]
    unfold Lint.checkBlock
    simp only [hat]

/-- The line ending of the text is a line feed. -/
theorem eol_eq (h : s.Alone c indent body before inside after) : s.eol = "\n" := by
  obtain ⟨tag, newline, blanks, rfl, htag, hnewline, -⟩ := h.exists_before
  have htagText : tag.text = "<?php" := congrArg Lexeme.text htag
  have hnewlineText : newline.text = "\n" := congrArg Lexeme.text hnewline
  have hfind : s.tokens.toList.find? (·.text.toList.contains '\n') = some newline := by
    rw [h.tokens, List.cons_append, List.find?_cons_of_neg (by simp [htagText]), List.cons_append,
      List.find?_cons_of_pos (by simp [hnewlineText])]
  unfold Stream.eol
  rw [hfind]
  simp only [hnewlineText]
  rfl

/-- The white space in front of the comment is its indent. -/
theorem leadingWhitespace? (h : s.Alone c indent body before inside after)
    (hindent : IsBlanks indent) :
    s.leadingWhitespace? c.opener.index = some (String.ofList indent) := by
  obtain ⟨tag, newline, blanks, rfl, -, hnewline, hblanks⟩ := h.exists_before
  have hends : endsLine newline.text = true := by
    rw [show newline.text = "\n" from congrArg Lexeme.text hnewline]
    rfl
  have htokens : s.tokens.toList =
      [tag] ++ newline :: (blanks ++ c.opener :: (inside ++ c.closer :: after)) := by
    simp [h.tokens]
  exact h.sound.leadingWhitespace?_of_append htokens hends (.inl rfl) hblanks hindent

/-- The text in front of the comment is the line of the open tag and the indent. -/
theorem textOf_before (h : s.Alone c indent body before inside after) :
    Token.textOf before = "<?php\n" ++ String.ofList indent := by
  rw [← String.toList_inj, Token.toList_textOf, h.before]
  simp

/-- The text behind the comment is a line feed. -/
theorem textOf_after (h : s.Alone c indent body before inside after) :
    Token.textOf after = "\n" := by
  rw [← String.toList_inj, Token.toList_textOf, h.after]
  rfl

end Stream.Alone

end PhpDoc
