import PhpDoc.Proofs.Comment.Keep
import PhpDoc.Proofs.Lint.Fix
import PhpDoc.Proofs.Rule.Reach
import PhpDoc.Proofs.Rule.Rewording

/-!
# Fixing the layout keeps the documentation

In a plain text, where nothing but the layout of comments is checked, a pass proposes fixes of the
layout only (`Stream.Plain.fixedBy_check`). What it accepts rewords every comment and leaves the
rest alone (`Fixer.Wrote.exists_keeps`), so the text that it writes is a plain text again with the
same documentation (`Pass.exists_plain`). By induction on the number of passes the documentation is
kept by all of them (`FixRun.exists_plain`).
-/

namespace PhpDoc

open Text Lexer

/-- The change is a fix of the layout of a comment of the stream. -/
def Layout.Fix (s : Stream) (change : Changeset) : Prop :=
  ∃ c, s.Frames c ∧ Layout.Repair s c change

namespace Stream

variable {s s' : Stream} {c : CommentSpan}

/-- Only the layout of comments is checked, and only spaces and tabs indent them. -/
structure Plain (s : Stream) : Prop where
  function : ∀ {t}, s.Has t → t.kind ≠ .function
  property : ∀ {t}, s.Has t → s.isProperty t = false
  led : s.BlankLed

/-- The streams have comments with the same content, and the same lexemes outside of comments. -/
structure Agrees (s s' : Stream) : Prop where
  content : s'.comments.map s'.content = s.comments.map s.content
  outside : s'.outside = s.outside

/-- A stream agrees with itself. -/
theorem Agrees.refl (s : Stream) : s.Agrees s :=
  ⟨rfl, rfl⟩

/-- Agreement is passed on from one stream to the next. -/
theorem Agrees.trans {s'' : Stream} (h : s.Agrees s') (h' : s'.Agrees s'') : s.Agrees s'' :=
  ⟨h'.content.trans h.content, h'.outside.trans h.outside⟩

/-- In a plain stream every fix of a finding is a fix of the layout. -/
theorem Plain.fixedBy_check (hs : s.Sound) (h : s.Plain) {config : Config} {vs : List Violation}
    (hcheck : Lint.checkStream config s = .ok vs) {v : Violation} (hv : v ∈ vs) :
    v.FixedBy (Layout.Fix s) := by
  obtain ⟨t, ht, ws, hws, hv⟩ := (Lint.mem_checkStream hcheck).1 hv
  have hhas := (has_iff_mem hs.toPlaced).2 ht
  unfold Lint.checkToken at hws
  split at hws
  · next hkind =>
      obtain ⟨c, hc, -, hfound⟩ := Lint.exists_commentAt hs hhas hkind
      rw [Lint.checkBlock, hfound] at hws
      cases hws
      exact (Layout.fixedBy_check hs (hs.frames hc) hv).imp fun _ repair =>
        ⟨c, hs.frames hc, repair⟩
  · next hkind => exact absurd hkind (h.function hhas)
  · rw [h.property hhas] at hws
    cases hws
    cases hv
  · cases hws
    cases hv

/-- In a plain stream the stars of a comment are indented by spaces and tabs. -/
theorem Plain.isBlanks_starIndent (hs : s.Sound) (h : s.Plain) (hc : s.Frames c) :
    IsBlanks ((Block.ofSpan s c).starIndent s).toList := by
  refine Block.isBlank_starIndent hs h.led ?_ ?_ ?_
  · rw [Block.ofSpan_opener]
    exact hc.opener
  · rw [Block.ofSpan_opener]
    exact hc.openerKind
  · intro t star ht hstar hindex hkind
    rw [Block.star?, Block.ofSpan_opener, Block.ofSpan_closer] at hstar
    obtain ⟨-, hfrom, hto, -⟩ := hs.firstBetween.1 hstar
    have hdoc := hc.isDoc_of_mem ht (by omega) (by omega)
    rw [hkind] at hdoc
    cases hdoc

end Stream

/-! ## What a pass writes -/

namespace Pass

/-- Lists of edits that are those of changes with a property. -/
theorem exists_map_edits {p : Changeset → Prop} {history : List (List Edit)}
    (h : ∀ edits ∈ history, ∃ c : Changeset, p c ∧ c.edits = edits) :
    ∃ cs : List Changeset, (∀ c ∈ cs, p c) ∧ cs.map (·.edits) = history := by
  induction history with
  | nil => exact ⟨[], by simp, rfl⟩
  | cons edits history ih =>
      obtain ⟨⟨c, hc, rfl⟩, hrest⟩ := List.forall_mem_cons.1 h
      obtain ⟨cs, hcs, rfl⟩ := ih hrest
      exact ⟨c :: cs, List.forall_mem_cons.2 ⟨hc, hcs⟩, rfl⟩

/-- What a pass accepts is among the fixes of its findings. -/
theorem exists_wrote {s : Stream} {p : Changeset → Prop} (hp : ∀ c, p c → c.Over s)
    {vs : List Violation} (h : ∀ v ∈ vs, v.FixedBy p) :
    ∃ cs, (proposeAll (Fixer.ofStream s) vs).1.Wrote s cs ∧ ∀ c ∈ cs, p c := by
  have hfixes : ∀ edits ∈ vs.filterMap (·.fix), ∃ c : Changeset, p c ∧ c.edits = edits := by
    intro edits hedits
    obtain ⟨v, hv, hfix⟩ := List.mem_filterMap.1 hedits
    rcases h v hv with hnone | ⟨c, hc, hfix'⟩
    · rw [hnone] at hfix
      cases hfix
    · exact ⟨c, hc, Option.some.inj (hfix'.symm.trans hfix)⟩
  have htook := (Fixer.took_ofStream s).after fun edits hedits => by
    obtain ⟨c, hc, rfl⟩ := hfixes edits hedits
    exact (hp c hc).nodup_edits
  obtain ⟨cs, hcs, hmap⟩ := exists_map_edits fun edits hedits =>
    hfixes edits (Fixer.mem_of_mem_taken (f := Fixer.ofStream s) hedits)
  rw [List.nil_append, ← hmap] at htook
  rw [proposeAll_eq]
  exact ⟨cs, htook.wrote fun c hc => hp c (hcs c hc), hcs⟩

end Pass

namespace Fixer

variable {s : Stream} {f : Fixer} {cs : List Changeset} {ps : List Piece}

/-- The texts of a fixer are what it holds for the tokens of the stream. -/
theorem Wrote.toList_text (hs : s.Placed) (h : f.Wrote s cs) :
    f.text.toList = s.tokens.toList.flatMap fun t => (f.written t).toList := by
  have htexts : f.texts.toList = s.tokens.toList.map f.written := by
    refine List.ext_getElem (by simpa [Stream.size] using h.size) fun i hi hi' => ?_
    have hlt : i < s.tokens.size := by simpa using hi'
    have hget : s.get? i = some s.tokens[i] := Array.getElem?_eq_getElem hlt
    rw [List.getElem_map, Array.getElem_toList, Array.getElem_toList, written, hs.index hget,
      Array.getElem?_eq_getElem (by simpa using hi)]
    rfl
  rw [text, String.toList_join, htexts, List.flatMap_map]

/-- The accepted fixes of the layout reword every comment. -/
theorem Wrote.rewords (hs : s.Sound) (hplain : s.Plain) (h : f.Wrote s cs)
    (hcs : ∀ change ∈ cs, Layout.Fix s change) {c : CommentSpan} (hc : s.Frames c) :
    Rewords s c cs f.written where
  shape := by
    intro change hchange t ht hfrom hto hne
    obtain ⟨d, hd, hrepair⟩ := hcs change hchange
    -- the fix is one of this comment, since it changes a token of it
    obtain ⟨hfrom', hto'⟩ := hrepair.within hs hd t ht hne
    obtain rfl := hc.eq_of_mem hd hfrom hto hfrom' hto'
    exact hrepair.exists_shape hs hc (hplain.isBlanks_starIndent hs hc)
  alone := fun change hchange other hother t ht => h.alone ht hchange hother
  changed := fun change hchange t ht => h.changed ht hchange
  kept := fun t ht => h.kept ht

/-- Outside of comments the accepted fixes of the layout write nothing new. -/
theorem Wrote.written_eq (hs : s.Sound) (h : f.Wrote s cs)
    (hcs : ∀ change ∈ cs, Layout.Fix s change) {t : Token} (ht : s.Has t)
    (hkind : t.kind.isDoc = false) : f.written t = t.text := by
  refine (h.written_cases ht).resolve_right ?_
  rintro ⟨change, hchange, hne, -⟩
  obtain ⟨c, hc, hrepair⟩ := hcs change hchange
  obtain ⟨hfrom, hto⟩ := hrepair.within hs hc t ht hne
  rw [hc.isDoc_of_mem ht hfrom hto] at hkind
  cases hkind

/-- What is written for the tokens is a text with the same content, when every comment is reworded
and nothing else is written anew. -/
theorem exists_keeps {w : Token → String} (hs : s.Placed) (hps : ∀ p ∈ ps, p.Valid)
    (hcode : ∀ t, s.Has t → t.kind.isDoc = false → w t = t.text)
    (hdoc : ∀ c, s.Frames c → ∃ body, Closed body ∧
      s.writes w c.opener.index (c.closer.index + 1) = ['/', '*', '*'] ++ body ++ ['*', '/'] ∧
      contentOf (docBody body) = s.content c)
    (before ts : List Token) (heq : s.tokens.toList = before ++ ts)
    (hts : ts.map Token.lexeme = lexemesOf ps) :
    ∃ qs, Keeps ps qs ∧ textOf qs = ts.flatMap fun t => (w t).toList := by
  induction ps generalizing before ts with
  | nil =>
      obtain rfl := List.map_eq_nil_iff.1 hts
      exact ⟨[], .nil, rfl⟩
  | cons p ps ih =>
      obtain ⟨hp, hrow⟩ := List.forall_mem_cons.1 hps
      by_cases hbody : ∃ body, p = .doc body
      · obtain ⟨old, rfl⟩ := hbody
        obtain ⟨opener, inside, closer, rest, rfl, hopen, hclose, hinside, hrest, -⟩ :=
          CommentSpan.scan_doc hts
        obtain ⟨hframes, hbetween, hall⟩ := hs.frames_of_append hp heq hopen hclose hinside
        obtain ⟨new, hclosed, hwrites, hcontent⟩ := hdoc _ hframes
        obtain ⟨qs, hkeeps, htext⟩ :=
          ih hrow (before ++ (opener :: inside ++ [closer])) rest (by simpa using heq) hrest
        refine ⟨.doc new :: qs, .doc hclosed ?_ hkeeps, ?_⟩
        · rw [hcontent, Stream.content, hbetween, hinside]
        · rw [Stream.writes, hall] at hwrites
          have hsplit : opener :: inside ++ closer :: rest =
              opener :: inside ++ [closer] ++ rest := by
            simp
          rw [hsplit, List.flatMap_append, hwrites, textOf_cons, htext]
          rfl
      · rw [lexemesOf_cons, List.map_eq_append_iff] at hts
        obtain ⟨front, rest, rfl, hfront, hrest⟩ := hts
        obtain ⟨qs, hkeeps, htext⟩ :=
          ih hrow (before ++ front) rest (by simpa using heq) hrest
        -- no token of the piece is part of a comment, so each is written as it stands
        have hfrontText := Stream.chars_of_kept hfront fun t ht =>
          hcode t ((Stream.has_iff_mem hs).2 (by rw [heq]; simp [ht])) <|
            Piece.isDoc_of_mem hp (fun body h => hbody ⟨body, h⟩)
              (hfront ▸ List.mem_map_of_mem (f := Token.lexeme) ht)
        have hkeep : Keeps (p :: ps) (p :: qs) := by
          cases p with
          | code l => exact .code hkeeps
          | space cs => exact .space hkeeps
          | doc body => exact absurd ⟨body, rfl⟩ hbody
        exact ⟨p :: qs, hkeep, by rw [textOf_cons, htext, List.flatMap_append, hfrontText]⟩

end Fixer

/-- A text that differs in comments only from a plain text is plain. -/
theorem Stream.Plain.of_outside_eq {ls ms : List Lexeme} (hls : Nested ls) (hms : Nested ms)
    (heq : Lexer.outside ms = Lexer.outside ls) (h : (ofLexemes ls).Plain) :
    (ofLexemes ms).Plain where
  function := by
    intro t ht hkind
    obtain ⟨u, hu⟩ := Counterpart.exists_left heq ht (by rw [hkind]; rfl)
    refine h.function hu.left ?_
    rw [← hkind]
    exact congrArg Lexeme.kind (hu.lexeme_eq heq)
  property := fun {t} ht => isProperty_of_outside_eq hls hms heq (fun _ hu => h.property hu) t ht
  led := blankLed_of_outside_eq hls hms heq h.led

/-- A pass over a plain text writes a plain text with the same documentation. -/
theorem Pass.exists_plain (config : Config) {text : String} {s : Stream}
    (h : tokenize text = .ok s) (hplain : s.Plain) :
    ∃ pass s', run config text = .ok pass ∧ tokenize pass.fixer.text = .ok s' ∧ s'.Plain ∧
      s.Agrees s' := by
  obtain ⟨findings, hcheck, -, -, hrun⟩ := exists_run config h
  have hs := Stream.sound_of_tokenize h
  obtain ⟨ps, hps, -, hreads, hstream⟩ := Stream.exists_pieces h
  have hover : ∀ change, Layout.Fix s change → change.Over s := by
    rintro change ⟨c, hc, hrepair⟩
    exact (hrepair.changes hs hc).fits
  obtain ⟨cs, hwrote, hcs⟩ := exists_wrote hover fun v hv => hplain.fixedBy_check hs hcheck hv
  have hlexemes : s.tokens.toList.map Token.lexeme = lexemesOf ps := by
    rw [hstream]
    simp [Stream.ofTokens]
  obtain ⟨qs, hkeeps, htext⟩ := Fixer.exists_keeps hs.toPlaced hps
    (fun t ht => hwrote.written_eq hs hcs ht)
    (fun c hc => (hwrote.rewords hs hplain hcs hc).exists_body hs hc)
    [] s.tokens.toList rfl hlexemes
  -- the lexer takes the rewritten text apart into the rewritten pieces
  have hread := Stream.tokenize_textOf (hreads.rewrite hkeeps.rewrites)
    (htext.trans (hwrote.toList_text hs.toPlaced).symm)
  have hqs := hkeeps.valid hps
  subst hstream
  refine ⟨_, Stream.ofLexemes (lexemesOf qs), hrun, hread, ?_, ?_, ?_⟩
  · exact .of_outside_eq (nested_lexemesOf hps) (nested_lexemesOf hqs) hkeeps.outside_eq hplain
  · rw [Stream.map_content hqs, hkeeps.contents_eq]
    exact (Stream.map_content hps).symm
  · rw [Stream.outside_ofLexemes, hkeeps.outside_eq]
    exact (Stream.outside_ofLexemes _).symm

/-- However many passes run over a plain text, its documentation is kept. -/
theorem FixRun.exists_plain (config : Config) (limit : Nat) {text : String} {s : Stream}
    (h : tokenize text = .ok s) (hplain : s.Plain) :
    ∃ result converged s', (upTo config limit text).outcome = .ok (result, converged) ∧
      tokenize result = .ok s' ∧ s.Agrees s' := by
  induction limit generalizing text s with
  | zero => exact ⟨text, false, s, rfl, h, .refl s⟩
  | succ limit ih =>
      obtain ⟨pass, s', hrun, hread, hplain', hagrees⟩ := Pass.exists_plain config h hplain
      rw [upTo, hrun]
      cases hchanged : pass.fixer.changed with
      | false => exact ⟨text, true, s, by simp [hchanged], h, .refl s⟩
      | true =>
          obtain ⟨result, converged, s'', houtcome, hresult, hagrees'⟩ := ih hread hplain'
          exact ⟨result, converged, s'', by simpa [hchanged] using houtcome, hresult,
            hagrees.trans hagrees'⟩

/-- White space that leads the line of an open marker starts in the first column of that line. -/
theorem Stream.blankLed_of_column {s : Stream} (hs : s.Sound)
    (h : ∀ w t, s.Has w → s.Has t → w.index + 1 = t.index → w.kind = .whitespace →
      t.kind = .docOpen → w.column = 1 → w.line = t.line →
      ∀ c ∈ w.text.toList, c = ' ' ∨ c = '\t') :
    s.BlankLed := by
  intro w t hw ht hindex hwkind htkind hled c hc
  obtain ⟨hends, hstart⟩ := hled
  have hcolumn : w.column = 1 := by
    rcases hstart with hfirst | ⟨u, hu, huindex, huends⟩
    · have hget : s.get? 0 = some w := hfirst ▸ hw
      exact congrArg Position.column (hs.first hget)
    · exact hs.column_of_endsLine hu hw huindex.symm huends
  have hub := (hs.lined hw (by rw [hwkind]; rfl)).unbroken_of_not_endsLine hends
  have hline := (hs.unbroken_next hw ht hindex.symm hub).1
  rcases h w t hw ht hindex hwkind htkind hcolumn hline.symm c hc with rfl | rfl
  · rfl
  · rfl

/-- Fixing keeps the documentation of a text that has no functions and no member variables, and in
which spaces and tabs lead the lines of open markers: however many passes are allowed, none of them
fails, the result has as many comments as the text with the tags and strings that they have there,
and the same tokens stand outside of comments. -/
theorem fix_keeps_documentation (config : Config) (limit : Nat) {text : String} {s : Stream}
    (h : tokenize text = .ok s) (function : ∀ t ∈ s.tokens.toList, t.kind ≠ .function)
    (property : ∀ t ∈ s.tokens.toList, s.isProperty t = false)
    (leading : ∀ w ∈ s.tokens.toList, ∀ t ∈ s.tokens.toList, w.index + 1 = t.index →
      w.kind = .whitespace → t.kind = .docOpen → w.column = 1 → w.line = t.line →
      ∀ c ∈ w.text.toList, c = ' ' ∨ c = '\t') :
    ∃ r s', (FixRun.upTo config limit text).result config = .ok r ∧ tokenize r.text = .ok s' ∧
      s'.comments.map s'.content = s.comments.map s.content ∧ s'.outside = s.outside := by
  have hs := Stream.sound_of_tokenize h
  have hmem : ∀ {t}, s.Has t → t ∈ s.tokens.toList := (Stream.has_iff_mem hs.toPlaced).1
  have hplain : s.Plain := {
    function := fun ht => function _ (hmem ht)
    property := fun ht => property _ (hmem ht)
    led := Stream.blankLed_of_column hs fun w t hw ht => leading w (hmem hw) t (hmem ht) }
  obtain ⟨result, converged, s', houtcome, hread, hagrees⟩ :=
    FixRun.exists_plain config limit h hplain
  obtain ⟨findings, -, -, hcheck, -⟩ := Pass.exists_run config hread
  have hresult : (FixRun.upTo config limit text).result config =
      .ok ⟨result, (FixRun.upTo config limit text).passes.length, converged,
        (FixRun.upTo config limit text).fixedCount, findings⟩ := by
    simp only [FixRun.result, houtcome, bind, Except.bind, hcheck]
    rfl
  exact ⟨_, s', hresult, hread, hagrees.content, hagrees.outside⟩

/-- Two passes put an indented comment in order and keep its only word. -/
theorem fix_keeps_indented_word : ∃ s r s', tokenize "<?php\n  /** F */" = .ok s ∧
    (∀ t ∈ s.tokens.toList, t.kind ≠ .function) ∧
    (∀ t ∈ s.tokens.toList, s.isProperty t = false) ∧
    (FixRun.upTo Config.default 2 "<?php\n  /** F */").result Config.default = .ok r ∧
    r.text = "<?php\n  /**\n   * F\n   */" ∧ tokenize r.text = .ok s' ∧
    s'.comments.map s'.content = [[⟨.docString, "F"⟩]] ∧ s'.outside = s.outside := by
  obtain ⟨s, hs, hall⟩ := Lint.exists_ok_of_any (x := tokenize "<?php\n  /** F */")
    (p := fun s => s.tokens.toList.all (fun t => t.kind != .function && !s.isProperty t) &&
      s.tokens.toList.all (fun w => w.kind != .whitespace || w.column != 1 ||
        w.text.toList.all fun c => c == ' ' || c == '\t') &&
      s.comments.map s.content == [[⟨.docString, "F"⟩]])
    (by decide +kernel)
  simp only [Bool.and_eq_true, List.all_eq_true, Bool.not_eq_true', bne_iff_ne, Bool.or_eq_true,
    beq_iff_eq] at hall
  obtain ⟨⟨hcode, hspace⟩, hcontent⟩ := hall
  obtain ⟨r, s', hr, hs', hkeep, hout⟩ := fix_keeps_documentation Config.default 2 hs
    (fun t ht => (hcode t ht).1) (fun t ht => (hcode t ht).2)
    (fun w hw _ _ _ hkind _ hcolumn _ => (hspace w hw).resolve_left (by simp [hkind, hcolumn]))
  obtain ⟨found, hfound, htext⟩ := Lint.exists_ok_of_any
    (x := (FixRun.upTo Config.default 2 "<?php\n  /** F */").result Config.default)
    (p := (·.text == "<?php\n  /**\n   * F\n   */")) (by decide +kernel)
  obtain rfl : r = found := Except.ok.inj (hr.symm.trans hfound)
  exact ⟨s, r, s', hs, fun t ht => (hcode t ht).1, fun t ht => (hcode t ht).2, hr,
    by simpa using htext, hs', hkeep.trans hcontent, hout⟩

end PhpDoc
