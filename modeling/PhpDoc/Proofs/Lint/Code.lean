import PhpDoc.Proofs.Lint.Fix
import PhpDoc.Proofs.Lint.Keep
import PhpDoc.Proofs.Rule.Guard
import PhpDoc.Proofs.Token.Neighbour

/-!
# Fixing keeps the code

When the slashes in the comments of a text are guarded, what a pass accepts writes every comment
anew as such a comment (`Fixer.Wrote.exists_body`), and outside of comments it drops white space
behind them and nothing else (`Fixer.Wrote.sparesCode`). White space on the line of a close marker
is kept, so the written text is a rewritten one (`Stream.Row.exists_rewritten`) and has the same
code. Its slashes are guarded again (`Pass.exists_guarded`), so by induction on the number of passes
the code is kept by all of them (`FixRun.exists_guarded`, `fix_keeps_code`).
-/

namespace PhpDoc

open Text Lexer

/-- The piece is valid, and the slashes of a comment are guarded. -/
def Lexer.Piece.Guarded : Piece → Prop
  | code l => (Piece.code l).Valid
  | space cs => (Piece.space cs).Valid
  | doc body => Lexer.Guarded body

/-- A guarded piece is a valid one. -/
theorem Lexer.Piece.Guarded.valid {p : Piece} (h : p.Guarded) : p.Valid := by
  cases p with
  | code l => exact h
  | space cs => exact h
  | doc body => exact Lexer.Guarded.closed h

namespace Stream

variable {s : Stream} {c : CommentSpan} {t : Token} {before front rest ts : List Token}
  {ps : List Piece} {w : Token → String}

/-- The lexemes of the stream without white space and comments. -/
def codeLexemes (s : Stream) : List Lexeme :=
  (s.tokens.toList.map Token.lexeme).filter (·.kind.isCode)

/-- The code of a stream is the code of its pieces. -/
theorem codeLexemes_ofLexemes (ps : List Piece) :
    (ofLexemes (lexemesOf ps)).codeLexemes = codeOf ps := by
  simp [codeLexemes, codeOf, ofLexemes, ofTokens]

/-- The slashes in the comments of the stream are guarded. -/
def SlashesGuarded (s : Stream) : Prop :=
  ∀ c ∈ s.comments, Lexer.Guarded (s.innerText c)

/-- The text between the markers of any comment of the stream is guarded. -/
theorem SlashesGuarded.of_frames (hs : s.Sound) (h : s.SlashesGuarded) (hc : s.Frames c) :
    Lexer.Guarded (s.innerText c) := by
  obtain ⟨d, hd, heq⟩ := hs.exists_of_open hc.opener hc.openerKind
  obtain rfl := (hs.frames hd).eq hc heq
  exact h d hd

/-! ## White space behind comments -/

/-- White space that trails a comment is white space of the code. -/
theorem Trails.kind (h : s.Trails t) (ht : s.Has t) : t.kind = .whitespace := by
  obtain ⟨closer, -, -, hlt, -, hspace⟩ := h
  exact hspace t ht hlt (Nat.le_refl _)

/-- White space that does not stand right behind a comment trails none. -/
theorem Placed.not_trails (hs : s.Placed) (heq : s.tokens.toList = before ++ (front ++ rest))
    (hfront : ∀ u ∈ front, u.kind = .whitespace)
    (hbefore : ∀ v ∈ before.getLast?, v.kind ≠ .docClose ∧ v.kind ≠ .whitespace)
    (ht : t ∈ front) : ¬ s.Trails t := by
  rintro ⟨closer, hcloser, hkind, hlt, -, hspace⟩
  have hmem := (has_iff_mem hs).1 hcloser
  rw [heq, List.mem_append, List.mem_append] at hmem
  rcases hmem with hmem | hmem | hmem
  · obtain ⟨lead, v, rfl⟩ :=
      (List.eq_nil_or_concat' before).resolve_left (List.ne_nil_of_mem hmem)
    obtain ⟨hclose, hwhite⟩ := hbefore v (by simp)
    have hv := (has_iff_mem hs).2 (show v ∈ s.tokens.toList by rw [heq]; simp)
    have hvt := hs.index_lt_of_append heq (t := v) (u := t) (by simp) (by simp [ht])
    have heq' : s.tokens.toList = lead ++ v :: (front ++ rest) := by simpa using heq
    rcases List.mem_append.1 hmem with hlead | hlast
    · have hcv := hs.index_lt_of_append heq' hlead List.mem_cons_self
      exact hwhite (hspace v hv hcv (Nat.le_of_lt hvt))
    · rw [List.mem_singleton.1 hlast] at hkind
      exact hclose hkind
  · rw [hfront closer hmem] at hkind
    cases hkind
  · rw [← List.append_assoc] at heq
    have := hs.index_lt_of_append heq (t := t) (by simp [ht]) hmem
    omega

/-- White space on the line of a close marker trails no comment. -/
theorem not_trails_next {closer : Token} (hcloser : s.Has closer)
    (hkind : closer.kind = .docClose) (hindex : t.index = closer.index + 1)
    (hline : t.line = closer.line) : ¬ s.Trails t := by
  rintro ⟨other, hother, -, hlt, hbelow, hspace⟩
  rcases Nat.lt_or_eq_of_le (Nat.le_of_lt_succ (hindex ▸ hlt)) with hbefore | hsame
  · rw [hspace closer hcloser hbefore (by omega)] at hkind
    cases hkind
  · rw [hother.eq hcloser hsame] at hbelow
    omega

/-- Outside of comments nothing is written anew but white space behind a comment, which is
dropped. -/
def SparesCode (s : Stream) (w : Token → String) : Prop :=
  ∀ t, s.Has t → t.kind.isDoc = false → w t ≠ t.text → w t = "" ∧ s.Trails t

/-- The tokens of a piece of white space are white space. -/
theorem kind_of_space {cs : List Char} (h : front.map Token.lexeme = (Piece.space cs).lexemes) :
    ∀ u ∈ front, u.kind = .whitespace := by
  intro u hu
  have hlexeme : u.lexeme ∈ (Piece.space cs).lexemes := h ▸ List.mem_map_of_mem hu
  obtain ⟨line, -, hline⟩ := List.mem_map.1 hlexeme
  exact (congrArg Lexeme.kind hline).symm

/-- Some of the white space behind a comment is kept: the first token of it stands on the line of
the close marker. -/
theorem SparesCode.valid_behind (hs : s.Sound) (hw : s.SparesCode w) {closer : Token}
    (heq : s.tokens.toList = before ++ closer :: (front ++ rest)) (hclose : closer.kind = .docClose)
    (hcloser : Unbroken closer.text.toList) {cs : List Char} (hcs : (Piece.space cs).Valid)
    (hfront : front.map Token.lexeme = (Piece.space cs).lexemes) :
    (Piece.space (front.flatMap fun t => (w t).toList)).Valid := by
  have hkind := kind_of_space hfront
  have hhas : ∀ {t}, t ∈ front → s.Has t := fun ht =>
    (has_iff_mem hs.toPlaced).2 (by rw [heq]; simp [ht])
  constructor
  · cases front with
    | nil =>
        have hchars := (Piece.space cs).charsOf_lexemes
        rw [← hfront] at hchars
        exact absurd hchars.symm hcs.1
    | cons u front =>
        have hu := hhas List.mem_cons_self
        have hwhite := hkind u List.mem_cons_self
        obtain ⟨hhas, -, hindex⟩ := hs.toPlaced.next_of_append heq
        have hline := (hs.toPlaced.unbroken_next hhas hu hindex hcloser).1
        have hkept : w u = u.text := by
          by_contra hne
          exact not_trails_next hhas hclose hindex hline (hw u hu (by rw [hwhite]; rfl) hne).2
        rw [List.flatMap_cons, hkept]
        simp [hs.text_ne_nil hu]
  · intro c hc
    obtain ⟨t, ht, hc⟩ := List.mem_flatMap.1 hc
    by_cases hkept : w t = t.text
    · exact hs.spaced (hhas ht) (hkind t ht) c (hkept ▸ hc)
    · rw [(hw t (hhas ht) (by rw [hkind t ht]; rfl) hkept).1] at hc
      cases hc

/-! ## Rewritten rows of tokens -/

/-- The tokens behind `before` are those of the pieces, which are valid, and no two of which are
runs of white space right behind each other. -/
structure Row (s : Stream) (ps : List Piece) (before ts : List Token) : Prop where
  valid : ∀ p ∈ ps, p.Valid
  parted : ps.IsChain Piece.Parted
  tokens : s.tokens.toList = before ++ ts
  lexemes : ts.map Token.lexeme = lexemesOf ps

/-- What is written for the tokens of the pieces is a rewritten text with guarded slashes. -/
def Rewritten (w : Token → String) (ps : List Piece) (ts : List Token) : Prop :=
  ∃ qs, Rewrites ps qs ∧ (textOf qs = ts.flatMap fun t => (w t).toList) ∧ ∀ q ∈ qs, q.Guarded

/-- The tokens of the first piece stand at the front of a row. -/
theorem Row.exists_front {p : Piece} (h : s.Row (p :: ps) before ts) :
    ∃ front rest, ts = front ++ rest ∧ front.map Token.lexeme = p.lexemes ∧
      s.Row ps (before ++ front) rest := by
  have hts := h.lexemes
  rw [lexemesOf_cons, List.map_eq_append_iff] at hts
  obtain ⟨front, rest, rfl, hfront, hrest⟩ := hts
  refine ⟨front, rest, rfl, hfront, (List.forall_mem_cons.1 h.valid).2,
    (List.isChain_cons.1 h.parted).2, ?_, hrest⟩
  rw [h.tokens, List.append_assoc]

/-- A row that starts with a comment starts with the tokens of that comment. -/
theorem Row.exists_comment {old : List Char} (hs : s.Placed)
    (h : s.Row (.doc old :: ps) before ts) :
    ∃ c lead rest, s.Frames c ∧ ts = lead ++ [c.closer] ++ rest ∧
      s.between c.opener.index (c.closer.index + 1) = lead ++ [c.closer] ∧
      s.Row ps (before ++ (lead ++ [c.closer])) rest := by
  obtain ⟨opener, inside, closer, rest, rfl, hopen, hclose, hinside, hrest, -⟩ :=
    CommentSpan.scan_doc h.lexemes
  obtain ⟨hframes, -, hall⟩ := hs.frames_of_append (List.forall_mem_cons.1 h.valid).1 h.tokens
    hopen hclose hinside
  refine ⟨_, opener :: inside, rest, hframes, by simp, hall, (List.forall_mem_cons.1 h.valid).2,
    (List.isChain_cons.1 h.parted).2, ?_, hrest⟩
  rw [h.tokens]
  simp

namespace Rewritten

/-- A piece of code is written as it was. -/
theorem code {l : Lexeme} (h : Rewritten w ps rest) (hl : (Piece.code l).Valid)
    (hfront : front.map Token.lexeme = (Piece.code l).lexemes) (hw : ∀ t ∈ front, w t = t.text) :
    Rewritten w (.code l :: ps) (front ++ rest) := by
  obtain ⟨qs, hqs, htext, hguarded⟩ := h
  refine ⟨.code l :: qs, .code hqs, ?_, List.forall_mem_cons.2 ⟨hl, hguarded⟩⟩
  rw [textOf_cons, htext, List.flatMap_append, chars_of_kept hfront hw]

/-- A piece of white space that no comment precedes is written as it was. -/
theorem space {cs : List Char} (h : Rewritten w ps rest) (hcs : (Piece.space cs).Valid)
    (hfront : front.map Token.lexeme = (Piece.space cs).lexemes)
    (hw : ∀ t ∈ front, w t = t.text) : Rewritten w (.space cs :: ps) (front ++ rest) := by
  obtain ⟨qs, hqs, htext, hguarded⟩ := h
  refine ⟨.space cs :: qs, .space hqs, ?_, List.forall_mem_cons.2 ⟨hcs, hguarded⟩⟩
  rw [textOf_cons, htext, List.flatMap_append, chars_of_kept hfront hw]

/-- A comment may be written with another guarded body. -/
theorem doc {old body : List Char} (h : Rewritten w ps rest) (hbody : Lexer.Guarded body)
    (hfront : (front.flatMap fun t => (w t).toList) = (Piece.doc body).chars) :
    Rewritten w (.doc old :: ps) (front ++ rest) := by
  obtain ⟨qs, hqs, htext, hguarded⟩ := h
  refine ⟨.doc body :: qs, .doc hbody.closed hqs, ?_, List.forall_mem_cons.2 ⟨hbody, hguarded⟩⟩
  rw [textOf_cons, htext, List.flatMap_append, hfront]

/-- A comment and the white space behind it may be written with other blanks. -/
theorem docSpace {old body cs : List Char} {space : List Token} (h : Rewritten w ps rest)
    (hbody : Lexer.Guarded body)
    (hfront : (front.flatMap fun t => (w t).toList) = (Piece.doc body).chars)
    (hspace : (Piece.space (space.flatMap fun t => (w t).toList)).Valid) :
    Rewritten w (.doc old :: .space cs :: ps) (front ++ (space ++ rest)) := by
  obtain ⟨qs, hqs, htext, hguarded⟩ := h
  refine ⟨.doc body :: .space _ :: qs, .docSpace hbody.closed hspace hqs, ?_,
    List.forall_mem_cons.2 ⟨hbody, List.forall_mem_cons.2 ⟨hspace, hguarded⟩⟩⟩
  rw [textOf_cons, textOf_cons, htext, List.flatMap_append, List.flatMap_append, hfront]
  rfl

end Rewritten

/-- What is written for a row of tokens is a rewritten text, when every comment is written anew with
guarded slashes and code is spared. -/
theorem Row.exists_rewritten (hs : s.Sound) (hw : s.SparesCode w)
    (hdoc : ∀ c, s.Frames c → ∃ body, Lexer.Guarded body ∧
      s.writes w c.opener.index (c.closer.index + 1) = ['/', '*', '*'] ++ body ++ ['*', '/'])
    (h : s.Row ps before ts) (hbefore : ∀ cs, ps.head? = some (.space cs) →
      ∀ v ∈ before.getLast?, v.kind ≠ .docClose ∧ v.kind ≠ .whitespace) :
    Rewritten w ps ts := by
  -- a comment is taken with the white space behind it, so the induction is on the length
  induction hn : ps.length using Nat.strong_induction_on generalizing ps before ts with
  | _ n ih =>
  cases ps with
  | nil =>
      obtain rfl := List.map_eq_nil_iff.1 h.lexemes
      exact ⟨[], .nil, rfl, by simp⟩
  | cons p ps =>
      have hp := (List.forall_mem_cons.1 h.valid).1
      have hnext := (List.isChain_cons.1 h.parted).1
      rw [List.length_cons] at hn
      cases p with
      | code l =>
          obtain ⟨front, rest, rfl, hfront, hrow⟩ := h.exists_front
          obtain ⟨t, none, rfl, hlexeme, hnone⟩ := List.map_eq_cons_iff.1 hfront
          obtain rfl := List.map_eq_nil_iff.1 hnone
          have hkind : t.kind.isCode = true := by
            rw [← Token.lexeme_kind, hlexeme]
            exact hp.1
          simp only [Kind.isCode, Bool.and_eq_true, bne_iff_ne, Bool.not_eq_eq_eq_not,
            Bool.not_true] at hkind
          have ht : s.Has t := (has_iff_mem hs.toPlaced).2 (by rw [h.tokens]; simp)
          have hkept : w t = t.text := by
            by_contra hne
            exact hkind.1 ((hw t ht hkind.2 hne).2.kind ht)
          refine (ih ps.length (by omega) hrow (fun cs _ v hv => ?_) rfl).code hp hfront
            (by simpa using hkept)
          obtain rfl : t = v := by simpa using hv
          refine ⟨fun hclose => ?_, hkind.1⟩
          rw [hclose] at hkind
          cases hkind.2
      | space cs =>
          obtain ⟨front, rest, rfl, hfront, hrow⟩ := h.exists_front
          have hwhite := kind_of_space hfront
          refine (ih ps.length (by omega) hrow
            (fun ds hds => absurd rfl (hnext _ hds cs ds rfl)) rfl).space hp hfront fun t ht => ?_
          by_contra hne
          have hhas : s.Has t := (has_iff_mem hs.toPlaced).2 (by rw [h.tokens]; simp [ht])
          exact hs.toPlaced.not_trails h.tokens hwhite (hbefore cs rfl) ht
            (hw t hhas (by rw [hwhite t ht]; rfl) hne).2
      | doc old =>
          obtain ⟨c, lead, rest, hframes, rfl, hall, hrow⟩ := h.exists_comment hs.toPlaced
          obtain ⟨body, hbody, hwrites⟩ := hdoc c hframes
          rw [writes, hall] at hwrites
          by_cases hspace : ∃ cs qs, ps = .space cs :: qs
          · obtain ⟨cs, ps, rfl⟩ := hspace
            have hcs := (List.forall_mem_cons.1 hrow.valid).1
            have hnext := (List.isChain_cons.1 hrow.parted).1
            obtain ⟨front, rest, rfl, hfront, hrest⟩ := hrow.exists_front
            have htokens : s.tokens.toList = before ++ lead ++ c.closer :: (front ++ rest) := by
              simpa using h.tokens
            have hvalid := hw.valid_behind hs htokens hframes.closerKind
              (by rw [hframes.closerText]; decide) hcs hfront
            rw [List.length_cons] at hn
            exact (ih ps.length (by omega) hrest
              (fun ds hds => absurd rfl (hnext _ hds cs ds rfl)) rfl).docSpace hbody hwrites hvalid
          · refine (ih ps.length (by omega) hrow (fun ds hds => ?_) rfl).doc hbody hwrites
            obtain ⟨qs, rfl⟩ := List.head?_eq_some_iff.1 hds
            exact absurd ⟨ds, qs, rfl⟩ hspace

end Stream

/-! ## Passes -/

variable {s : Stream} {f : Fixer} {cs : List Changeset}

/-- What a fixer wrote for repairs spares the code. -/
theorem Fixer.Wrote.sparesCode (hs : s.Sound) (h : f.Wrote s cs)
    (hcs : ∀ change ∈ cs, Repair s change) : s.SparesCode f.written := by
  intro t ht hkind hne
  rcases h.written_cases ht with hkept | ⟨change, hchange, hchanged, hwritten⟩
  · exact absurd hkept hne
  · rw [hwritten]
    exact (hcs change hchange).trails hs ht hkind hchanged

/-- What repairs write for a comment with guarded slashes is such a comment. -/
theorem Fixer.Wrote.exists_body (hs : s.Sound) (h : f.Wrote s cs)
    (hcs : ∀ change ∈ cs, Repair s change) {c : CommentSpan} (hc : s.Frames c)
    (hguarded : Lexer.Guarded (s.innerText c)) : ∃ body, Lexer.Guarded body ∧
      s.writes f.written c.opener.index (c.closer.index + 1) =
        ['/', '*', '*'] ++ body ++ ['*', '/'] := by
  refine hc.exists_guarded hs.toPlaced hguarded fun t ht hcovers => ?_
  rcases h.written_cases ht with hkept | ⟨change, hchange, -, hwritten⟩
  · rw [hkept]
    exact hc.guards_text ht hcovers.1 hcovers.2
  · rw [hwritten]
    exact (hcs change hchange).guards hs hc t ht hcovers

/-- A pass over a text with guarded slashes writes such a text with the same code. -/
theorem Pass.exists_guarded (config : Config) {text : String} (h : tokenize text = .ok s)
    (hguarded : s.SlashesGuarded) :
    ∃ pass s', run config text = .ok pass ∧ tokenize pass.fixer.text = .ok s' ∧
      s'.SlashesGuarded ∧ s'.codeLexemes = s.codeLexemes := by
  obtain ⟨findings, -, heffective, -, hrun⟩ := exists_run config h
  have hs := Stream.sound_of_tokenize h
  obtain ⟨ps, hps, -, hreads, hstream⟩ := Stream.exists_pieces h
  obtain ⟨cs, hwrote, hcs⟩ :=
    exists_wrote (fun change hrepair => (Repair.changes hs hrepair).fits) heffective
  have hrow : s.Row ps [] s.tokens.toList := {
    valid := hps
    parted := hreads.parted hps
    tokens := rfl
    lexemes := by
      rw [hstream]
      simp [Stream.ofTokens] }
  obtain ⟨qs, hrewrites, htext, hqs⟩ := hrow.exists_rewritten hs (hwrote.sparesCode hs hcs)
    (fun c hc => hwrote.exists_body hs hcs hc (hguarded.of_frames hs hc)) (by simp)
  -- the lexer takes the rewritten text apart into the rewritten pieces
  have hread := Stream.tokenize_textOf (hreads.rewrite hrewrites)
    (htext.trans (hwrote.toList_text hs.toPlaced).symm)
  refine ⟨_, Stream.ofLexemes (lexemesOf qs), hrun, hread, fun c hc => ?_, ?_⟩
  · exact hqs _ (Stream.exists_doc_of_mem (fun q hq => (hqs q hq).valid) hc)
  · rw [Stream.codeLexemes_ofLexemes, hrewrites.code_eq, ← Stream.codeLexemes_ofLexemes, hstream]
    rfl

/-- However many passes run over a text with guarded slashes, its code is kept. -/
theorem FixRun.exists_guarded (config : Config) (limit : Nat) {text : String} {s : Stream}
    (h : tokenize text = .ok s) (hguarded : s.SlashesGuarded) :
    ∃ result converged s', (upTo config limit text).outcome = .ok (result, converged) ∧
      tokenize result = .ok s' ∧ s'.codeLexemes = s.codeLexemes := by
  induction limit generalizing text s with
  | zero => exact ⟨text, false, s, rfl, h, rfl⟩
  | succ limit ih =>
      obtain ⟨pass, s', hrun, hread, hguarded', hcode⟩ := Pass.exists_guarded config h hguarded
      rw [upTo, hrun]
      cases hchanged : pass.fixer.changed with
      | false => exact ⟨text, true, s, by simp [hchanged], h, rfl⟩
      | true =>
          obtain ⟨result, converged, s'', houtcome, hresult, hcode'⟩ := ih hread hguarded'
          exact ⟨result, converged, s'', by simpa [hchanged] using houtcome, hresult,
            hcode'.trans hcode⟩

/-- Fixing keeps the code of a text in whose comments every slash has something else than stars and
blanks in front of it on its line: however many passes are allowed, none of them fails, and the
result has the same tokens but for white space and comments. -/
theorem fix_keeps_code (config : Config) (limit : Nat) {text : String} {s : Stream}
    (h : tokenize text = .ok s) (guarded : ∀ c ∈ s.comments, Guarded (s.innerText c)) :
    ∃ r s', (FixRun.upTo config limit text).result config = .ok r ∧ tokenize r.text = .ok s' ∧
      s'.codeLexemes = s.codeLexemes := by
  obtain ⟨result, converged, s', houtcome, hread, hcode⟩ :=
    FixRun.exists_guarded config limit h guarded
  obtain ⟨findings, -, -, hcheck, -⟩ := Pass.exists_run config hread
  have hresult : (FixRun.upTo config limit text).result config =
      .ok ⟨result, (FixRun.upTo config limit text).passes.length, converged,
        (FixRun.upTo config limit text).fixedCount, findings⟩ := by
    simp only [FixRun.result, houtcome, bind, Except.bind, hcheck]
    rfl
  exact ⟨_, s', hresult, hread, hcode⟩

/-- A pass takes the white space off a line of a comment and leaves the slash behind a word. -/
theorem fix_keeps_slashed_word :
    let text := "<?php\n/** @param i  $x F\n * a/b */\nfunction f($x) {}"
    ∃ s r s', tokenize text = .ok s ∧ (∀ c ∈ s.comments, Guarded (s.innerText c)) ∧
      (FixRun.upTo Config.default 1 text).result Config.default = .ok r ∧
      r.text = "<?php\n/**\n * @param i $x F\n *a/b\n */\nfunction f($x) {}" ∧
      tokenize r.text = .ok s' ∧ s'.codeLexemes = s.codeLexemes := by
  intro text
  obtain ⟨s, hs, hall⟩ := Lint.exists_ok_of_any (x := tokenize text)
    (p := fun s => s.comments.all fun c => decide (Guarded (s.innerText c))) (by decide +kernel)
  have hguarded : ∀ c ∈ s.comments, Guarded (s.innerText c) := by simpa using hall
  obtain ⟨r, s', hr, hs', hcode⟩ := fix_keeps_code Config.default 1 hs hguarded
  obtain ⟨found, hfound, htext⟩ := Lint.exists_ok_of_any
    (x := (FixRun.upTo Config.default 1 text).result Config.default)
    (p := (·.text == "<?php\n/**\n * @param i $x F\n *a/b\n */\nfunction f($x) {}"))
    (by decide +kernel)
  obtain rfl : r = found := Except.ok.inj (hr.symm.trans hfound)
  exact ⟨s, r, s', hs, hguarded, hr, by simpa using htext, hs', hcode⟩

/-- A slash with nothing but a star and a blank in front of it may come to close the comment. -/
example :
    let text := "<?php\n/** @param i  $x F\n * /b */\nfunction f($x) {}"
    ((FixRun.upTo Config.default 1 text).result Config.default).toOption.map (·.text) =
      some "<?php\n/**\n * @param i $x F\n */b\n */\nfunction f($x) {}" := by
  decide +kernel

end PhpDoc
