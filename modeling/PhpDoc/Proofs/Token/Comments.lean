import PhpDoc.Proofs.Token.DocLine
import PhpDoc.Proofs.Token.Rewrite

/-!
# The doc comments of source text

The comments of a stream are exactly what the line grammar says (`comments_grammar`): markers come
in pairs that do not overlap, between them stand proper lines, and every tag belongs to one comment.
In the other direction, proper lines whose text closes no comment can be written between markers
anywhere in code, and are read back.
-/

namespace PhpDoc

open Text Lexer

namespace CommentSpan

variable {ts us : List Token} {ps : List Piece} {c : CommentSpan}

/-- The markers of a comment stand among the tokens. -/
theorem Framed.mem (h : Framed ts c) : c.opener ∈ ts ∧ c.closer ∈ ts := by
  obtain ⟨before, inside, after, rfl, -⟩ := h
  simp

/-- Comments do not overlap. -/
theorem pairwise_scan (hps : ∀ p ∈ ps, p.Valid) (hts : ts.map Token.lexeme = lexemesOf ps)
    (hsorted : ts.Pairwise fun t u => t.index < u.index) :
    (scan none ts).Pairwise fun c d => c.closer.index < d.opener.index := by
  induction ps generalizing ts with
  | nil =>
      obtain rfl := List.map_eq_nil_iff.1 hts
      exact .nil
  | cons p ps ih =>
      obtain ⟨hp, hrow⟩ := List.forall_mem_cons.1 hps
      by_cases hdoc : ∃ body, p = .doc body
      · obtain ⟨body, rfl⟩ := hdoc
        obtain ⟨opener, inside, closer, rest, rfl, hopen, hclose, -, hrest, hkinds⟩ := scan_doc hts
        rw [scan_comment (congrArg Lexeme.kind hopen) (congrArg Lexeme.kind hclose) hkinds]
        obtain ⟨-, htail, -⟩ := List.pairwise_append.1 hsorted
        obtain ⟨hfirst, htail⟩ := List.pairwise_cons.1 htail
        refine List.pairwise_cons.2 ⟨fun d hd => ?_, ih hrow hrest htail⟩
        exact hfirst _ (framed_of_mem hrow hrest hd).mem.1
      · obtain ⟨front, rest, rfl, hfront, hrest⟩ :=
          scan_piece hp (fun body heq => hdoc ⟨body, heq⟩) hts
        rw [scan_append hfront]
        exact ih hrow hrest (List.pairwise_append.1 hsorted).2.1

/-- The tags of the comments are the tags among the tokens. -/
theorem tags_scan (hps : ∀ p ∈ ps, p.Valid) (hts : ts.map Token.lexeme = lexemesOf ps) :
    (scan none ts).flatMap (·.tags) = ts.filter (·.kind == .docTag) := by
  induction ps generalizing ts with
  | nil =>
      obtain rfl := List.map_eq_nil_iff.1 hts
      rfl
  | cons p ps ih =>
      obtain ⟨hp, hrow⟩ := List.forall_mem_cons.1 hps
      by_cases hdoc : ∃ body, p = .doc body
      · obtain ⟨body, rfl⟩ := hdoc
        obtain ⟨opener, inside, closer, rest, rfl, hopen, hclose, -, hrest, hkinds⟩ := scan_doc hts
        have hopenKind : opener.kind = .docOpen := congrArg Lexeme.kind hopen
        have hcloseKind : closer.kind = .docClose := congrArg Lexeme.kind hclose
        rw [scan_comment hopenKind hcloseKind hkinds, List.flatMap_cons, ih hrow hrest]
        simp [hopenKind, hcloseKind]
      · obtain ⟨front, rest, rfl, hfront, hrest⟩ :=
          scan_piece hp (fun body heq => hdoc ⟨body, heq⟩) hts
        have hnone : front.filter (·.kind == .docTag) = [] := by
          rw [List.filter_eq_nil_iff]
          intro t ht htag
          have hcode := hfront t ht
          rw [beq_iff_eq.1 htag] at hcode
          cases hcode
        rw [scan_append hfront, ih hrow hrest, List.filter_append, hnone, List.nil_append]

end CommentSpan

namespace Token

/-- Tokens are numbered upwards. -/
theorem pairwise_place (n : Nat) (p : Position) (ls : List Lexeme) :
    (place n p ls).Pairwise fun t u => t.index < u.index := by
  rw [List.pairwise_iff_getElem]
  intro i j hi hj hij
  rw [index_place (List.getElem?_eq_getElem hi), index_place (List.getElem?_eq_getElem hj)]
  omega

end Token

namespace Stream

variable {s : Stream} {t : Token} {c : CommentSpan}

/-- The comments of the stream are what the line grammar says. -/
structure WellCommented (s : Stream) : Prop where
  opener : ∀ t, s.Has t → t.kind = .docOpen → ∃ c, s.commentAt? t.index = some c ∧ c.opener = t
  closer : ∀ t, s.Has t → t.kind = .docClose →
    ∃ c, s.commentClosedAt? t.index = some c ∧ c.closer = t
  paired : ∀ c ∈ s.comments, c.opener.index < c.closer.index ∧
    s.commentAt? c.opener.index = some c ∧ s.commentClosedAt? c.closer.index = some c
  apart : s.comments.Pairwise fun c d => c.closer.index < d.opener.index
  lines : ∀ c ∈ s.comments, ∃ lines : DocLines, lines.Proper true ∧
    Closed (charsOf lines.lexemes) ∧
    (s.between c.opener.index (c.closer.index + 1)).map Token.lexeme =
      ⟨.docOpen, "/**"⟩ :: lines.lexemes ++ [⟨.docClose, "*/"⟩]
  strings : ∀ c ∈ s.comments, ∀ t ∈ s.inside c, t.kind = .docString → Unclosed t.text.toList
  tagged : ∀ c ∈ s.comments, c.tags = (s.inside c).filter (·.kind == .docTag)
  tags : s.comments.flatMap (·.tags) = s.tokens.toList.filter (·.kind == .docTag)

/-- The tokens of a comment are its markers and what stands between them. -/
theorem Frames.between_eq (h : s.Frames c) :
    s.between c.opener.index (c.closer.index + 1) = c.opener :: s.inside c ++ [c.closer] := by
  rw [between_split h.closer (Nat.le_of_lt h.lt) (Nat.lt_succ_self _), between_cons h.opener h.lt,
    inside]
  simp [between]

/-- Each comment is found at its open marker and at its close marker. -/
theorem commentAt?_of_apart
    (hapart : s.comments.Pairwise fun c d => c.closer.index < d.opener.index)
    (hlt : ∀ c ∈ s.comments, c.opener.index < c.closer.index) (hc : c ∈ s.comments) :
    s.commentAt? c.opener.index = some c ∧ s.commentClosedAt? c.closer.index = some c := by
  obtain ⟨front, rest, heq⟩ := List.append_of_mem hc
  rw [heq] at hapart
  -- a search for a marker of the comment passes those in front, which have other markers
  obtain ⟨-, -, hfront⟩ := List.pairwise_append.1 hapart
  have hbefore : ∀ d ∈ front,
      d.opener.index < c.opener.index ∧ d.closer.index < c.closer.index := by
    intro d hd
    have hdlt := hlt d (by simp [heq, hd])
    have hclt := hlt c hc
    have hmeet := hfront d hd c List.mem_cons_self
    omega
  constructor
  · refine List.find?_eq_some_iff_append.2 ⟨by simp, front, rest, heq, fun d hd => ?_⟩
    simp [Nat.ne_of_lt (hbefore d hd).1]
  · refine List.find?_eq_some_iff_append.2 ⟨by simp, front, rest, heq, fun d hd => ?_⟩
    simp [Nat.ne_of_lt (hbefore d hd).2]

/-- The comments of a source text are what the line grammar says. -/
theorem wellCommented_of_tokenize {text : String} (h : tokenize text = .ok s) :
    s.WellCommented := by
  have hs := sound_of_tokenize h
  obtain ⟨ps, hps, -, -, rfl⟩ := exists_pieces h
  have hmap := Token.map_lexeme_place 0 Position.start (lexemesOf ps)
  have hapart := CommentSpan.pairwise_scan hps hmap (Token.pairwise_place 0 Position.start _)
  have hlt := fun c hc => (hs.frames (c := c) hc).lt
  have hfound := fun c hc => commentAt?_of_apart (c := c) hapart hlt hc
  refine ⟨fun t ht hkind => ?_, fun t ht hkind => ?_, fun c hc => ⟨hlt c hc, hfound c hc⟩, hapart,
    fun c hc => ?_, fun c hc t ht hkind => ?_, fun c hc => (hs.frames hc).tags,
    CommentSpan.tags_scan hps hmap⟩
  · obtain ⟨c, hc, rfl⟩ := hs.exists_of_open ht hkind
    exact ⟨c, (hfound c hc).1, rfl⟩
  · obtain ⟨c, hc, rfl⟩ := hs.exists_of_close ht hkind
    exact ⟨c, (hfound c hc).2, rfl⟩
  · have hframes := hs.frames hc
    obtain ⟨body, hclosed, hinside⟩ := hframes.body
    obtain ⟨lines, hlines, hlexemes⟩ := exists_lines body
    refine ⟨lines, hlines, ?_, ?_⟩
    · rwa [hlexemes, charsOf_docBody]
    · rw [hframes.between_eq, hlexemes, ← hinside, ← hframes.opens, ← hframes.closes]
      simp
  · -- a string is an infix of the body, which holds no close marker
    obtain ⟨body, hclosed, hinside⟩ := (hs.frames hc).body
    have hmem : t.lexeme ∈ docBody body := hinside ▸ List.mem_map_of_mem ht
    obtain ⟨front, back, heq⟩ := List.append_of_mem hmem
    have hbody : charsOf front ++ t.text.toList ++ charsOf back = body := by
      rw [← charsOf_docBody body, heq]
      simp
    exact Unclosed.of_isInfix ⟨_, _, hbody⟩ hclosed.unclosed

end Stream

namespace Lexer

/-- A comment is read anywhere in code, and what stands behind it is read after it. -/
theorem lexFrom_doc {body : List Char} (h : Closed body) (previous : Option Lexeme)
    (rest : List Char) :
    lexFrom .code previous ("/**".toList ++ body ++ "*/".toList ++ rest) =
      (lexFrom .code (some ⟨.docClose, "*/"⟩) rest).prepend (docComment body) := by
  have hchars : "/**".toList ++ body ++ "*/".toList ++ rest =
      '/' :: '*' :: '*' :: (body ++ '*' :: '/' :: rest) := by
    simp
  have hdrop : ('*' :: '*' :: (body ++ '*' :: '/' :: rest)).drop (body.length + 5 - 1) = rest := by
    have hlen : body.length + 5 - 1 = ('*' :: '*' :: (body ++ ['*', '/'])).length := by simp
    rw [hlen, show '*' :: '*' :: (body ++ '*' :: '/' :: rest) =
      '*' :: '*' :: (body ++ ['*', '/']) ++ rest by simp, List.drop_left]
  rw [hchars, lexFrom]
  simp only [step_doc h, hdrop, lastSignificant_doc]

/-- A comment can be read behind an open tag and a space. -/
theorem reads_doc {body : List Char} (h : Closed body) :
    Reads .html none [.code ⟨.openTag, "<?php"⟩, .space [' '], .doc body] := by
  have hspace : (Piece.space [' ']).Valid := ⟨by simp, by simp [isCodeSpace]⟩
  have hstop : (textOf [.doc body]).takeWhile isCodeSpace = [] := by
    rw [textOf_doc]
    rfl
  have hfound : openTag? ([] ++ "<?php".toList ++ textOf [.space [' '], .doc body]) = some (0, 5) :=
    rfl
  have hreads : Reads .html none (html? [] ++ .code ⟨.openTag, String.ofList "<?php".toList⟩ ::
      [.space [' '], .doc body]) :=
    .openTag hfound (.spaceCons hspace hstop (.doc h .nil))
  exact hreads

end Lexer

namespace Stream

/-- The doc comments of every source text are the lines of a grammar between paired markers, and
lines of the grammar that close no comment are read back wherever a comment may stand. -/
theorem comments_grammar :
    (∀ text s, tokenize text = .ok s → s.WellCommented) ∧
      ∀ lines : DocLines, lines.Proper true → Closed (charsOf lines.lexemes) →
        (∀ previous rest, lexFrom .code previous
            ("/**".toList ++ charsOf lines.lexemes ++ "*/".toList ++ rest) =
          (lexFrom .code (some ⟨.docClose, "*/"⟩) rest).prepend
            (⟨.docOpen, "/**"⟩ :: lines.lexemes ++ [⟨.docClose, "*/"⟩])) ∧
        ∃ s, tokenize ("<?php /**" ++ String.ofList (charsOf lines.lexemes) ++ "*/") = .ok s ∧
          s.tokens.toList.map Token.lexeme = ⟨.openTag, "<?php"⟩ :: ⟨.whitespace, " "⟩ ::
            ⟨.docOpen, "/**"⟩ :: lines.lexemes ++ [⟨.docClose, "*/"⟩] := by
  refine ⟨fun text s => wellCommented_of_tokenize, fun lines hlines hclosed => ⟨?_, ?_⟩⟩
  · intro previous rest
    rw [lexFrom_doc hclosed, docComment, DocLines.docBody_charsOf hlines]
  · refine ⟨_, tokenize_textOf (reads_doc hclosed) ?_, ?_⟩
    · simp [Piece.chars]
    · have hlexemes : lexemesOf [.code ⟨.openTag, "<?php"⟩, .space [' '],
          .doc (charsOf lines.lexemes)] = ⟨.openTag, "<?php"⟩ :: ⟨.whitespace, " "⟩ ::
            ⟨.docOpen, "/**"⟩ :: lines.lexemes ++ [⟨.docClose, "*/"⟩] := by
        simp only [lexemesOf_cons, lexemesOf_nil, Piece.lexemes, docComment,
          DocLines.docBody_charsOf hlines, List.append_nil]
        rfl
      rw [← hlexemes]
      exact Token.map_lexeme_place 0 Position.start _

/-- The comment of a tag with a value, from its text to its lines and back. -/
theorem comments_grammar_valued : ∃ lines : DocLines, lines.Proper true ∧
    Closed (charsOf lines.lexemes) ∧ ∃ s, tokenize "<?php /** @a b */" = .ok s ∧
      s.WellCommented ∧ s.tokens.toList.map Token.lexeme = ⟨.openTag, "<?php"⟩ ::
        ⟨.whitespace, " "⟩ :: ⟨.docOpen, "/**"⟩ :: lines.lexemes ++ [⟨.docClose, "*/"⟩] := by
  have htag : IsTag ['@', 'a'] := by
    refine ⟨['a'], rfl, by simp, fun c hc => ?_⟩
    rw [List.mem_singleton.1 hc]
    decide
  have hblank : IsBlanks [' '] := by simp [IsBlanks, isBlank]
  have hstring : IsString ['b'] :=
    ⟨by simp, by simp [isLineBreak], by simp [isBlank], by simp [isBlank]⟩
  have hproper : (DocLines.last ⟨[' '], none, some (.valued ['@', 'a'] [' '] ['b'], [' '])⟩).Proper
      true := by
    refine ⟨hblank, fun _ => rfl, by simp, ?_⟩
    rintro _ _ ⟨⟩
    exact ⟨⟨htag, hblank, hstring, by simp⟩, hblank⟩
  have hchars : charsOf (DocLines.last
      ⟨[' '], none, some (.valued ['@', 'a'] [' '] ['b'], [' '])⟩).lexemes =
        [' ', '@', 'a', ' ', 'b', ' '] := rfl
  have hclosed : Closed (charsOf (DocLines.last
      ⟨[' '], none, some (.valued ['@', 'a'] [' '] ['b'], [' '])⟩).lexemes) := by
    rw [hchars]
    exact ⟨unclosed_of_not_mem (by simp), by simp⟩
  obtain ⟨s, hs, hlexemes⟩ := (comments_grammar.2 _ hproper hclosed).2
  exact ⟨_, hproper, hclosed, s, hs, comments_grammar.1 _ s hs, hlexemes⟩

end Stream

end PhpDoc
