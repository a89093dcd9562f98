import PhpDoc.Proofs.Token.Span

/-!
# Streams of source text

`Stream.Sound` collects what is known of the tokens of every source text: they stand where they say,
none is empty, white space and the tokens of comments end at most one line each, and the comments of
the stream are the doc comments of the text. `sound_of_tokenize` proves it.
-/

namespace PhpDoc

open Text Lexer

namespace Lexer

/-- What the text of a lexeme of source text is made of. -/
structure Shaped (l : Lexeme) : Prop where
  nonempty : l.text.toList ≠ []
  lined : l.kind.isCode = false → Lined l.text.toList
  spaced : l.kind = .whitespace → ∀ c ∈ l.text.toList, isCodeSpace c = true
  blank : l.kind = .docBlank → IsEnding l.text.toList ∨ ∀ c ∈ l.text.toList, isBlank c = true

/-- The lexemes of a valid piece have the shapes of their kinds. -/
theorem Piece.shaped {p : Piece} (hp : p.Valid) {l : Lexeme} (hl : l ∈ p.lexemes) : Shaped l := by
  cases p with
  | code m =>
      rw [List.mem_singleton.1 hl]
      refine ⟨hp.2, fun h => ?_, fun h => ?_, fun h => ?_⟩
      · rw [hp.1] at h
        cases h
      · have hcode := hp.1
        rw [h] at hcode
        cases hcode
      · have hcode := hp.1
        rw [h] at hcode
        cases hcode
  | space cs =>
      obtain ⟨line, hline, rfl⟩ := List.mem_map.1 hl
      have hsub : line.Sublist cs := by
        have hflat := List.sublist_flatten_of_mem hline
        rwa [flatten_cutLines] at hflat
      refine ⟨?_, fun _ => ?_, fun _ c hc => hp.2 c ?_, by simp⟩
      · rw [String.toList_ofList]
        exact ne_nil_of_mem_cutLines hline
      · rw [String.toList_ofList]
        exact lined_of_mem_cutLines hline
      · rw [String.toList_ofList] at hc
        exact hsub.mem hc
  | doc body =>
      simp only [Piece.lexemes, docComment, List.cons_append, List.mem_cons, List.mem_append,
        List.not_mem_nil, or_false] at hl
      rcases hl with rfl | hl | rfl
      · exact ⟨by simp, fun _ => .inl unbroken_open, by simp, by simp⟩
      · obtain ⟨q, hrun⟩ := run_docBody body
        obtain ⟨_, _, move⟩ := hrun.exists_move hl
        refine ⟨move.text_ne_nil, fun _ => move.lined, fun hkind => ?_, fun hkind => ?_⟩
        · rcases move.kind with h | h | h | h <;> rw [h] at hkind <;> cases hkind
        · rcases move.blank_or_ending hkind with ⟨hending, -⟩ | ⟨hblank, -⟩
          · exact .inl hending
          · exact .inr hblank
      · exact ⟨by simp, fun _ => .inl unbroken_close, by simp, by simp⟩

end Lexer

namespace Stream

variable {s : Stream} {t : Token} {c : CommentSpan}

/-- The tokens between the markers of a comment. -/
def inside (s : Stream) (c : CommentSpan) : List Token :=
  s.between (c.opener.index + 1) c.closer.index

/-- The span is a doc comment of the stream, with all of its tags. -/
structure Frames (s : Stream) (c : CommentSpan) : Prop where
  opener : s.Has c.opener
  closer : s.Has c.closer
  opens : c.opener.lexeme = ⟨.docOpen, "/**"⟩
  closes : c.closer.lexeme = ⟨.docClose, "*/"⟩
  lt : c.opener.index < c.closer.index
  body : ∃ body, Closed body ∧ (s.inside c).map Token.lexeme = docBody body
  tags : c.tags = (s.inside c).filter (·.kind == .docTag)

/-- What is known of the stream of every source text. -/
structure Sound (s : Stream) : Prop extends Placed s where
  text_ne_nil : ∀ {t}, s.Has t → t.text.toList ≠ []
  lined : ∀ {t}, s.Has t → t.kind.isCode = false → Lined t.text.toList
  spaced : ∀ {t}, s.Has t → t.kind = .whitespace → ∀ c ∈ t.text.toList, isCodeSpace c = true
  blank : ∀ {t}, s.Has t → t.kind = .docBlank →
    IsEnding t.text.toList ∨ ∀ c ∈ t.text.toList, isBlank c = true
  frames : ∀ {c}, c ∈ s.comments → s.Frames c
  exists_of_open : ∀ {t}, s.Has t → t.kind = .docOpen → ∃ c ∈ s.comments, c.opener = t
  exists_of_close : ∀ {t}, s.Has t → t.kind = .docClose → ∃ c ∈ s.comments, c.closer = t

/-- The tokens of a stream are those of its row. -/
theorem has_iff_mem (h : s.Placed) : s.Has t ↔ t ∈ s.tokens.toList := by
  constructor
  · intro ht
    exact List.mem_of_getElem? (i := t.index) (by simpa [Has, get?] using ht)
  · intro ht
    obtain ⟨i, hi⟩ := List.mem_iff_getElem?.1 ht
    exact h.has_of_get? (i := i) (by simpa [get?] using hi)

/-- A token stands behind the tokens in front of it. -/
theorem Placed.has_of_append (h : s.Placed) (before after : List Token)
    (heq : s.tokens.toList = before ++ t :: after) : s.Has t ∧ t.index = before.length := by
  have hget : s.get? before.length = some t := by
    rw [get?, ← Array.getElem?_toList, heq]
    simp
  exact ⟨h.has_of_get? hget, h.index hget⟩

/-- A range of the stream is the piece of its row in that place. -/
theorem between_of_append (before inside after : List Token) {i j : Nat}
    (heq : s.tokens.toList = before ++ (inside ++ after)) (hi : i = before.length)
    (hj : j = before.length + inside.length) : s.between i j = inside := by
  subst hi hj
  unfold between
  rw [Array.toList_extract, List.extract_eq_take_drop, heq, List.drop_left,
    Nat.add_sub_cancel_left, List.take_left]

/-- A comment among the tokens is a comment of the stream. -/
theorem Placed.frames_of_framed (h : s.Placed) (hc : CommentSpan.Framed s.tokens.toList c) :
    s.Frames c := by
  obtain ⟨before, inside, after, heq, hopens, hcloses, hbody, htags⟩ := hc
  obtain ⟨hopener, hopenerIndex⟩ := h.has_of_append before (inside ++ c.closer :: after) heq
  obtain ⟨hcloser, hcloserIndex⟩ :=
    h.has_of_append (before ++ c.opener :: inside) after (by simpa using heq)
  have hlen : c.closer.index = c.opener.index + 1 + inside.length := by
    rw [hcloserIndex, hopenerIndex]
    simp only [List.length_append, List.length_cons]
    omega
  have hinside : s.inside c = inside := by
    refine between_of_append (before ++ [c.opener]) inside (c.closer :: after)
      (by simpa using heq) ?_ ?_
    · simp [hopenerIndex]
    · rw [hlen, hopenerIndex]
      simp
  rw [← hinside] at hbody htags
  exact ⟨hopener, hcloser, hopens, hcloses, by omega, hbody, htags⟩

/-- The stream of valid pieces is sound. -/
theorem sound_ofTokens {ps : List Piece} (hps : ∀ p ∈ ps, p.Valid) :
    (ofTokens (Token.place 0 Position.start (lexemesOf ps))).Sound := by
  have hplaced := placed_ofTokens (lexemesOf ps)
  have hmap := Token.map_lexeme_place 0 Position.start (lexemesOf ps)
  have hshape : ∀ t ∈ Token.place 0 Position.start (lexemesOf ps), Shaped t.lexeme := by
    intro t ht
    have hmem : t.lexeme ∈ lexemesOf ps := hmap ▸ List.mem_map_of_mem ht
    obtain ⟨p, hp, hl⟩ := List.mem_flatMap.1 hmem
    exact Piece.shaped (hps p hp) hl
  have htokens : ∀ t, (ofTokens (Token.place 0 Position.start (lexemesOf ps))).Has t ↔
      t ∈ Token.place 0 Position.start (lexemesOf ps) := fun t => has_iff_mem hplaced
  exact {
    toPlaced := hplaced
    text_ne_nil := fun ht => (hshape _ ((htokens _).1 ht)).nonempty
    lined := fun ht => (hshape _ ((htokens _).1 ht)).lined
    spaced := fun ht => (hshape _ ((htokens _).1 ht)).spaced
    blank := fun ht => (hshape _ ((htokens _).1 ht)).blank
    frames := fun hc => hplaced.frames_of_framed (CommentSpan.framed_of_mem hps hmap hc)
    exists_of_open := fun ht =>
      (CommentSpan.exists_mem_of_marker hps hmap ((htokens _).1 ht)).1
    exists_of_close := fun ht =>
      (CommentSpan.exists_mem_of_marker hps hmap ((htokens _).1 ht)).2 }

/-- The pieces of a source text that can be read. -/
theorem exists_pieces {text : String} (h : tokenize text = .ok s) :
    ∃ ps : List Piece, (∀ p ∈ ps, p.Valid) ∧ textOf ps = text.toList ∧ Reads .html none ps ∧
      s = ofTokens (Token.place 0 Position.start (lexemesOf ps)) := by
  unfold tokenize at h
  simp only at h
  split at h
  · cases h
  · next hstopped =>
      obtain ⟨ps, hps, hchars, hreads⟩ := exists_reads hstopped
      rw [lex, ← hchars, hreads.lexFrom_eq] at h
      exact ⟨ps, hps, hchars, hreads, by cases h; rfl⟩

/-- A text whose pieces can be read is the source text of their stream. -/
theorem tokenize_textOf {text : String} {ps : List Piece} (hreads : Reads .html none ps)
    (htext : textOf ps = text.toList) :
    tokenize text = .ok (ofTokens (Token.place 0 Position.start (lexemesOf ps))) := by
  unfold tokenize
  rw [lex, ← htext, hreads.lexFrom_eq]

/-- The stream of a source text is sound. -/
theorem sound_of_tokenize {text : String} (h : tokenize text = .ok s) : s.Sound := by
  obtain ⟨ps, hps, -, -, rfl⟩ := exists_pieces h
  exact sound_ofTokens hps

end Stream

end PhpDoc
