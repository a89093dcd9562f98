import PhpDoc.Proofs.Comment.Carry
import PhpDoc.Proofs.Comment.Star
import PhpDoc.Proofs.Token.Outside
import PhpDoc.Proofs.Token.Rewrite

/-!
# Texts with the same content

A text keeps the content of another one when its comments have other bodies with the same tags and
strings, and nothing else differs (`Lexer.Keeps`). It has the same lexemes outside of comments
(`Keeps.outside_eq`), and the comments of its stream have the content of the others
(`Keeps.contents_eq`, `Stream.map_content`), because a stream has the comments of its pieces
(`Stream.map_inside`). White space in front of an open marker is found in both
texts (`Stream.blankLed_of_outside_eq`).
-/

namespace PhpDoc

open Text Lexer

/-- The tags and strings of a comment, in order. -/
def Stream.content (s : Stream) (c : CommentSpan) : List Lexeme :=
  contentOf ((s.inside c).map Token.lexeme)

/-- The text between the markers of a comment. -/
def Stream.innerText (s : Stream) (c : CommentSpan) : List Char :=
  charsOf ((s.inside c).map Token.lexeme)

/-- The lexemes of the stream without those between the markers of comments. -/
def Stream.outside (s : Stream) : List Lexeme :=
  Lexer.outside (s.tokens.toList.map Token.lexeme)

namespace Lexer

/-- The pieces of a text and those of a text with the same content. -/
inductive Keeps : List Piece → List Piece → Prop where
  | nil : Keeps [] []
  | code {l : Lexeme} {ps qs : List Piece} (rest : Keeps ps qs) :
      Keeps (.code l :: ps) (.code l :: qs)
  | space {cs : List Char} {ps qs : List Piece} (rest : Keeps ps qs) :
      Keeps (.space cs :: ps) (.space cs :: qs)
  | doc {old new : List Char} {ps qs : List Piece} (closed : Closed new)
      (content : contentOf (docBody new) = contentOf (docBody old)) (rest : Keeps ps qs) :
      Keeps (.doc old :: ps) (.doc new :: qs)

/-- The contents of the comments among the pieces. -/
def contents : List Piece → List (List Lexeme)
  | [] => []
  | .doc body :: ps => contentOf (docBody body) :: contents ps
  | _ :: ps => contents ps

/-- The bodies of the comments among the pieces. -/
def bodies : List Piece → List (List Char)
  | [] => []
  | .doc body :: ps => body :: bodies ps
  | _ :: ps => bodies ps

/-- The contents of pieces are those of the bodies of their comments. -/
theorem contents_eq (ps : List Piece) :
    contents ps = (bodies ps).map fun body => contentOf (docBody body) := by
  fun_induction bodies ps with
  | case1 => rfl
  | case2 body ps ih => rw [contents, List.map_cons, ih]
  | case3 p ps hdoc ih =>
      cases p with
      | code l => exact ih
      | space cs => exact ih
      | doc body => exact absurd rfl (hdoc body)

/-- A body of the pieces is that of one of the comments. -/
theorem mem_bodies {body : List Char} {ps : List Piece} (h : body ∈ bodies ps) :
    .doc body ∈ ps := by
  fun_induction bodies ps with
  | case1 => cases h
  | case2 body ps ih =>
      rcases List.mem_cons.1 h with rfl | h
      · exact List.mem_cons_self
      · exact List.mem_cons_of_mem _ (ih h)
  | case3 p ps hdoc ih => exact List.mem_cons_of_mem _ (ih h)

/-- What is outside of the comments is found part by part. -/
theorem outside_append (ls ms : List Lexeme) : outside (ls ++ ms) = outside ls ++ outside ms :=
  List.filter_append _ _

/-- Of a comment the markers stand outside. -/
theorem outside_docComment (body : List Char) :
    outside (docComment body) = [⟨.docOpen, "/**"⟩, ⟨.docClose, "*/"⟩] := by
  have hbody : outside (docBody body) = [] := by
    rw [outside, List.filter_eq_nil_iff]
    intro l hl
    rcases kind_of_mem_docBody hl with h | h | h | h <;> simp [h, Kind.isInner]
  rw [docComment, List.cons_append, outside_cons rfl, outside_append, hbody]
  rfl

namespace Keeps

variable {ps qs : List Piece}

/-- Pieces with kept contents are a rewriting of the pieces. -/
theorem rewrites (h : Keeps ps qs) : Rewrites ps qs := by
  induction h with
  | nil => exact .nil
  | code rest ih => exact .code ih
  | space rest ih => exact .space ih
  | doc closed content rest ih => exact .doc closed ih

/-- Pieces that keep the contents of valid ones are valid. -/
theorem valid (h : Keeps ps qs) (hps : ∀ p ∈ ps, p.Valid) : ∀ q ∈ qs, q.Valid := by
  induction h with
  | nil => exact hps
  | code rest ih =>
      obtain ⟨hp, hps⟩ := List.forall_mem_cons.1 hps
      exact List.forall_mem_cons.2 ⟨hp, ih hps⟩
  | space rest ih =>
      obtain ⟨hp, hps⟩ := List.forall_mem_cons.1 hps
      exact List.forall_mem_cons.2 ⟨hp, ih hps⟩
  | doc closed content rest ih =>
      obtain ⟨-, hps⟩ := List.forall_mem_cons.1 hps
      exact List.forall_mem_cons.2 ⟨closed, ih hps⟩

/-- Nothing differs outside of comments. -/
theorem outside_eq (h : Keeps ps qs) : outside (lexemesOf qs) = outside (lexemesOf ps) := by
  induction h with
  | nil => rfl
  | code rest ih => rw [lexemesOf_cons, lexemesOf_cons, outside_append, outside_append, ih]
  | space rest ih => rw [lexemesOf_cons, lexemesOf_cons, outside_append, outside_append, ih]
  | @doc old new ps qs closed content rest ih =>
      rw [lexemesOf_cons, lexemesOf_cons, outside_append, outside_append, ih]
      show outside (docComment new) ++ _ = outside (docComment old) ++ _
      rw [outside_docComment, outside_docComment]

/-- Pieces with kept contents have the same contents. -/
theorem contents_eq (h : Keeps ps qs) : contents qs = contents ps := by
  induction h with
  | nil => rfl
  | code rest ih => exact ih
  | space rest ih => exact ih
  | doc closed content rest ih => rw [contents, contents, content, ih]

end Keeps

end Lexer

namespace Stream

variable {s : Stream} {ps : List Piece}

/-- Tokens that are written as they stand are written as their piece. -/
theorem chars_of_kept {front : List Token} {p : Piece} {w : Token → String}
    (hfront : front.map Token.lexeme = p.lexemes) (h : ∀ t ∈ front, w t = t.text) :
    (front.flatMap fun t => (w t).toList) = p.chars := by
  rw [← p.charsOf_lexemes, ← hfront, charsOf, List.flatMap_map]
  refine List.flatMap_congr fun t ht => ?_
  rw [h t ht]
  rfl

/-- The tokens from the open marker of a comment to its close marker. -/
theorem Placed.frames_of_append (hs : s.Placed) {before inside after : List Token}
    {opener closer : Token} {body : List Char} (hclosed : Closed body)
    (heq : s.tokens.toList = before ++ (opener :: inside ++ closer :: after))
    (hopener : opener.lexeme = ⟨.docOpen, "/**"⟩) (hcloser : closer.lexeme = ⟨.docClose, "*/"⟩)
    (hinside : inside.map Token.lexeme = docBody body) :
    let c : CommentSpan := ⟨opener, closer, inside.filter (·.kind == .docTag)⟩
    s.Frames c ∧ s.inside c = inside ∧
      s.between opener.index (closer.index + 1) = opener :: inside ++ [closer] := by
  have hframes := hs.frames_of_framed (c := ⟨opener, closer, inside.filter (·.kind == .docTag)⟩)
    ⟨before, inside, after, heq, hopener, hcloser, ⟨body, hclosed, hinside⟩, rfl⟩
  have hopenerIndex := (hs.has_of_append before (inside ++ closer :: after) heq).2
  have hcloserIndex :=
    (hs.has_of_append (before ++ opener :: inside) after (by simpa using heq)).2
  rw [List.length_append, List.length_cons] at hcloserIndex
  refine ⟨hframes, ?_, ?_⟩
  · refine between_of_append (before ++ [opener]) inside (closer :: after)
      (by simpa using heq) ?_ ?_
    · simp [hopenerIndex]
    · show closer.index = _
      rw [hcloserIndex, List.length_append, List.length_singleton]
      omega
  · refine between_of_append before (opener :: inside ++ [closer]) after (by simpa using heq)
      hopenerIndex ?_
    simp only [List.length_append, List.length_cons, List.length_nil]
    omega

/-- The comments of a stream hold the bodies of its pieces. -/
theorem map_inside (hps : ∀ p ∈ ps, p.Valid) :
    (ofLexemes (lexemesOf ps)).comments.map
        (fun c => ((ofLexemes (lexemesOf ps)).inside c).map Token.lexeme) =
      (bodies ps).map docBody := by
  have hs : (ofLexemes (lexemesOf ps)).Placed := placed_ofTokens _
  generalize hstream : ofLexemes (lexemesOf ps) = s at hs
  have hcomments : s.comments = CommentSpan.scan none s.tokens.toList := by
    rw [← hstream]
    simp [ofLexemes, ofTokens]
  have htokens : s.tokens.toList.map Token.lexeme = lexemesOf ps := by
    rw [← hstream]
    simp [ofLexemes, ofTokens]
  -- a comment of a suffix is read in the whole stream, so the induction keeps what stands in front
  have hsuffix : ∀ before ts, s.tokens.toList = before ++ ts → ts.map Token.lexeme = lexemesOf ps →
      (CommentSpan.scan none ts).map (fun c => (s.inside c).map Token.lexeme) =
        (bodies ps).map docBody := by
    clear hstream hcomments htokens
    induction ps with
    | nil =>
        intro before ts _ hts
        obtain rfl := List.map_eq_nil_iff.1 hts
        rfl
    | cons p ps ih =>
        obtain ⟨hp, hrow⟩ := List.forall_mem_cons.1 hps
        intro before ts heq hts
        by_cases hdoc : ∃ body, p = .doc body
        · obtain ⟨body, rfl⟩ := hdoc
          obtain ⟨opener, inside, closer, rest, rfl, hopen, hclose, hinside, hrest, hkinds⟩ :=
            CommentSpan.scan_doc hts
          obtain ⟨-, hbetween, -⟩ := hs.frames_of_append hp heq hopen hclose hinside
          rw [CommentSpan.scan_comment (congrArg Lexeme.kind hopen) (congrArg Lexeme.kind hclose)
            hkinds, List.map_cons, bodies, List.map_cons]
          rw [ih hrow (before ++ (opener :: inside ++ [closer])) rest (by simpa using heq) hrest,
            hbetween, hinside]
        · obtain ⟨front, rest, rfl, hfront, hrest⟩ :=
            CommentSpan.scan_piece hp (fun body h => hdoc ⟨body, h⟩) hts
          rw [CommentSpan.scan_append hfront,
            ih hrow (before ++ front) rest (by simpa using heq) hrest]
          cases p with
          | code l => rfl
          | space cs => rfl
          | doc body => exact absurd ⟨body, rfl⟩ hdoc
  rw [hcomments]
  exact hsuffix [] _ rfl htokens

/-- The comments of a stream have the contents of its pieces. -/
theorem map_content (hps : ∀ p ∈ ps, p.Valid) :
    (ofLexemes (lexemesOf ps)).comments.map (ofLexemes (lexemesOf ps)).content = contents ps := by
  have h := congrArg (List.map contentOf) (map_inside hps)
  rw [List.map_map, List.map_map] at h
  rw [contents_eq]
  exact h

/-- The text of a comment of a stream is the body of one of its pieces. -/
theorem exists_doc_of_mem (hps : ∀ p ∈ ps, p.Valid) {c : CommentSpan}
    (hc : c ∈ (ofLexemes (lexemesOf ps)).comments) :
    .doc ((ofLexemes (lexemesOf ps)).innerText c) ∈ ps := by
  have hmem := List.mem_map_of_mem
    (f := fun c => ((ofLexemes (lexemesOf ps)).inside c).map Token.lexeme) hc
  rw [map_inside hps] at hmem
  obtain ⟨text, htext, heq⟩ := List.mem_map.1 hmem
  rw [innerText, ← heq, charsOf_docBody]
  exact mem_bodies htext

/-- The tokens outside of the comments have the lexemes outside of the comments. -/
theorem outside_ofLexemes (ls : List Lexeme) : (ofLexemes ls).outside = Lexer.outside ls := by
  simp [outside, ofLexemes, ofTokens]

/-! ## White space in front of open markers -/

/-- The tokens have the same number outside of comments. -/
structure Counterpart (ls ms : List Lexeme) (t u : Token) : Prop where
  left : (ofLexemes ls).Has t
  right : (ofLexemes ms).Has u
  index : ∃ k, t.index = outsideIndex ls k ∧ u.index = outsideIndex ms k

namespace Counterpart

variable {ls ms : List Lexeme} {t t' u u' : Token}

/-- A token outside of the comments has a counterpart in the row with the same lexemes outside. -/
theorem exists_left (heq : Lexer.outside ms = Lexer.outside ls) (hu : (ofLexemes ms).Has u)
    (hkind : u.kind.isInner = false) : ∃ t, Counterpart ls ms t u := by
  obtain ⟨v, hv, hindex⟩ := exists_has_outside hu hkind
  rw [heq] at hv
  obtain ⟨t, ht, htindex, -⟩ := exists_has_of_outside hv
  exact ⟨t, ht, hu, v.index, htindex, hindex⟩

/-- Counterparts have the same kind and the same text. -/
theorem lexeme_eq (h : Counterpart ls ms t u) (heq : Lexer.outside ms = Lexer.outside ls) :
    t.lexeme = u.lexeme := by
  obtain ⟨k, ht, hu⟩ := h.index
  have hleft := h.left.getElem?_lexeme
  have hright := h.right.getElem?_lexeme
  rw [hu, getElem?_outsideIndex, heq, ← getElem?_outsideIndex, ← ht, hleft] at hright
  exact Option.some.inj hright

/-- The first token is first in both. -/
theorem index_zero (h : Counterpart ls ms t u) (hls : Nested ls) (hzero : u.index = 0) :
    t.index = 0 := by
  obtain ⟨k, ht, hu⟩ := h.index
  obtain rfl : k = 0 := by
    by_contra hne
    have hlt := strictMono_outsideIndex ms (Nat.pos_of_ne_zero hne)
    omega
  rw [ht]
  cases ls with
  | nil => rfl
  | cons l ls => exact outsideIndex_zero (hls.head l rfl)

/-- Tokens side by side, of which the first is no open marker, stand side by side in both. -/
theorem next (h : Counterpart ls ms t u) (h' : Counterpart ls ms t' u') (hls : Nested ls)
    (hindex : u.index + 1 = u'.index) (hopen : t.kind ≠ .docOpen) : t.index + 1 = t'.index := by
  obtain ⟨k, ht, hu⟩ := h.index
  obtain ⟨j, ht', hu'⟩ := h'.index
  have he := strictMono_outsideIndex ms
  have hlt : k < j := he.lt_iff_lt.1 (by omega)
  -- a number between the two would stand for a token between two neighbours
  have hj : k + 1 = j := by
    by_contra hne
    have hfirst := he (Nat.lt_add_one k)
    have hsecond := he (show k + 1 < j by omega)
    omega
  have hget := h.left.getElem?_lexeme
  have hget' := h'.left.getElem?_lexeme
  rw [ht, getElem?_outsideIndex] at hget
  rw [ht', getElem?_outsideIndex, ← hj] at hget'
  have hstep := Nested.outsideIndex_succ hls.chain hget hopen (by rw [hget']; simp)
  rw [hj] at hstep
  omega

end Counterpart

/-- Neighbours in the stream are enclosed by markers. -/
theorem enclosed_next {ls : List Lexeme} (h : Nested ls) {t u : Token} (ht : (ofLexemes ls).Has t)
    (hu : (ofLexemes ls).Has u) (hindex : t.index + 1 = u.index) : Enclosed t.lexeme u.lexeme := by
  have hget := ht.getElem?_lexeme
  have hget' := hu.getElem?_lexeme
  rw [← hindex] at hget'
  obtain ⟨hlt, heq⟩ := List.getElem?_eq_some_iff.1 hget
  obtain ⟨hlt', heq'⟩ := List.getElem?_eq_some_iff.1 hget'
  rw [← heq, ← heq']
  exact List.isChain_iff_getElem.1 h.chain t.index hlt'

/-- White space in front of open markers is the same where the lexemes outside of comments are the
same. -/
theorem blankLed_of_outside_eq {ls ms : List Lexeme} (hls : Nested ls) (hms : Nested ms)
    (heq : Lexer.outside ms = Lexer.outside ls) (h : (ofLexemes ls).BlankLed) :
    (ofLexemes ms).BlankLed := by
  intro w t hw ht hindex hwkind htkind hled
  obtain ⟨hends, hstart⟩ := hled
  obtain ⟨w', hcw⟩ := Counterpart.exists_left heq hw (by rw [hwkind]; rfl)
  obtain ⟨t', hct⟩ := Counterpart.exists_left heq ht (by rw [htkind]; rfl)
  have hwkind' : w'.kind = w.kind := congrArg Lexeme.kind (hcw.lexeme_eq heq)
  have hwtext : w'.text = w.text := congrArg Lexeme.text (hcw.lexeme_eq heq)
  have htkind' : t'.kind = t.kind := congrArg Lexeme.kind (hct.lexeme_eq heq)
  have hindex' := hcw.next hct hls hindex (by rw [hwkind', hwkind]; decide)
  have hled' : (ofLexemes ls).Leading w' := by
    refine ⟨by rw [hwtext, hends], ?_⟩
    rcases hstart with hfirst | ⟨u, hu, huindex, huends⟩
    · exact .inl (hcw.index_zero hls hfirst)
    · -- a token that ends a line in front of white space is no token of a comment
      have houter : u.kind.isInner = false := by
        cases hinner : u.kind.isInner with
        | false => rfl
        | true =>
            rcases (enclosed_next hms hu hw huindex).2 hinner with h | h
            · rw [Token.lexeme_kind, hwkind] at h
              cases h
            · rw [Token.lexeme_kind, hwkind] at h
              cases h
      obtain ⟨u', hcu⟩ := Counterpart.exists_left heq hu houter
      have hukind' : u'.kind = u.kind := congrArg Lexeme.kind (hcu.lexeme_eq heq)
      have hutext : u'.text = u.text := congrArg Lexeme.text (hcu.lexeme_eq heq)
      have hopen : u'.kind ≠ .docOpen := by
        intro hkind
        rw [hukind'] at hkind
        have htext : u.text = "/**" :=
          hms.opens u.lexeme (List.mem_of_getElem? hu.getElem?_lexeme) hkind
        rw [htext] at huends
        cases huends
      exact .inr ⟨u', hcu.left, hcu.next hcw hls huindex hopen, by rw [hutext, huends]⟩
  rw [← hwtext]
  exact h w' t' hcw.left hct.left hindex' (by rw [hwkind', hwkind]) (by rw [htkind', htkind]) hled'

end Stream

end PhpDoc
