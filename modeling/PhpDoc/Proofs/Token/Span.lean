import PhpDoc.Proofs.Token.Piece
import PhpDoc.Proofs.Token.Place

/-!
# The doc comments of a stream

The pairing of comment markers finds every doc comment of a source text, and nothing else:
`Stream.Frames` says what a comment with its markers and tags is, `framed_of_mem` that every span
of a stream is one, and `exists_mem_of_marker` that every marker of a comment stands in a span.
-/

namespace PhpDoc

open Text Lexer

namespace CommentSpan

variable {ts us : List Token} {c : CommentSpan}

/-- Tokens of code in front of a stretch hold no comment. -/
theorem scan_append (h : ∀ t ∈ ts, t.kind.isDoc = false) : scan none (ts ++ us) = scan none us := by
  induction ts with
  | nil => rfl
  | cons t ts ih =>
      obtain ⟨ht, hts⟩ := List.forall_mem_cons.1 h
      rw [List.cons_append, ← ih hts]
      conv => lhs; unfold scan
      split
      · next hkind => simp [hkind, Kind.isDoc] at ht
      · next hsome => cases hsome
      · next hsome => cases hsome
      · rfl

/-- The tags of a comment are collected up to its close marker. -/
theorem scan_body {opener closer : Token} {seen : List Token} (hclose : closer.kind = .docClose)
    (h : ∀ t ∈ ts, t.kind ≠ .docOpen ∧ t.kind ≠ .docClose) :
    scan (some (opener, seen)) (ts ++ closer :: us) =
      ⟨opener, closer, seen.reverse ++ ts.filter (·.kind == .docTag)⟩ :: scan none us := by
  induction ts generalizing seen with
  | nil => simp [scan, hclose]
  | cons t ts ih =>
      obtain ⟨ht, hts⟩ := List.forall_mem_cons.1 h
      rw [List.cons_append]
      conv => lhs; unfold scan
      split
      · next hkind => exact absurd hkind ht.1
      · next hkind hsome =>
          cases hsome
          rw [ih hts]
          simp [hkind]
      · next hkind hsome => exact absurd hkind ht.2
      · next hno _ =>
          have htag : t.kind ≠ .docTag := fun hkind => hno _ _ hkind rfl
          rw [ih hts]
          simp [htag]

/-- A comment in front of a stretch is the first one found. -/
theorem scan_comment {opener closer : Token} (hopen : opener.kind = .docOpen)
    (hclose : closer.kind = .docClose) (h : ∀ t ∈ ts, t.kind ≠ .docOpen ∧ t.kind ≠ .docClose) :
    scan none (opener :: ts ++ closer :: us) =
      ⟨opener, closer, ts.filter (·.kind == .docTag)⟩ :: scan none us := by
  rw [List.cons_append, scan]
  · exact scan_body hclose h
  · exact hopen

/-- The tokens hold a doc comment with the markers and tags of the span. -/
def Framed (ts : List Token) (c : CommentSpan) : Prop :=
  ∃ before inside after, ts = before ++ (c.opener :: inside ++ c.closer :: after) ∧
    c.opener.lexeme = ⟨.docOpen, "/**"⟩ ∧ c.closer.lexeme = ⟨.docClose, "*/"⟩ ∧
    (∃ body, Closed body ∧ inside.map Token.lexeme = docBody body) ∧
    c.tags = inside.filter (·.kind == .docTag)

/-- A comment is framed by a row when it is framed by the end of the row. -/
theorem Framed.append (h : Framed us c) (ts : List Token) : Framed (ts ++ us) c := by
  obtain ⟨before, inside, after, rfl, rest⟩ := h
  exact ⟨ts ++ before, inside, after, by simp, rest⟩

end CommentSpan

namespace Lexer

/-- Every lexeme of a run has its place in it. -/
theorem Run.exists_move {p r : Spot} {ls : List Lexeme} (h : Run p ls r) {l : Lexeme}
    (hl : l ∈ ls) : ∃ q q', Move q l q' := by
  induction h with
  | nil => cases hl
  | cons step _ _ ih =>
      rcases List.mem_cons.1 hl with rfl | hl
      · exact ⟨_, _, step⟩
      · exact ih hl

/-- The body of a comment is made of blanks, stars, tags and strings. -/
theorem kind_of_mem_docBody {body : List Char} {l : Lexeme} (h : l ∈ docBody body) :
    l.kind = .docBlank ∨ l.kind = .docStar ∨ l.kind = .docTag ∨ l.kind = .docString := by
  obtain ⟨q, hrun⟩ := run_docBody body
  obtain ⟨_, _, step⟩ := hrun.exists_move h
  exact step.kind

/-- Pieces other than doc comments have no lexemes of doc comments. -/
theorem Piece.isDoc_of_mem {p : Piece} {l : Lexeme} (hp : p.Valid) (hdoc : ∀ body, p ≠ .doc body)
    (h : l ∈ p.lexemes) : l.kind.isDoc = false := by
  cases p with
  | code m =>
      rw [List.mem_singleton.1 h]
      have := hp.1
      simp only [Kind.isCode, Bool.and_eq_true, Bool.not_eq_eq_eq_not, Bool.not_true] at this
      exact this.2
  | space cs =>
      obtain ⟨line, -, rfl⟩ := List.mem_map.1 h
      rfl
  | doc body => exact absurd rfl (hdoc body)

end Lexer

namespace CommentSpan

/-- The tokens of a row of pieces of which the first is no comment. -/
theorem scan_piece {ts : List Token} {p : Piece} {ps : List Piece} (hp : p.Valid)
    (hdoc : ∀ body, p ≠ .doc body) (h : ts.map Token.lexeme = lexemesOf (p :: ps)) :
    ∃ front rest, ts = front ++ rest ∧ (∀ t ∈ front, t.kind.isDoc = false) ∧
      rest.map Token.lexeme = lexemesOf ps := by
  rw [lexemesOf_cons, List.map_eq_append_iff] at h
  obtain ⟨front, rest, rfl, hfront, hrest⟩ := h
  refine ⟨front, rest, rfl, fun t ht => ?_, hrest⟩
  have hmem : t.lexeme ∈ p.lexemes := hfront ▸ List.mem_map_of_mem ht
  exact Piece.isDoc_of_mem hp hdoc hmem

/-- The tokens of a row of pieces of which the first is a comment. -/
theorem scan_doc {ts : List Token} {body : List Char} {ps : List Piece}
    (h : ts.map Token.lexeme = lexemesOf (.doc body :: ps)) :
    ∃ opener inside closer rest, ts = opener :: inside ++ closer :: rest ∧
      opener.lexeme = ⟨.docOpen, "/**"⟩ ∧ closer.lexeme = ⟨.docClose, "*/"⟩ ∧
      inside.map Token.lexeme = docBody body ∧ rest.map Token.lexeme = lexemesOf ps ∧
      ∀ t ∈ inside, t.kind ≠ .docOpen ∧ t.kind ≠ .docClose := by
  rw [lexemesOf_cons, List.map_eq_append_iff] at h
  obtain ⟨front, rest, rfl, hfront, hrest⟩ := h
  have hcons : front.map Token.lexeme =
      ⟨.docOpen, "/**"⟩ :: (docBody body ++ [⟨.docClose, "*/"⟩]) :=
    hfront
  obtain ⟨opener, tail, rfl, hopener, htail⟩ := List.map_eq_cons_iff.1 hcons
  obtain ⟨inside, last, rfl, hinside, hlast⟩ := List.map_eq_append_iff.1 htail
  obtain ⟨closer, none, rfl, hcloser, hnone⟩ := List.map_eq_cons_iff.1 hlast
  obtain rfl := List.map_eq_nil_iff.1 hnone
  refine ⟨opener, inside, closer, rest, by simp, hopener, hcloser, hinside, hrest, ?_⟩
  intro t ht
  have hmem : t.lexeme ∈ docBody body := hinside ▸ List.mem_map_of_mem ht
  have hkind := kind_of_mem_docBody hmem
  rw [Token.lexeme_kind] at hkind
  rcases hkind with h | h | h | h <;> simp [h]

variable {ts : List Token} {ps : List Piece} {c : CommentSpan}

/-- What the pairing of markers finds is a comment. -/
theorem framed_of_mem (hps : ∀ p ∈ ps, p.Valid) (hts : ts.map Token.lexeme = lexemesOf ps)
    (h : c ∈ scan none ts) : Framed ts c := by
  induction ps generalizing ts with
  | nil =>
      obtain rfl := List.map_eq_nil_iff.1 hts
      cases h
  | cons p ps ih =>
      obtain ⟨hp, hrow⟩ := List.forall_mem_cons.1 hps
      -- the first comment is found at once, the others in what stands behind it
      by_cases hdoc : ∃ body, p = .doc body
      · obtain ⟨body, rfl⟩ := hdoc
        obtain ⟨opener, inside, closer, rest, rfl, hopen, hclose, hinside, hrest, hkinds⟩ :=
          scan_doc hts
        rw [scan_comment (congrArg Lexeme.kind hopen) (congrArg Lexeme.kind hclose) hkinds] at h
        rcases List.mem_cons.1 h with rfl | h
        · exact ⟨[], inside, rest, rfl, hopen, hclose, ⟨body, hp, hinside⟩, rfl⟩
        · have := (ih hrow hrest h).append (opener :: inside ++ [closer])
          simpa using this
      · obtain ⟨front, rest, rfl, hfront, hrest⟩ :=
          scan_piece hp (fun body heq => hdoc ⟨body, heq⟩) hts
        rw [scan_append hfront] at h
        exact (ih hrow hrest h).append front

/-- Every marker belongs to a comment that the pairing finds. -/
theorem exists_mem_of_marker (hps : ∀ p ∈ ps, p.Valid) (hts : ts.map Token.lexeme = lexemesOf ps)
    {t : Token} (ht : t ∈ ts) :
    (t.kind = .docOpen → ∃ c ∈ scan none ts, c.opener = t) ∧
      (t.kind = .docClose → ∃ c ∈ scan none ts, c.closer = t) := by
  induction ps generalizing ts with
  | nil =>
      obtain rfl := List.map_eq_nil_iff.1 hts
      cases ht
  | cons p ps ih =>
      obtain ⟨hp, hrow⟩ := List.forall_mem_cons.1 hps
      by_cases hdoc : ∃ body, p = .doc body
      · obtain ⟨body, rfl⟩ := hdoc
        obtain ⟨opener, inside, closer, rest, rfl, hopen, hclose, hinside, hrest, hkinds⟩ :=
          scan_doc hts
        have hopenKind : opener.kind = .docOpen := congrArg Lexeme.kind hopen
        have hcloseKind : closer.kind = .docClose := congrArg Lexeme.kind hclose
        rw [scan_comment hopenKind hcloseKind hkinds]
        simp only [List.cons_append, List.mem_cons, List.mem_append] at ht
        rcases ht with rfl | ht | rfl | ht
        · exact ⟨fun _ => ⟨_, List.mem_cons_self, rfl⟩, fun h => by simp [hopenKind] at h⟩
        · exact ⟨fun h => absurd h (hkinds t ht).1, fun h => absurd h (hkinds t ht).2⟩
        · exact ⟨fun h => by simp [hcloseKind] at h, fun _ => ⟨_, List.mem_cons_self, rfl⟩⟩
        · obtain ⟨h₁, h₂⟩ := ih hrow hrest ht
          refine ⟨fun h => ?_, fun h => ?_⟩
          · obtain ⟨c, hc, heq⟩ := h₁ h
            exact ⟨c, List.mem_cons_of_mem _ hc, heq⟩
          · obtain ⟨c, hc, heq⟩ := h₂ h
            exact ⟨c, List.mem_cons_of_mem _ hc, heq⟩
      · obtain ⟨front, rest, rfl, hfront, hrest⟩ :=
          scan_piece hp (fun body heq => hdoc ⟨body, heq⟩) hts
        rw [scan_append hfront]
        rcases List.mem_append.1 ht with ht | ht
        · have hno := hfront t ht
          constructor <;> intro h <;> simp [h, Kind.isDoc] at hno
        · exact ih hrow hrest ht

end CommentSpan

end PhpDoc
