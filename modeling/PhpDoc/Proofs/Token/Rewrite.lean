import Mathlib.Data.List.Chain
import PhpDoc.Proofs.Token.Cut
import PhpDoc.Proofs.Token.Sound

/-!
# Rewritten source text

A text is rewritten when its doc comments get other bodies and the white space right behind a
comment is exchanged for other white space. The rewritten text is read piece by piece like the old
one (`Reads.rewrite`), so its code is the same lexeme by lexeme (`Rewrites.code_eq`).
-/

namespace PhpDoc

namespace Lexer

open Text

/-- The pieces of a text and those of a rewritten one. -/
inductive Rewrites : List Piece → List Piece → Prop where
  | nil : Rewrites [] []
  | code {l : Lexeme} {ps qs : List Piece} (rest : Rewrites ps qs) :
      Rewrites (.code l :: ps) (.code l :: qs)
  | space {cs : List Char} {ps qs : List Piece} (rest : Rewrites ps qs) :
      Rewrites (.space cs :: ps) (.space cs :: qs)
  | doc {old new : List Char} {ps qs : List Piece} (closed : Closed new) (rest : Rewrites ps qs) :
      Rewrites (.doc old :: ps) (.doc new :: qs)
  | docSpace {old new cs ds : List Char} {ps qs : List Piece} (closed : Closed new)
      (valid : (Piece.space ds).Valid) (rest : Rewrites ps qs) :
      Rewrites (.doc old :: .space cs :: ps) (.doc new :: .space ds :: qs)

variable {ps qs : List Piece} {previous : Option Lexeme}

/-- The text of a comment is its body between the two markers. -/
theorem textOf_doc (body : List Char) (ps : List Piece) :
    textOf (.doc body :: ps) = '/' :: '*' :: '*' :: (body ++ '*' :: '/' :: textOf ps) := by
  simp [Piece.chars]

/-- A rewritten text is the old one up to an open marker. -/
theorem Rewrites.alike (h : Rewrites ps qs) : textOf ps = textOf qs ∨ ∃ lead y z,
    textOf ps = lead ++ '/' :: '*' :: '*' :: y ∧ textOf qs = lead ++ '/' :: '*' :: '*' :: z := by
  have hbehind : ∀ {p : Piece} {ps qs : List Piece}, (textOf ps = textOf qs ∨ ∃ lead y z,
      textOf ps = lead ++ '/' :: '*' :: '*' :: y ∧ textOf qs = lead ++ '/' :: '*' :: '*' :: z) →
      textOf (p :: ps) = textOf (p :: qs) ∨ ∃ lead y z,
        textOf (p :: ps) = lead ++ '/' :: '*' :: '*' :: y ∧
          textOf (p :: qs) = lead ++ '/' :: '*' :: '*' :: z := by
    rintro p ps qs (heq | ⟨lead, y, z, hps, hqs⟩)
    · exact .inl (by rw [textOf_cons, textOf_cons, heq])
    · exact .inr ⟨p.chars ++ lead, y, z, by simp [hps], by simp [hqs]⟩
  induction h with
  | nil => exact .inl rfl
  | code rest ih => exact hbehind ih
  | space rest ih => exact hbehind ih
  | doc closed rest ih => exact .inr ⟨[], _, _, textOf_doc _ _, textOf_doc _ _⟩
  | docSpace closed valid rest ih => exact .inr ⟨[], _, _, textOf_doc _ _, textOf_doc _ _⟩

/-! ## Steps over white space and comments -/

/-- A comment is taken up to its close marker. -/
theorem step_doc {body : List Char} (h : Closed body) (rest : List Char) :
    step previous '/' ('*' :: '*' :: (body ++ '*' :: '/' :: rest)) =
      .ok ⟨docComment body, body.length + 5, .code⟩ := by
  have hoffset := (offsetOf?_close body rest).2 h.unclosed
  have hstart : startsWith "/**" ('/' :: '*' :: '*' :: (body ++ '*' :: '/' :: rest)) = true :=
    startsWith_eq_true.2 ⟨_, rfl⟩
  have hno : startsWith "/**/" ('/' :: '*' :: '*' :: (body ++ '*' :: '/' :: rest)) = false := by
    cases hfound : startsWith "/**/" ('/' :: '*' :: '*' :: (body ++ '*' :: '/' :: rest)) with
    | false => rfl
    | true =>
        obtain ⟨tail, htail⟩ := startsWith_eq_true.1 hfound
        cases body with
        | nil => simp at htail
        | cons c body =>
            obtain ⟨rfl, -⟩ : c = '/' ∧ _ := by simpa using htail
            exact absurd rfl h.start
  have hclose : startsWith "?>" ('/' :: '*' :: '*' :: (body ++ '*' :: '/' :: rest)) = false := rfl
  have hspace : isCodeSpace '/' = false := by decide
  unfold step
  simp only [hclose, hspace, hstart, hno, List.drop_succ_cons, List.drop_zero, docStep, hoffset]
  simp

/-- White space is not significant for what follows. -/
theorem lastSignificant_space (previous : Option Lexeme) (cs : List Char) :
    lastSignificant previous (Piece.space cs).lexemes = previous := by
  have hnone : (Piece.space cs).lexemes.reverse.find? (!·.kind.isTrivia) = none := by
    rw [List.find?_eq_none]
    intro l hl
    obtain ⟨line, -, rfl⟩ := List.mem_map.1 (List.mem_reverse.1 hl)
    simp [Kind.isTrivia]
  rw [lastSignificant, hnone, Option.none_or]

/-- Behind a comment its close marker is the last significant lexeme. -/
theorem lastSignificant_doc (previous : Option Lexeme) (body : List Char) :
    lastSignificant previous (docComment body) = some ⟨.docClose, "*/"⟩ := by
  rw [lastSignificant, docComment, List.reverse_append]
  rfl

/-- White space can be read in front of what does not go on with it. -/
theorem Reads.spaceCons {cs : List Char} (h : (Piece.space cs).Valid)
    (hstop : (textOf ps).takeWhile isCodeSpace = []) (rest : Reads .code previous ps) :
    Reads .code previous (.space cs :: ps) := by
  obtain ⟨hne, hspace⟩ := h
  obtain ⟨c, tail, rfl⟩ := List.exists_cons_of_ne_nil hne
  have htake : (c :: (tail ++ textOf ps)).takeWhile isCodeSpace = c :: tail := by
    rw [← List.cons_append, List.takeWhile_append_of_pos hspace, hstop, List.append_nil]
  have htaken := @step_space previous _ (hspace c List.mem_cons_self) (tail ++ textOf ps)
  rw [htake] at htaken
  refine .step ⟨by simp, hspace⟩ rfl htaken rfl ?_ ?_
  · exact (List.take_left' rfl).symm
  · simpa only [lastSignificant_space] using rest

/-- Other white space can be read in the place of white space. -/
theorem Reads.space {cs ds : List Char} (h : Reads .code previous (.space cs :: ps))
    (hds : (Piece.space ds).Valid) : Reads .code previous (.space ds :: ps) := by
  cases h with
  | @step _ c tail _ _ s valid chars taken lexemes width rest =>
      obtain rfl : cs = c :: tail := chars
      obtain ⟨-, hvalid⟩ := valid
      have hstop := takeWhile_of_step (hvalid c List.mem_cons_self) taken width
      rw [step_space (hvalid c List.mem_cons_self)] at taken
      cases taken
      simp only [lastSignificant_space] at rest
      exact .spaceCons hds hstop rest

/-- A comment can be read in front of what can be read behind it. -/
theorem Reads.doc {body : List Char} (h : Closed body)
    (rest : Reads .code (some ⟨.docClose, "*/"⟩) ps) : Reads .code previous (.doc body :: ps) := by
  have hchars : (Piece.doc body).chars = '/' :: ('*' :: '*' :: (body ++ ['*', '/'])) := by
    simp [Piece.chars]
  refine .step (s := ⟨docComment body, body.length + 5, .code⟩) h hchars ?_ rfl ?_ ?_
  · have htaken := @step_doc previous _ h (textOf ps)
    simpa using htaken
  · have hlen : (Piece.doc body).chars.length = body.length + 5 := by simp [Piece.chars]
    exact (List.take_left' hlen).symm
  · show Reads .code (lastSignificant previous (docComment body)) ps
    rwa [lastSignificant_doc]

/-- What stands behind a comment is read behind it. -/
theorem Reads.of_doc {body : List Char} (h : Reads .code previous (.doc body :: ps)) :
    Reads .code (some ⟨.docClose, "*/"⟩) ps := by
  cases h with
  | @step _ c cs _ _ s valid chars taken lexemes width rest =>
      have hchars : (Piece.doc body).chars = '/' :: ('*' :: '*' :: (body ++ ['*', '/'])) := by
        simp [Piece.chars]
      rw [hchars] at chars
      cases chars
      have htaken := @step_doc previous _ valid (textOf ps)
      have hwhole : '*' :: '*' :: (body ++ ['*', '/']) ++ textOf ps =
          '*' :: '*' :: (body ++ '*' :: '/' :: textOf ps) := by simp
      rw [hwhole, htaken] at taken
      cases taken
      have hlast := lastSignificant_doc previous body
      rw [show (Piece.doc body).lexemes = docComment body from rfl, hlast] at rest
      exact rest

/-- Two runs of white space do not come one right behind the other. -/
def Piece.Parted (p q : Piece) : Prop :=
  ∀ cs ds, p = .space cs → q ≠ .space ds

/-- HTML in front of pieces that are parted leaves them parted. -/
theorem parted_html? (cs : List Char) (h : ps.IsChain Piece.Parted) :
    (html? cs ++ ps).IsChain Piece.Parted := by
  unfold html? lexeme?
  split
  · exact h
  · refine List.isChain_cons.2 ⟨fun q _ ds es heq => ?_, h⟩
    cases heq

/-- White space is read up to its end. -/
theorem Reads.parted {mode : Mode} (h : Reads mode previous ps) (hps : ∀ p ∈ ps, p.Valid) :
    ps.IsChain Piece.Parted := by
  induction h with
  | nil => exact .nil
  | @html previous cs nonempty untagged => simpa using parted_html? cs .nil
  | @openTag previous html tag ps found rest ih =>
      have hrest := (List.forall_mem_cons.1 (List.forall_mem_append.1 hps).2).2
      refine parted_html? html (List.isChain_cons.2 ⟨fun q _ ds es heq => ?_, ih hrest⟩)
      cases heq
  | @step previous c cs p ps s valid chars taken lexemes width rest ih =>
      obtain ⟨-, hrest⟩ := List.forall_mem_cons.1 hps
      refine List.isChain_cons.2 ⟨?_, ih hrest⟩
      rintro q hq ds es rfl rfl
      -- the white space would have gone on
      obtain rfl : ds = c :: cs := chars
      have hstop := takeWhile_of_step (valid.2 c List.mem_cons_self) taken width
      obtain ⟨qs, rfl⟩ := List.head?_eq_some_iff.1 hq
      obtain ⟨hne, hspace⟩ := hrest _ List.mem_cons_self
      rw [textOf_cons, show (Piece.space es).chars = es from rfl,
        List.takeWhile_append_of_pos hspace] at hstop
      exact hne (List.append_eq_nil_iff.1 hstop).1

/-- Inline HTML is kept by a rewrite. -/
theorem Rewrites.exists_html {cs : List Char} (h : Rewrites (html? cs ++ ps) qs) :
    ∃ rs, qs = html? cs ++ rs ∧ Rewrites ps rs := by
  unfold html? lexeme? at h ⊢
  split at h
  · exact ⟨qs, by simp_all, by simpa using h⟩
  · cases h with
    | code rest => exact ⟨_, by simp_all, rest⟩

/-- A rewritten text is read piece by piece like the old one. -/
theorem Reads.rewrite {mode : Mode} (h : Reads mode previous ps) (hrewrites : Rewrites ps qs) :
    Reads mode previous qs := by
  induction h generalizing qs with
  | nil =>
      cases hrewrites
      exact .nil
  | @html previous cs nonempty untagged =>
      rw [← List.append_nil (html? cs)] at hrewrites
      obtain ⟨rs, rfl, hrest⟩ := hrewrites.exists_html
      cases hrest
      rw [List.append_nil]
      exact .html nonempty untagged
  | @openTag previous html tag ps found rest ih =>
      obtain ⟨rs, rfl, hrest⟩ := hrewrites.exists_html
      cases hrest with
      | @code l ps rs hrest =>
          refine .openTag ?_ (ih hrest)
          rcases hrest.alike with heq | ⟨lead, y, z, hps, hrs⟩
          · rwa [← heq]
          · rw [hps, ← List.append_assoc] at found
            rw [hrs, ← List.append_assoc]
            exact openTag?_marker found (by simp)
  | @step previous c cs p ps s valid chars taken lexemes width rest ih =>
      have hkeep : ∀ {rs}, Rewrites ps rs → Reads .code previous (p :: rs) := by
        intro rs hrest
        rcases hrest.alike with heq | ⟨lead, y, z, hps, hrs⟩
        · rw [heq] at taken width
          exact .step valid chars taken lexemes width (ih hrest)
        · -- something stands behind the piece, so its step is no wider than the piece
          have hwidth : s.width = p.chars.length := by
            have hlen := congrArg List.length width
            simp only [List.length_take, List.length_append, hps, List.length_cons] at hlen
            omega
          rw [hps, ← List.append_assoc] at taken
          refine .step valid chars (s := s) ?_ lexemes ?_ (ih hrest)
          · rw [hrs, ← List.append_assoc]
            refine step_marker taken ?_
            rw [hwidth, chars]
            simp only [List.length_cons, List.length_append]
            omega
          · rw [hwidth, List.take_left]
      cases hrewrites with
      | code hrest => exact hkeep hrest
      | space hrest => exact hkeep hrest
      | doc closed hrest => exact .doc closed (hkeep hrest).of_doc
      | docSpace closed hvalid hrest =>
          exact .doc closed ((hkeep (.space hrest)).of_doc.space hvalid)

/-- The code among the pieces: their lexemes without white space and comments. -/
def codeOf (ps : List Piece) : List Lexeme :=
  (lexemesOf ps).filter (·.kind.isCode)

/-- The code of pieces starts with that of the first one. -/
theorem codeOf_cons (p : Piece) (ps : List Piece) :
    codeOf (p :: ps) = p.lexemes.filter (·.kind.isCode) ++ codeOf ps := by
  rw [codeOf, lexemesOf_cons, List.filter_append]
  rfl

/-- White space is no code. -/
theorem code_space (cs : List Char) : (Piece.space cs).lexemes.filter (·.kind.isCode) = [] := by
  rw [List.filter_eq_nil_iff]
  intro l hl
  obtain ⟨line, -, rfl⟩ := List.mem_map.1 hl
  simp [Kind.isCode]

/-- Comments are no code. -/
theorem code_doc (body : List Char) : (Piece.doc body).lexemes.filter (·.kind.isCode) = [] := by
  obtain ⟨q, hrun⟩ := run_docBody body
  rw [List.filter_eq_nil_iff]
  intro l hl
  simp only [Piece.lexemes, docComment, List.cons_append, List.mem_cons, List.mem_append,
    List.not_mem_nil, or_false] at hl
  rcases hl with rfl | hl | rfl
  · decide
  · obtain ⟨_, _, move⟩ := hrun.exists_move hl
    rcases move.kind with h | h | h | h <;> rw [h] <;> decide
  · decide

/-- A rewritten text has the same code. -/
theorem Rewrites.code_eq (h : Rewrites ps qs) : codeOf qs = codeOf ps := by
  induction h with
  | nil => rfl
  | code rest ih => rw [codeOf_cons, codeOf_cons, ih]
  | space rest ih => rw [codeOf_cons, codeOf_cons, ih]
  | doc closed rest ih => rw [codeOf_cons, codeOf_cons, code_doc, code_doc, ih]
  | docSpace closed valid rest ih =>
      rw [codeOf_cons, codeOf_cons, codeOf_cons, codeOf_cons, code_doc, code_doc, code_space,
        code_space, ih]

end Lexer

end PhpDoc
