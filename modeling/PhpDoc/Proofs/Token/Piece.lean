import PhpDoc.Proofs.Text.Marker
import PhpDoc.Proofs.Token.Grammar
import PhpDoc.Token.Lexer

/-!
# Pieces of source text

What the lexer takes at one place is a piece: a lexeme of code, a run of white space, which is cut
into lines, or a doc comment, which is cut by the line grammar. `exists_piece` says that every step
of the lexer takes one valid piece and `exists_reads` that a text that can be read to its end is a
row of them, each taken by a step in front of the rest (`Reads`). A comment ends at the first close
marker behind its open marker, so the body of a valid comment is `Closed`.
-/

namespace PhpDoc

/-- The kinds of the lexemes of a doc comment. -/
def Kind.isDoc (k : Kind) : Bool :=
  k == docOpen || k == docClose || k == docStar || k == docBlank || k == docTag || k == docString

/-- The kinds of code: neither white space nor part of a doc comment. -/
def Kind.isCode (k : Kind) : Bool :=
  k != whitespace && !k.isDoc

namespace Lexer

open Text

/-- A piece of source text. -/
inductive Piece where
  | code (l : Lexeme)
  | space (cs : List Char)
  | doc (body : List Char)

/-- The text can stand between the markers of a doc comment: no close marker stands in it, and its
first character does not close the open marker. -/
structure Closed (body : List Char) : Prop where
  unclosed : Unclosed body
  start : body.head? ≠ some '/'

namespace Piece

/-- The lexemes of the piece. -/
def lexemes : Piece → List Lexeme
  | code l => [l]
  | space cs => (cutLines isLineBreak cs).map fun line => ⟨.whitespace, String.ofList line⟩
  | doc body => docComment body

/-- The characters of the piece. -/
def chars : Piece → List Char
  | code l => l.text.toList
  | space cs => cs
  | doc body => "/**".toList ++ body ++ "*/".toList

/-- What holds of the pieces that the lexer takes. -/
def Valid : Piece → Prop
  | code l => l.kind.isCode = true ∧ l.text.toList ≠ []
  | space cs => cs ≠ [] ∧ ∀ c ∈ cs, isCodeSpace c = true
  | doc body => Closed body

/-- The lexemes of a piece make up its text. -/
theorem charsOf_lexemes (p : Piece) : charsOf p.lexemes = p.chars := by
  cases p with
  | code l => simp [lexemes, chars]
  | space cs =>
      simp only [lexemes, chars, charsOf, List.flatMap_map, String.toList_ofList]
      rw [List.flatMap_id']
      exact flatten_cutLines isLineBreak cs
  | doc body => simp [lexemes, chars, docComment]

end Piece

/-- The lexemes of consecutive pieces. -/
def lexemesOf (ps : List Piece) : List Lexeme :=
  ps.flatMap Piece.lexemes

/-- No pieces have no lexemes. -/
@[simp] theorem lexemesOf_nil : lexemesOf [] = [] := rfl

/-- The lexemes of pieces start with those of the first one. -/
@[simp] theorem lexemesOf_cons (p : Piece) (ps : List Piece) :
    lexemesOf (p :: ps) = p.lexemes ++ lexemesOf ps := rfl

/-- The lexemes of pieces in a row are those of the first ones and those of the others. -/
@[simp] theorem lexemesOf_append (ps qs : List Piece) :
    lexemesOf (ps ++ qs) = lexemesOf ps ++ lexemesOf qs :=
  List.flatMap_append

/-! ## Widths -/

/-- A line comment that does not end at once has a width. -/
theorem lineCommentWidth_pos {c : Char} {cs : List Char} (hbreak : isLineBreak c = false)
    (hc : c ≠ '?') : 0 < lineCommentWidth (c :: cs) := by
  rw [lineCommentWidth]
  · simp [hbreak]
  · simp [hc]

/-- A variable is not empty. -/
theorem variableWidth?_pos {cs : List Char} {width : Nat} (h : variableWidth? cs = some width) :
    0 < width := by
  unfold variableWidth? at h
  split at h
  · split at h
    · cases h
      omega
    · cases h
  · cases h

/-- A name is not empty. -/
theorem nameWidth?_pos {cs : List Char} {width : Nat} (h : nameWidth? cs = some width) :
    0 < width := by
  unfold nameWidth? at h
  split at h
  · split at h
    · cases h
      omega
    · cases h
  · split at h
    · cases h
      omega
    · cases h
  · cases h

/-- A number is not empty. -/
theorem numberWidth?_pos {cs : List Char} {width : Nat} (h : numberWidth? cs = some width) :
    0 < width := by
  have hbased : ∀ w, basedWidth? cs = some w → 0 < w := by
    intro w hw
    unfold basedWidth? at hw
    split at hw
    · simp only at hw
      split at hw
      · cases hw
      · cases hw
        omega
    · cases hw
  have hdecimal : ∀ w, decimalWidth? cs = some w → 0 < w := by
    intro w hw
    unfold decimalWidth? at hw
    split at hw
    · split at hw
      · cases hw
        omega
      · cases hw
    · cases hw
  have hpoint : ∀ w, pointWidth? cs = some w → 0 < w := by
    intro w hw
    unfold pointWidth? at hw
    split at hw
    · split at hw
      · cases hw
      · cases hw
        omega
    · cases hw
  unfold numberWidth? at h
  rcases Option.or_eq_some_iff.1 h with h | ⟨-, h⟩
  · exact hbased _ h
  · rcases Option.or_eq_some_iff.1 h with h | ⟨-, h⟩
    · exact hdecimal _ h
    · exact hpoint _ h

/-! ## What a step takes -/

/-- A step that takes a piece from the text `cs`. -/
def Takes (s : Step) (cs : List Char) : Prop :=
  ∃ p : Piece, p.Valid ∧ s.lexemes = p.lexemes ∧ p.chars = cs.take s.width ∧ 0 < s.width

/-- Taking some characters of code is a step that takes a piece. -/
theorem takes_take {kind : Kind} {width : Nat} {cs : List Char} (hkind : kind.isCode = true)
    (hwidth : 0 < width) (hcs : cs ≠ []) : Takes (take kind width cs) cs := by
  refine ⟨.code ⟨kind, String.ofList (cs.take width)⟩, ⟨hkind, ?_⟩, rfl, ?_, hwidth⟩
  · obtain ⟨c, cs, rfl⟩ := List.exists_cons_of_ne_nil hcs
    obtain ⟨n, rfl⟩ := Nat.exists_eq_succ_of_ne_zero (Nat.ne_of_gt hwidth)
    simp
  · simp [Piece.chars, take]

/-- Keywords are code. -/
theorem isCode_keyword (word : String) : (keyword word).isCode = true := by
  unfold keyword
  split <;> rfl

/-- Words are code, whatever kind they are of. -/
theorem isCode_classify (previous : Option Lexeme) (word : String) (after : List Char) :
    (classify previous word after).isCode = true := by
  unfold classify
  simp only
  repeat' split
  all_goals first | rfl | exact isCode_keyword _

/-- Punctuation is code. -/
theorem isCode_punctuation (c : Char) : (punctuation c).isCode = true := by
  unfold punctuation
  split <;> rfl

/-- An operator is taken as a piece. -/
theorem takes_operator (c : Char) (rest : List Char) :
    Takes (operator c (c :: rest)) (c :: rest) := by
  unfold operator
  split
  · next op hop =>
      have hpos : ∀ op ∈ operators, 0 < op.length := by decide
      refine takes_take ?_ (hpos op (List.mem_of_find?_eq_some hop)) (by simp)
      split <;> rfl
  · exact takes_take (isCode_punctuation c) Nat.one_pos (by simp)

/-- A word is taken as a piece. -/
theorem takes_word (previous : Option Lexeme) (c : Char) (rest : List Char) :
    Takes (word previous c rest) (c :: rest) := by
  unfold word
  simp only
  split
  · next h => exact takes_take rfl (variableWidth?_pos h) (by simp)
  · next h => exact takes_take (isCode_classify _ _ _) (nameWidth?_pos h) (by simp)
  · next h => exact takes_take rfl (numberWidth?_pos h) (by simp)
  · exact takes_operator c rest

/-- A doc comment is taken as a piece. -/
theorem takes_docStep {cs rest : List Char} {s : Step} (hcs : cs = "/**".toList ++ rest)
    (hstart : rest.head? ≠ some '/') (h : docStep rest = .ok s) : Takes s cs := by
  unfold docStep at h
  split at h
  · next offset hoffset =>
      cases h
      obtain ⟨tail, htail⟩ := offsetOf?_eq_some hoffset
      have hbody : Closed (rest.take offset) := by
        refine ⟨unclosed_take hoffset, fun hhead => hstart ?_⟩
        rw [List.head?_take] at hhead
        split at hhead
        · cases hhead
        · exact hhead
      refine ⟨.doc (rest.take offset), hbody, rfl, ?_, by simp⟩
      have hlen : (rest.take offset).length = offset := by
        have := congrArg List.length htail
        simp only [List.length_append, List.length_take, List.length_cons, List.length_nil] at this
        simp only [List.length_take]
        omega
      have hwidth : ("/**".toList ++ rest.take offset ++ "*/".toList).length = offset + 5 := by
        simp [hlen]
      have hsplit : cs = "/**".toList ++ rest.take offset ++ "*/".toList ++ tail := by
        rw [hcs, List.append_assoc, List.append_assoc]
        exact congrArg _ htail
      rw [hsplit]
      exact (List.take_left' hwidth).symm
  · cases h

/-- A block comment is taken as a piece. -/
theorem takes_blockStep {cs rest : List Char} {s : Step} (hcs : cs ≠ [])
    (h : blockStep cs rest = .ok s) : Takes s cs := by
  unfold blockStep at h
  split at h
  · cases h
    exact takes_take rfl (by omega) hcs
  · cases h

/-- A heredoc is taken as a piece. -/
theorem takes_heredoc {cs rest : List Char} {s : Step} (hcs : cs ≠ [])
    (h : heredoc cs rest = .ok s) : Takes s cs := by
  unfold heredoc at h
  split at h
  · cases h
    exact takes_take rfl (by omega) hcs
  · simp only at h
    split at h
    · cases h
      exact takes_take rfl (by omega) hcs
    · cases h

/-- A text starts with a piece when something is left behind the piece. -/
theorem startsWith_eq_true {lead : String} {cs : List Char} :
    startsWith lead cs = true ↔ ∃ rest, cs = lead.toList ++ rest := by
  unfold startsWith
  rw [List.isPrefixOf_iff_prefix]
  exact ⟨fun ⟨rest, h⟩ => ⟨rest, h.symm⟩, fun ⟨rest, h⟩ => ⟨rest, h.symm⟩⟩

/-- Every step takes one valid piece. -/
theorem exists_piece {previous : Option Lexeme} {c : Char} {rest : List Char} {s : Step}
    (h : step previous c rest = .ok s) : Takes s (c :: rest) := by
  -- the branches of the lexer in order; white space and doc comments make up pieces of their own
  unfold step at h
  simp only at h
  split at h
  · next htag =>
      cases h
      obtain ⟨tail, htail⟩ := startsWith_eq_true.1 htag
      rw [htail]
      exact ⟨.code ⟨.closeTag, "?>"⟩, ⟨rfl, by decide⟩, rfl, rfl, by simp⟩
  split at h
  · next hspace =>
      cases h
      have hwidth : 0 < ((c :: rest).takeWhile isCodeSpace).length := by simp [hspace]
      refine ⟨.space ((c :: rest).takeWhile isCodeSpace), ⟨?_, ?_⟩, rfl, ?_, hwidth⟩
      · exact List.length_pos_iff.1 hwidth
      · exact fun c hc => List.mem_takeWhile_imp hc
      · exact (List.prefix_iff_eq_take.1 (List.takeWhile_prefix _))
  split at h
  · next hdoc =>
      rw [Bool.and_eq_true] at hdoc
      obtain ⟨tail, htail⟩ := startsWith_eq_true.1 hdoc.1
      obtain ⟨rfl, rfl⟩ : c = '/' ∧ rest = '*' :: '*' :: tail := by simpa using htail
      refine takes_docStep rfl (fun hhead => ?_) h
      obtain ⟨rest, rfl⟩ := List.head?_eq_some_iff.1 hhead
      simp [startsWith] at hdoc
  split at h
  · exact takes_blockStep (by simp) h
  split at h
  · next hline =>
      cases h
      refine takes_take rfl ?_ (by simp)
      simp only [Bool.or_eq_true, Bool.and_eq_true, decide_eq_true_eq] at hline
      rcases hline with hline | ⟨rfl, -⟩
      · obtain ⟨tail, htail⟩ := startsWith_eq_true.1 hline
        obtain ⟨rfl, rfl⟩ : c = '/' ∧ rest = '/' :: tail := by simpa using htail
        exact lineCommentWidth_pos rfl (by decide)
      · exact lineCommentWidth_pos rfl (by decide)
  split at h
  · cases h
    exact takes_take rfl Nat.one_pos (by simp)
  split at h
  · split at h
    · cases h
      exact takes_take rfl (Nat.succ_pos _) (by simp)
    · cases h
  split at h
  · exact takes_heredoc (by simp) h
  · cases h
    exact takes_word previous c rest

/-- Blanks are white space of code. -/
theorem isCodeSpace_of_isBlank {c : Char} (h : isBlank c = true) : isCodeSpace c = true := by
  simp only [isBlank, Bool.or_eq_true, decide_eq_true_eq] at h
  rcases h with rfl | rfl <;> rfl

/-- White space is taken up to the first other character. -/
theorem step_space {previous : Option Lexeme} {c : Char} (hc : isCodeSpace c = true)
    (rest : List Char) :
    step previous c rest = .ok ⟨(Piece.space ((c :: rest).takeWhile isCodeSpace)).lexemes,
      ((c :: rest).takeWhile isCodeSpace).length, .code⟩ := by
  have hno : startsWith "?>" (c :: rest) = false := by
    cases hstart : startsWith "?>" (c :: rest) with
    | false => rfl
    | true =>
        obtain ⟨tail, htail⟩ := startsWith_eq_true.1 hstart
        obtain rfl : c = '?' := by simpa using congrArg List.head? htail
        exact absurd hc (by decide)
  unfold step
  simp only [hno, hc]
  rfl

/-- A run of characters is as long as it is counted. -/
theorem take_length_takeWhile (p : Char → Bool) (cs : List Char) :
    cs.take (cs.takeWhile p).length = cs.takeWhile p :=
  (List.prefix_iff_eq_take.1 (List.takeWhile_prefix p)).symm

/-- Behind the white space that a step takes there is no more of it. -/
theorem takeWhile_of_step {previous : Option Lexeme} {c : Char} {cs rest : List Char} {s : Step}
    (hc : isCodeSpace c = true) (taken : step previous c (cs ++ rest) = .ok s)
    (width : c :: cs = (c :: cs ++ rest).take s.width) : rest.takeWhile isCodeSpace = [] := by
  rw [step_space hc] at taken
  cases taken
  have hrun : c :: cs = (c :: cs ++ rest).takeWhile isCodeSpace :=
    width.trans (take_length_takeWhile isCodeSpace _)
  have hspace : ∀ d ∈ c :: cs, isCodeSpace d = true := by
    intro d hd
    rw [hrun] at hd
    exact List.mem_takeWhile_imp hd
  rw [List.takeWhile_append_of_pos hspace] at hrun
  exact List.self_eq_append_right.1 hrun

/-- An open tag is at least as wide as its mark. -/
theorem openTagWidth?_pos {cs : List Char} {width : Nat} (h : openTagWidth? cs = some width) :
    2 ≤ width := by
  unfold openTagWidth? at h
  split at h
  · split at h
    · split at h
      · cases h
        omega
      · split at h <;> cases h <;> omega
    · cases h
      omega
    · cases h
      omega
  · cases h

/-- An open tag is not wider than the text. -/
theorem openTagWidth?_le {cs : List Char} {width : Nat} (h : openTagWidth? cs = some width) :
    width ≤ cs.length := by
  unfold openTagWidth? at h
  split at h
  · split at h
    · simp only [List.length_cons]
      split at h
      · cases h
        omega
      · split at h <;> cases h <;> omega
    · cases h
      simp only [List.length_cons]
      omega
    · cases h
      simp only [List.length_cons]
      omega
  · cases h

/-- An open tag is found inside the text. -/
theorem openTag?_bounds {cs : List Char} {offset width : Nat}
    (h : openTag? cs = some (offset, width)) : 2 ≤ width ∧ offset + width ≤ cs.length := by
  induction cs generalizing offset width with
  | nil => cases h
  | cons c cs ih =>
      rw [openTag?] at h
      split at h
      · next w hw =>
          cases h
          exact ⟨openTagWidth?_pos hw, by simpa using openTagWidth?_le hw⟩
      · obtain ⟨⟨o, w⟩, hfound, heq⟩ := Option.map_eq_some_iff.1 h
        cases heq
        have := ih hfound
        exact ⟨this.1, by simp only [List.length_cons]; omega⟩

/-- The characters of consecutive pieces. -/
def textOf (ps : List Piece) : List Char :=
  ps.flatMap Piece.chars

/-- No pieces have no text. -/
@[simp] theorem textOf_nil : textOf [] = [] := rfl

/-- The text of pieces starts with that of the first one. -/
@[simp] theorem textOf_cons (p : Piece) (ps : List Piece) :
    textOf (p :: ps) = p.chars ++ textOf ps := rfl

/-- The text of pieces in a row is that of the first ones and that of the others. -/
@[simp] theorem textOf_append (ps qs : List Piece) :
    textOf (ps ++ qs) = textOf ps ++ textOf qs := by
  simp [textOf]

/-- The lexemes of pieces make up their text. -/
theorem charsOf_lexemesOf (ps : List Piece) : charsOf (lexemesOf ps) = textOf ps := by
  induction ps with
  | nil => rfl
  | cons p ps ih => rw [lexemesOf_cons, charsOf_append, p.charsOf_lexemes, ih, textOf_cons]

/-- The inline HTML `cs`, or no piece for the empty text. -/
def html? (cs : List Char) : List Piece :=
  (lexeme? .inlineHtml cs).map .code

/-- A piece of HTML, if there is any, has its text. -/
@[simp] theorem textOf_html? (cs : List Char) : textOf (html? cs) = cs := by
  rw [textOf, html?, List.flatMap_map]
  exact charsOf_lexeme? _ _

/-- A piece of HTML is a single lexeme, if there is any. -/
@[simp] theorem lexemesOf_html? (cs : List Char) :
    lexemesOf (html? cs) = lexeme? .inlineHtml cs := by
  simp [lexemesOf, html?, List.flatMap_map, Piece.lexemes]

/-- A piece of HTML is valid. -/
theorem valid_of_mem_html? {cs : List Char} {p : Piece} (h : p ∈ html? cs) : p.Valid := by
  obtain ⟨l, hl, rfl⟩ := List.mem_map.1 h
  unfold lexeme? at hl
  split at hl
  · simp at hl
  · next hne =>
      rw [List.mem_singleton.1 hl]
      exact ⟨rfl, by simpa using hne⟩

/-- The lexer reads the pieces, in the given mode and after the significant lexeme `previous`. -/
inductive Reads : Mode → Option Lexeme → List Piece → Prop where
  | nil {mode : Mode} {previous : Option Lexeme} : Reads mode previous []
  | html {previous : Option Lexeme} {cs : List Char} (nonempty : cs ≠ [])
      (untagged : openTag? cs = none) : Reads .html previous (html? cs)
  | openTag {previous : Option Lexeme} {html tag : List Char} {ps : List Piece}
      (found : openTag? (html ++ tag ++ textOf ps) = some (html.length, tag.length))
      (rest : Reads .code (some ⟨.openTag, String.ofList tag⟩) ps) :
      Reads .html previous (html? html ++ .code ⟨.openTag, String.ofList tag⟩ :: ps)
  | step {previous : Option Lexeme} {c : Char} {cs : List Char} {p : Piece} {ps : List Piece}
      {s : Step} (valid : p.Valid) (chars : p.chars = c :: cs)
      (taken : step previous c (cs ++ textOf ps) = .ok s) (lexemes : s.lexemes = p.lexemes)
      (width : p.chars = (p.chars ++ textOf ps).take s.width)
      (rest : Reads s.mode (lastSignificant previous p.lexemes) ps) :
      Reads .code previous (p :: ps)

/-- What is left behind the characters that a step takes. -/
theorem drop_of_take {c : Char} {cs rest : List Char} {width : Nat}
    (h : c :: cs = (c :: cs ++ rest).take width) : (cs ++ rest).drop (width - 1) = rest := by
  cases width with
  | zero => cases h
  | succ n =>
      have hsplit := List.take_append_drop (n + 1) (c :: cs ++ rest)
      rw [← h] at hsplit
      have hrest := List.append_cancel_left hsplit
      rwa [List.cons_append, List.drop_succ_cons] at hrest

/-- HTML without an open tag is taken up to its end. -/
theorem lexFrom_untagged {previous : Option Lexeme} {cs : List Char} (nonempty : cs ≠ [])
    (untagged : openTag? cs = none) :
    lexFrom .html previous cs = ⟨lexeme? .inlineHtml cs, none⟩ := by
  obtain ⟨c, rest, rfl⟩ := List.exists_cons_of_ne_nil nonempty
  rw [lexFrom]
  simp only [untagged]

/-- HTML is taken up to an open tag, and the tag with it. -/
theorem lexFrom_openTag {previous : Option Lexeme} {html tag cs : List Char}
    (found : openTag? (html ++ tag ++ cs) = some (html.length, tag.length)) :
    lexFrom .html previous (html ++ tag ++ cs) =
      (lexFrom .code (some ⟨.openTag, String.ofList tag⟩) cs).prepend
        (lexeme? .inlineHtml html ++ [⟨.openTag, String.ofList tag⟩]) := by
  have hne : html ++ tag ++ cs ≠ [] := by
    intro hnil
    rw [hnil] at found
    cases found
  have htwo := (openTag?_bounds found).1
  obtain ⟨c, rest, hcs⟩ := List.exists_cons_of_ne_nil hne
  have hdrop : rest.drop (html.length + tag.length - 1) = cs := by
    rw [← List.drop_succ_cons (a := c), ← hcs, Nat.sub_add_cancel (by omega),
      ← List.length_append, List.drop_left]
  rw [hcs] at found ⊢
  rw [lexFrom]
  simp only [found, hdrop]
  rw [← hcs, List.append_assoc, List.take_left, List.drop_left, List.take_left]

/-- The lexer stops where a step fails. -/
theorem lexFrom_stop {previous : Option Lexeme} {c : Char} {rest : List Char} {k : Construct}
    (h : step previous c rest = .error k) : lexFrom .code previous (c :: rest) = ⟨[], some k⟩ := by
  rw [lexFrom]
  simp only [h]

/-- The lexer goes on behind what a step takes. -/
theorem lexFrom_step {previous : Option Lexeme} {c : Char} {cs rest : List Char} {s : Step}
    (taken : step previous c (cs ++ rest) = .ok s)
    (width : c :: cs = (c :: cs ++ rest).take s.width) :
    lexFrom .code previous (c :: cs ++ rest) =
      (lexFrom s.mode (lastSignificant previous s.lexemes) rest).prepend s.lexemes := by
  rw [List.cons_append, lexFrom]
  simp only [taken, drop_of_take width]

/-- Reading the text of the pieces gives their lexemes. -/
theorem Reads.lexFrom_eq {mode : Mode} {previous : Option Lexeme} {ps : List Piece}
    (h : Reads mode previous ps) : lexFrom mode previous (textOf ps) = ⟨lexemesOf ps, none⟩ := by
  induction h with
  | nil => rw [textOf_nil, lexFrom, lexemesOf_nil]
  | @html previous cs nonempty untagged =>
      rw [textOf_html?, lexemesOf_html?, lexFrom_untagged nonempty untagged]
  | @openTag previous html tag ps found rest ih =>
      rw [textOf_append, textOf_html?, textOf_cons, Piece.chars, String.toList_ofList,
        ← List.append_assoc, lexFrom_openTag found, ih]
      simp [Lexing.prepend, Piece.lexemes]
  | @step previous c cs p ps s valid chars taken lexemes width rest ih =>
      rw [chars] at width
      rw [textOf_cons, chars, lexFrom_step taken width, lexemes, ih]
      rfl

/-- An open tag that is found divides the text. -/
theorem exists_openTag {cs : List Char} {offset width : Nat}
    (h : openTag? cs = some (offset, width)) :
    ∃ html tag rest, cs = html ++ tag ++ rest ∧ offset = html.length ∧ width = tag.length := by
  have hle := (openTag?_bounds h).2
  refine ⟨cs.take offset, (cs.drop offset).take width, (cs.drop offset).drop width, ?_, ?_, ?_⟩
  · rw [List.append_assoc, List.take_append_drop, List.take_append_drop]
  · rw [List.length_take]
    omega
  · rw [List.length_take, List.length_drop]
    omega

/-- A width divides a text into a front of that width and what is left. -/
theorem exists_front {width : Nat} (hpos : 0 < width) (c : Char) (rest : List Char) :
    ∃ front after, rest = front ++ after ∧ c :: front = (c :: front ++ after).take width := by
  obtain ⟨n, rfl⟩ := Nat.exists_eq_succ_of_ne_zero (Nat.ne_of_gt hpos)
  refine ⟨rest.take n, rest.drop n, (List.take_append_drop n rest).symm, ?_⟩
  rw [List.cons_append, List.take_append_drop, List.take_succ_cons]

/-- Induction along the lexer: at the end of the text, in HTML without an open tag, over an open
tag, at a construct that stops the lexer, and over a step. -/
@[elab_as_elim]
theorem lexFrom_induction {motive : Mode → Option Lexeme → List Char → Prop}
    (nil : ∀ mode previous, motive mode previous [])
    (html : ∀ previous cs, cs ≠ [] → openTag? cs = none → motive .html previous cs)
    (openTag : ∀ previous html tag cs,
      openTag? (html ++ tag ++ cs) = some (html.length, tag.length) → tag ≠ [] →
      motive .code (some ⟨.openTag, String.ofList tag⟩) cs →
      motive .html previous (html ++ tag ++ cs))
    (stop : ∀ previous c rest construct,
      step previous c rest = .error construct → motive .code previous (c :: rest))
    (step : ∀ previous c front cs s, step previous c (front ++ cs) = .ok s →
      c :: front = (c :: front ++ cs).take s.width →
      motive s.mode (lastSignificant previous s.lexemes) cs →
      motive .code previous (c :: front ++ cs))
    (mode : Mode) (previous : Option Lexeme) (cs : List Char) : motive mode previous cs := by
  induction hn : cs.length using Nat.strongRecOn generalizing mode previous cs with
  | _ n ih =>
      cases cs with
      | nil => exact nil mode previous
      | cons c rest =>
          cases mode with
          | html =>
              cases hfound : openTag? (c :: rest) with
              | none => exact html previous _ (by simp) hfound
              | some found =>
                  obtain ⟨offset, width⟩ := found
                  have htwo := (openTag?_bounds hfound).1
                  obtain ⟨front, tag, after, heq, rfl, rfl⟩ := exists_openTag hfound
                  rw [heq] at hfound hn ⊢
                  rw [List.length_append, List.length_append] at hn
                  refine openTag previous front tag after hfound ?_
                    (ih after.length (by omega) _ _ after rfl)
                  rintro rfl
                  cases htwo
          | code =>
              cases hstep : Lexer.step previous c rest with
              | error construct => exact stop previous c rest construct hstep
              | ok s =>
                  obtain ⟨-, -, -, -, hpos⟩ := exists_piece hstep
                  obtain ⟨front, after, rfl, hwidth⟩ := exists_front hpos c rest
                  rw [List.length_cons, List.length_append] at hn
                  exact step previous c front after s hstep hwidth
                    (ih after.length (by omega) _ _ after rfl)

/-- A text that can be read to its end is a row of valid pieces. -/
theorem exists_reads {mode : Mode} {previous : Option Lexeme} {cs : List Char}
    (h : (lexFrom mode previous cs).stopped = none) :
    ∃ ps : List Piece, (∀ p ∈ ps, p.Valid) ∧ textOf ps = cs ∧ Reads mode previous ps := by
  induction mode, previous, cs using lexFrom_induction with
  | nil mode previous => exact ⟨[], by simp, rfl, .nil⟩
  | html previous cs nonempty untagged =>
      exact ⟨html? cs, fun p => valid_of_mem_html?, textOf_html? _, .html nonempty untagged⟩
  | openTag previous html tag cs found nonempty ih =>
      rw [lexFrom_openTag found] at h
      obtain ⟨ps, hvalid, rfl, hreads⟩ := ih h
      refine ⟨html? html ++ .code ⟨.openTag, String.ofList tag⟩ :: ps, ?_, ?_,
        .openTag found hreads⟩
      · intro p hp
        rcases List.mem_append.1 hp with hp | hp
        · exact valid_of_mem_html? hp
        · rcases List.mem_cons.1 hp with rfl | hp
          · exact ⟨rfl, by rwa [String.toList_ofList]⟩
          · exact hvalid p hp
      · rw [textOf_append, textOf_html?, textOf_cons, Piece.chars, String.toList_ofList,
          ← List.append_assoc]
  | stop previous c rest construct stopped =>
      rw [lexFrom_stop stopped] at h
      cases h
  | step previous c front cs s taken width ih =>
      rw [lexFrom_step taken width] at h
      obtain ⟨ps, hvalid, rfl, hreads⟩ := ih h
      obtain ⟨p, hp, hlexemes, hchars, -⟩ := exists_piece taken
      rw [← List.cons_append, ← width] at hchars
      refine ⟨p :: ps, by simpa using ⟨hp, hvalid⟩, by rw [textOf_cons, hchars],
        .step hp hchars taken hlexemes (by rwa [hchars]) ?_⟩
      rw [← hlexemes]
      exact hreads

end Lexer

end PhpDoc
