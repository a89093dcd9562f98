import Mathlib.Data.List.Basic
import PhpDoc.Proofs.Token.Grammar

/-!
# The lines of a doc comment

The lexemes between the markers of a doc comment as data. A `DocLine` is an optional blank, an
optional star with its blank, and optional content with the blank that trails it; `DocLines` are
lines with the line breaks between them. `Proper` says what may stand where. What runs through the
automaton of the grammar is proper lines (`Run.exists_lines`), and proper lines are read back from
their text (`DocLines.docBody_charsOf`), so every run is the reading of its own text
(`docBody_of_run`).
-/

namespace PhpDoc.Lexer

open Text

/-- The text of a tag: an at sign and a name. -/
def IsTag (cs : List Char) : Prop :=
  ∃ part, cs = '@' :: part ∧ part ≠ [] ∧ ∀ c ∈ part, isTagPart c = true

/-- Every character is a space or a tab. -/
def IsBlanks (cs : List Char) : Prop :=
  ∀ c ∈ cs, isBlank c = true

/-- What a line of a doc comment says: a string, a tag, or a tag with a value. -/
inductive Content where
  | plain (string : List Char)
  | tag (name : List Char)
  | valued (name pad string : List Char)

/-- A line of a doc comment. The star comes with the blank behind it, and the content with the blank
that trails it. -/
structure DocLine where
  indent : List Char
  star? : Option (List Char)
  content? : Option (Content × List Char)

/-- The lines of a doc comment with the line breaks between them. -/
inductive DocLines where
  | last (line : DocLine)
  | next (line : DocLine) (ending : List Char) (rest : DocLines)

namespace Content

/-- The lexemes of the content. -/
def lexemes : Content → List Lexeme
  | plain string => [⟨.docString, String.ofList string⟩]
  | tag name => [⟨.docTag, String.ofList name⟩]
  | valued name pad string =>
      ⟨.docTag, String.ofList name⟩ ::
        (lexeme? .docBlank pad ++ [⟨.docString, String.ofList string⟩])

/-- What the content may be. A string by itself does not start with a tag, nor with a star where the
line could have one, and a value right behind its tag does not go on with the name. -/
def Proper (starless : Bool) : Content → Prop
  | plain string =>
      IsString string ∧ (∀ name rest, IsTag name → string ≠ name ++ rest) ∧
        (starless = true → string.head? ≠ some '*')
  | tag name => IsTag name
  | valued name pad string =>
      IsTag name ∧ IsBlanks pad ∧ IsString string ∧
        (pad = [] → ∀ c, string.head? = some c → isTagPart c = false)

end Content

namespace DocLine

/-- The line that holds nothing. -/
def empty : DocLine := ⟨[], none, none⟩

/-- The lexemes of the star and of the blank behind it. -/
def starLexemes (line : DocLine) : List Lexeme :=
  match line.star? with
  | some gap => ⟨.docStar, "*"⟩ :: lexeme? .docBlank gap
  | none => []

/-- The lexemes of the content and of the blank that trails it. -/
def contentLexemes (line : DocLine) : List Lexeme :=
  match line.content? with
  | some (content, trail) => content.lexemes ++ lexeme? .docBlank trail
  | none => []

/-- The lexemes of the line. -/
def lexemes (line : DocLine) : List Lexeme :=
  lexeme? .docBlank line.indent ++ line.starLexemes ++ line.contentLexemes

/-- What may stand in the line, which is the first one of its comment or not. -/
structure Proper (first : Bool) (line : DocLine) : Prop where
  indent : IsBlanks line.indent
  starless : first = true → line.star? = none
  gap : ∀ gap, line.star? = some gap → IsBlanks gap
  content : ∀ content trail, line.content? = some (content, trail) →
    content.Proper (!first && line.star?.isNone) ∧ IsBlanks trail

/-- A line without content is proper. -/
theorem proper_empty (first : Bool) : empty.Proper first :=
  ⟨by simp [empty, IsBlanks], fun _ => rfl, by simp [empty], by simp [empty]⟩

/-- The spot behind the line. -/
def spot (first : Bool) (line : DocLine) : Spot :=
  match line.content?, line.star?, line.indent with
  | some (.tag _, []), _, _ => .tagged
  | some (.tag _, _ :: _), _, _ => .padded
  | some (_, []), _, _ => .written
  | some (_, _ :: _), _, _ => .trailed
  | none, some [], _ => .starred
  | none, some (_ :: _), _ => .gapped
  | none, none, [] => Spot.start (!first)
  | none, none, _ :: _ => if first then .openedBlank else .indented

end DocLine

namespace DocLines

/-- The lexemes of the lines and of the line breaks between them. -/
def lexemes : DocLines → List Lexeme
  | last line => line.lexemes
  | next line ending rest => line.lexemes ++ ⟨.docBlank, String.ofList ending⟩ :: rest.lexemes

/-- What may stand in the lines. A line break is a single one. -/
def Proper (first : Bool) : DocLines → Prop
  | last line => line.Proper first
  | next line ending rest =>
      line.Proper first ∧ IsEnding ending ∧ Separate ending (charsOf rest.lexemes) ∧
        rest.Proper false

end DocLines

/-! ## From the automaton to lines -/

/-- A tag is what is taken as one as a whole. -/
theorem isTag_iff {cs : List Char} : IsTag cs ↔ tagWidth? cs = some cs.length := by
  constructor
  · rintro ⟨part, rfl, hne, hpart⟩
    exact tagWidth?_tag hne hpart
  · intro h
    obtain ⟨part, rest, rfl, hne, hpart, -, hlen⟩ := tagWidth?_eq_some_iff.1 h
    obtain rfl : rest = [] := by
      rw [← List.length_eq_zero_iff]
      simp only [List.length_cons, List.length_append] at hlen
      omega
    exact ⟨part, by simp, hne, hpart⟩

/-- A text starts with no tag when no tag is read at its start. -/
theorem tagWidth?_eq_none_iff {cs : List Char} :
    tagWidth? cs = none ↔ ∀ name rest, IsTag name → cs ≠ name ++ rest := by
  constructor
  · rintro h name rest ⟨part, rfl, hne, hpart⟩ rfl
    rw [List.cons_append, tagWidth?_cons, List.takeWhile_append_of_pos hpart] at h
    simp [hne] at h
  · intro h
    cases hwidth : tagWidth? cs with
    | none => rfl
    | some width =>
        obtain ⟨part, rest, rfl, hne, hpart, -, -⟩ := tagWidth?_eq_some_iff.1 hwidth
        exact absurd rfl (h ('@' :: part) rest ⟨part, rfl, hne, hpart⟩)

/-- A text that is not empty is a lexeme. -/
theorem lexeme?_of_ne_nil {kind : Kind} {cs : List Char} (h : cs ≠ []) :
    lexeme? kind cs = [⟨kind, String.ofList cs⟩] := by
  cases cs with
  | nil => exact absurd rfl h
  | cons c cs => rfl

namespace DocLine

variable {first : Bool} {line : DocLine}

/-- A blank behind a line belongs to it. -/
theorem exists_blank (h : line.Proper first) {q : Spot} {cs : List Char}
    (hnext : (line.spot first).afterBlank? = some q) (hne : cs ≠ []) (hblank : IsBlanks cs) :
    ∃ longer : DocLine, longer.Proper first ∧ longer.spot first = q ∧
      longer.lexemes = line.lexemes ++ [⟨.docBlank, String.ofList cs⟩] := by
  obtain ⟨c, cs, rfl⟩ := List.exists_cons_of_ne_nil hne
  obtain ⟨indent, star?, content?⟩ := line
  obtain ⟨hindent, hstarless, hgap, hcontent⟩ := h
  -- the blank goes behind what stands last in the line, and no two blanks stand side by side
  cases content? with
  | some said =>
      obtain ⟨content, trail⟩ := said
      cases trail with
      | cons d trail => cases content <;> cases hnext
      | nil =>
          refine ⟨⟨indent, star?, some (content, c :: cs)⟩, ⟨hindent, hstarless, hgap, ?_⟩, ?_, ?_⟩
          · rintro _ _ ⟨⟩
            exact ⟨(hcontent _ _ rfl).1, hblank⟩
          · cases content <;> exact Option.some.inj hnext
          · simp [lexemes, starLexemes, contentLexemes, lexeme?]
  | none =>
      cases star? with
      | some gap =>
          cases gap with
          | cons d gap => cases hnext
          | nil =>
              refine ⟨⟨indent, some (c :: cs), none⟩, ⟨hindent, ?_, ?_, by simp⟩, ?_, ?_⟩
              · intro hfirst
                cases hstarless hfirst
              · rintro _ ⟨⟩
                exact hblank
              · exact Option.some.inj hnext
              · simp [lexemes, starLexemes, contentLexemes, lexeme?]
      | none =>
          cases indent with
          | cons d indent => cases first <;> cases hnext
          | nil =>
              refine ⟨⟨c :: cs, none, none⟩, ⟨hblank, fun _ => rfl, hgap, by simp⟩, ?_, ?_⟩
              · cases first <;> exact Option.some.inj hnext
              · simp [lexemes, starLexemes, contentLexemes, lexeme?]

/-- A star behind a line belongs to it. -/
theorem exists_star (h : line.Proper first) (htakes : (line.spot first).takesStar = true) :
    ∃ longer : DocLine, longer.Proper first ∧ longer.spot first = .starred ∧
      longer.lexemes = line.lexemes ++ [⟨.docStar, "*"⟩] := by
  obtain ⟨indent, star?, content?⟩ := line
  obtain ⟨hindent, hstarless, hgap, hcontent⟩ := h
  cases content? with
  | some said =>
      obtain ⟨content, trail⟩ := said
      cases content <;> cases trail <;> cases htakes
  | none =>
      cases star? with
      | some gap => cases gap <;> cases htakes
      | none =>
          cases first with
          | true => cases indent <;> cases htakes
          | false =>
              refine ⟨⟨indent, some [], none⟩, ⟨hindent, by simp, ?_, by simp⟩, rfl, ?_⟩
              · rintro _ ⟨⟩
                simp [IsBlanks]
              · simp [lexemes, starLexemes, contentLexemes, lexeme?]

/-- Content may stand where the line has none yet. -/
theorem content?_eq_none (htakes : (line.spot first).takesTag = true) : line.content? = none := by
  obtain ⟨indent, star?, content?⟩ := line
  cases content? with
  | none => rfl
  | some said =>
      obtain ⟨content, trail⟩ := said
      cases content <;> cases trail <;> cases htakes

/-- Content behind a line without content belongs to it. -/
theorem exists_content (h : line.Proper first) (hnone : line.content? = none) {content : Content}
    (hcontent : content.Proper (!first && line.star?.isNone)) :
    ∃ longer : DocLine, longer.Proper first ∧ longer.content? = some (content, []) ∧
      longer.lexemes = line.lexemes ++ content.lexemes := by
  refine ⟨⟨line.indent, line.star?, some (content, [])⟩, ⟨h.indent, h.starless, h.gap, ?_⟩, rfl, ?_⟩
  · rintro _ _ ⟨⟩
    exact ⟨hcontent, by simp [IsBlanks]⟩
  · simp [lexemes, starLexemes, contentLexemes, hnone, lexeme?]

/-- A tag behind a line belongs to it. -/
theorem exists_tag (h : line.Proper first) {cs : List Char} (htag : IsTag cs)
    (htakes : (line.spot first).takesTag = true) :
    ∃ longer : DocLine, longer.Proper first ∧ longer.spot first = .tagged ∧
      longer.lexemes = line.lexemes ++ [⟨.docTag, String.ofList cs⟩] := by
  have hproper : (Content.tag cs).Proper (!first && line.star?.isNone) := htag
  obtain ⟨longer, hlonger, hsome, hlexemes⟩ := exists_content h (content?_eq_none htakes) hproper
  exact ⟨longer, hlonger, by rw [spot, hsome], hlexemes⟩

/-- Where a line without a star may have one, it takes a star next. -/
theorem takesStar_spot (hnone : line.content? = none)
    (hstar : (!first && line.star?.isNone) = true) : (line.spot first).takesStar = true := by
  obtain ⟨indent, star?, content?⟩ := line
  obtain rfl : content? = none := hnone
  cases first with
  | true => cases hstar
  | false =>
      cases star? with
      | some gap => cases hstar
      | none => cases indent <;> rfl

/-- A string behind a line belongs to it: it is what the line says, or the value of its tag. -/
theorem exists_string (h : line.Proper first) {cs : List Char} (hstring : IsString cs)
    (hfits : StringAt (line.spot first) cs) :
    ∃ longer : DocLine, longer.Proper first ∧ longer.spot first = .written ∧
      longer.lexemes = line.lexemes ++ [⟨.docString, String.ofList cs⟩] := by
  obtain ⟨hnoTag, hnoStar, hnoPart, hwritten, htrailed⟩ := hfits
  cases hsaid : line.content? with
  | none =>
      have hplain : (Content.plain cs).Proper (!first && line.star?.isNone) := by
        refine ⟨hstring, tagWidth?_eq_none_iff.1 (hnoTag ?_), fun hstar => hnoStar ?_⟩
        · obtain ⟨indent, star?, content?⟩ := line
          obtain rfl : content? = none := hsaid
          rcases star? with - | - | ⟨d, gap⟩ <;> cases indent <;> cases first <;> rfl
        · exact takesStar_spot hsaid hstar
      obtain ⟨longer, hlonger, hsome, hlexemes⟩ := exists_content h hsaid hplain
      exact ⟨longer, hlonger, by rw [spot, hsome], hlexemes⟩
  | some said =>
      obtain ⟨indent, star?, content?⟩ := line
      obtain rfl : content? = some said := hsaid
      obtain ⟨hindent, hstarless, hgap, hcontent⟩ := h
      obtain ⟨content, trail⟩ := said
      obtain ⟨hproper, htrail⟩ := hcontent _ _ rfl
      cases content with
      | plain string => cases trail <;> simp [spot] at hwritten htrailed
      | valued name pad string => cases trail <;> simp [spot] at hwritten htrailed
      | tag name =>
          -- the blank that trailed the tag now parts it from its value
          refine ⟨⟨indent, star?, some (.valued name trail cs, [])⟩,
            ⟨hindent, hstarless, hgap, ?_⟩, rfl, ?_⟩
          · rintro _ _ ⟨⟩
            refine ⟨⟨hproper, htrail, hstring, ?_⟩, by simp [IsBlanks]⟩
            rintro rfl
            exact hnoPart rfl
          · simp [lexemes, starLexemes, contentLexemes, Content.lexemes, lexeme?]

end DocLine

/-- A lexeme that may stand behind a line ends the line or belongs to it. -/
theorem Move.exists_line {first : Bool} {line : DocLine} {p q : Spot} {l : Lexeme}
    (move : Move p l q) (h : line.Proper first) (hp : line.spot first = p) :
    (∃ ending, IsEnding ending ∧ l = ⟨.docBlank, String.ofList ending⟩ ∧ q = .lineStart) ∨
      ∃ longer : DocLine, longer.Proper first ∧ longer.spot first = q ∧
        longer.lexemes = line.lexemes ++ [l] := by
  subst hp
  cases move with
  | blank next nonempty blanks => exact .inr (DocLine.exists_blank h next nonempty blanks)
  | ending ending => exact .inl ⟨_, ending, rfl, rfl⟩
  | star takes => exact .inr (DocLine.exists_star h takes)
  | tag takes whole => exact .inr (DocLine.exists_tag h (isTag_iff.2 whole) takes)
  | string string fits => exact .inr (DocLine.exists_string h string fits)

/-- What runs on from the spot behind a line is the rest of that line and more lines. -/
theorem Run.exists_lines_of_spot {p r : Spot} {ls : List Lexeme} (run : Run p ls r) {first : Bool}
    {line : DocLine} (h : line.Proper first) (hp : line.spot first = p) :
    ∃ lines : DocLines, lines.Proper first ∧ lines.lexemes = line.lexemes ++ ls := by
  induction run generalizing first line with
  | nil => exact ⟨.last line, h, by rw [DocLines.lexemes, List.append_nil]⟩
  | @cons p q r l ls step apart rest ih =>
      rcases step.exists_line h hp with ⟨ending, hending, rfl, rfl⟩ | ⟨longer, hlonger, hspot, heq⟩
      · obtain ⟨lines, hlines, hlexemes⟩ := ih (DocLine.proper_empty false) rfl
        have hrest : lines.lexemes = ls := hlexemes
        rw [String.toList_ofList] at apart
        refine ⟨.next line ending lines, ⟨h, hending, ?_, hlines⟩, ?_⟩
        · rwa [hrest]
        · rw [DocLines.lexemes, hrest]
      · obtain ⟨lines, hlines, hlexemes⟩ := ih hlonger hspot
        exact ⟨lines, hlines, by rw [hlexemes, heq, List.append_assoc, List.singleton_append]⟩

/-- What runs from the open marker of a comment is proper lines. -/
theorem Run.exists_lines {q : Spot} {ls : List Lexeme} (run : Run .opened ls q) :
    ∃ lines : DocLines, lines.Proper true ∧ lines.lexemes = ls :=
  run.exists_lines_of_spot (DocLine.proper_empty true) rfl

/-! ## From lines to their reading -/

/-- Blanks are no parts of tags. -/
theorem isTagPart_of_isBlank {c : Char} (h : isBlank c = true) : isTagPart c = false := by
  simp only [isBlank, Bool.or_eq_true, decide_eq_true_eq] at h
  rcases h with rfl | rfl <;> decide

/-- A tag can stand where a string stands. -/
theorem IsTag.isString {cs : List Char} (h : IsTag cs) : IsString cs := by
  have hunbroken := unbroken_of_tag (isTag_iff.1 h)
  obtain ⟨part, rfl, hne, hpart⟩ := h
  refine ⟨by simp, hunbroken, ?_, fun c hc => ?_⟩
  · rintro _ ⟨⟩
    decide
  · have hmem : c ∈ part := by
      rw [List.getLast?_cons_of_ne_nil hne] at hc
      exact List.mem_of_getLast? hc
    cases hblank : isBlank c with
    | false => rfl
    | true =>
        have := hpart c hmem
        rw [isTagPart_of_isBlank hblank] at this
        cases this

namespace Content

variable {content : Content} {starless : Bool}

/-- The content of a line has a text on one line, with no blank at either end. -/
theorem isString (h : content.Proper starless) : IsString (charsOf content.lexemes) := by
  cases content with
  | plain string => simpa [lexemes] using h.1
  | tag name => simpa [lexemes] using IsTag.isString h
  | valued name pad string =>
      obtain ⟨htag, hpad, hstring, -⟩ := h
      have hchars : charsOf (valued name pad string).lexemes = name ++ (pad ++ string) := by
        simp [lexemes]
      have hname := htag.isString
      rw [hchars]
      refine ⟨by simp [hname.ne_nil], ?_, fun c hc => hname.first c ?_,
        fun c hc => hstring.last c ?_⟩
      · rw [unbroken_append, unbroken_append]
        exact ⟨hname.unbroken, unbroken_of_blank hpad, hstring.unbroken⟩
      · rwa [List.head?_append_of_ne_nil _ hname.ne_nil] at hc
      · rwa [List.getLast?_append_of_ne_nil _ (by simp [hstring.ne_nil]),
          List.getLast?_append_of_ne_nil _ hstring.ne_nil] at hc

/-- The content of a line is read back from its text. -/
theorem docContent_charsOf (h : content.Proper starless) :
    docContent (charsOf content.lexemes) = content.lexemes := by
  cases content with
  | plain string =>
      have hchars : charsOf (plain string).lexemes = string := by simp [lexemes]
      rw [hchars, docContent, tagWidth?_eq_none_iff.2 h.2.1]
      exact lexeme?_of_ne_nil h.1.ne_nil
  | tag name =>
      have hchars : charsOf (tag name).lexemes = name := by simp [lexemes]
      rw [hchars, docContent, isTag_iff.1 h]
      simp only [List.take_length, List.drop_length, lexeme?_of_ne_nil (IsTag.isString h).ne_nil]
      rfl
  | valued name pad string =>
      obtain ⟨htag, hpad, hstring, hnoPart⟩ := h
      have hchars : charsOf (valued name pad string).lexemes = name ++ (pad ++ string) := by
        simp [lexemes]
      have hname := htag.isString
      -- the tag ends where it did: at the blank, or at a value that does not go on with it
      have hwidth : tagWidth? (name ++ (pad ++ string)) = some name.length := by
        obtain ⟨part, rfl, hne, hpart⟩ := htag
        refine tagWidth?_eq_some_iff.2 ⟨part, pad ++ string, rfl, hne, hpart, fun c hc => ?_, rfl⟩
        cases pad with
        | nil => exact hnoPart rfl c hc
        | cons d pad =>
            obtain rfl : d = c := by simpa using hc
            exact isTagPart_of_isBlank (hpad d List.mem_cons_self)
      obtain ⟨htake, hdrop⟩ := takeWhile_run hpad hstring.first
      rw [hchars, docContent, hwidth]
      simp only [List.take_left, List.drop_left, htake, hdrop, lexeme?_of_ne_nil hname.ne_nil,
        lexeme?_of_ne_nil hstring.ne_nil]
      rfl

end Content

namespace DocLine

variable {first : Bool} {line : DocLine}

/-- The content of a line and the blank that trails it are read back from their text. -/
theorem docRest_charsOf (h : line.Proper first) :
    docRest (charsOf line.contentLexemes) = line.contentLexemes := by
  cases hsaid : line.content? with
  | none =>
      rw [contentLexemes, hsaid]
      rfl
  | some said =>
      obtain ⟨content, trail⟩ := said
      obtain ⟨hcontent, htrail⟩ := h.content _ _ hsaid
      rw [contentLexemes, hsaid]
      simp only [charsOf_append, charsOf_lexeme?]
      rw [docRest_append (Content.isString hcontent).last htrail,
        Content.docContent_charsOf hcontent]

/-- What a line says starts with no blank, and with no star where the line could have one. -/
theorem head?_charsOf_content (h : line.Proper first) {c : Char}
    (hc : (charsOf line.contentLexemes).head? = some c) :
    isBlank c = false ∧ ((!first && line.star?.isNone) = true → c ≠ '*') := by
  cases hsaid : line.content? with
  | none =>
      rw [contentLexemes, hsaid] at hc
      cases hc
  | some said =>
      obtain ⟨content, trail⟩ := said
      obtain ⟨hcontent, -⟩ := h.content _ _ hsaid
      have hstring := Content.isString hcontent
      rw [contentLexemes, hsaid] at hc
      simp only [charsOf_append] at hc
      rw [List.head?_append_of_ne_nil _ hstring.ne_nil] at hc
      refine ⟨hstring.first c hc, ?_⟩
      rintro hstarless rfl
      -- a tag starts with its own mark, so only a string could start with a star
      cases content with
      | plain string => exact hcontent.2.2 hstarless (by simpa [Content.lexemes] using hc)
      | tag name =>
          obtain ⟨part, rfl, -⟩ := hcontent
          simp [Content.lexemes] at hc
      | valued name pad string =>
          obtain ⟨⟨part, rfl, -⟩, -⟩ := hcontent
          simp [Content.lexemes] at hc

/-- The characters of a line end no line. -/
theorem unbroken (h : line.Proper first) : Unbroken (charsOf line.lexemes) := by
  have hstar : Unbroken (charsOf line.starLexemes) := by
    cases hstar : line.star? with
    | none =>
        rw [starLexemes, hstar]
        exact unbroken_nil
    | some gap =>
        rw [starLexemes, hstar]
        rw [charsOf_cons, unbroken_append, charsOf_lexeme?]
        exact ⟨unbroken_star, unbroken_of_blank (h.gap gap hstar)⟩
  have hcontent : Unbroken (charsOf line.contentLexemes) := by
    cases hsaid : line.content? with
    | none =>
        rw [contentLexemes, hsaid]
        exact unbroken_nil
    | some said =>
        obtain ⟨content, trail⟩ := said
        obtain ⟨hproper, htrail⟩ := h.content _ _ hsaid
        rw [contentLexemes, hsaid]
        simp only [charsOf_append, charsOf_lexeme?, unbroken_append]
        exact ⟨(Content.isString hproper).unbroken, unbroken_of_blank htrail⟩
  rw [lexemes, charsOf_append, charsOf_append, charsOf_lexeme?, unbroken_append, unbroken_append]
  exact ⟨⟨unbroken_of_blank h.indent, hstar⟩, hcontent⟩

/-- A line is read back from its text. -/
theorem docLine_charsOf (h : line.Proper first) :
    docLine (!first) (charsOf line.lexemes) = line.lexemes := by
  have hrest := docRest_charsOf h
  have hhead := fun c => head?_charsOf_content h (c := c)
  cases hstar : line.star? with
  | some gap =>
      have hfirst : first = false := by
        cases hfirst : first with
        | false => rfl
        | true =>
            rw [h.starless hfirst] at hstar
            cases hstar
      subst hfirst
      have hchars : charsOf line.lexemes =
          line.indent ++ '*' :: (gap ++ charsOf line.contentLexemes) := by
        simp [lexemes, starLexemes, hstar]
      have hstop : ∀ c, ('*' :: (gap ++ charsOf line.contentLexemes)).head? = some c →
          isBlank c = false := by
        rintro _ ⟨⟩
        decide
      obtain ⟨hindent, hdrop⟩ := takeWhile_run h.indent hstop
      obtain ⟨hgap, hcontent⟩ := takeWhile_run (h.gap gap hstar) fun c hc => (hhead c hc).1
      rw [hchars, Bool.not_false, docLine_star hdrop, hindent, hgap, hcontent, hrest, lexemes,
        starLexemes, hstar]
      simp
  | none =>
      have hchars : charsOf line.lexemes = line.indent ++ charsOf line.contentLexemes := by
        simp [lexemes, starLexemes, hstar]
      obtain ⟨hindent, hdrop⟩ := takeWhile_run h.indent fun c hc => (hhead c hc).1
      have hplain : (!first) = true → (charsOf line.contentLexemes).head? ≠ some '*' := by
        intro hfirst hstart
        exact (hhead '*' hstart).2 (by simpa [hstar] using hfirst) rfl
      rw [hchars, docLine_plain (by rwa [hdrop]), hindent, hdrop, hrest, lexemes, starLexemes,
        hstar]
      simp

end DocLine

/-- Proper lines are read back from their text. -/
theorem DocLines.docLines_charsOf {first : Bool} {lines : DocLines} (h : lines.Proper first) :
    docLines (!first) (charsOf lines.lexemes) = lines.lexemes := by
  induction lines generalizing first with
  | last line =>
      rw [lexemes, docLines_unbroken _ (DocLine.unbroken h), DocLine.docLine_charsOf h]
  | next line ending rest ih =>
      obtain ⟨hline, hending, hapart, hrest⟩ := h
      have hchars : charsOf (next line ending rest).lexemes =
          charsOf line.lexemes ++ ending ++ charsOf rest.lexemes := by
        simp [lexemes]
      have hread := ih hrest
      rw [Bool.not_false] at hread
      rw [hchars, docLines_cons _ (DocLine.unbroken hline) hending hapart,
        DocLine.docLine_charsOf hline, hread, lexemes]

/-- The proper lines of a comment are read back from their text. -/
theorem DocLines.docBody_charsOf {lines : DocLines} (h : lines.Proper true) :
    docBody (charsOf lines.lexemes) = lines.lexemes :=
  docLines_charsOf h

/-- Every body is read as proper lines. -/
theorem exists_lines (body : List Char) :
    ∃ lines : DocLines, lines.Proper true ∧ lines.lexemes = docBody body := by
  obtain ⟨q, hrun⟩ := run_docBody body
  exact hrun.exists_lines

/-- What runs through the automaton is the reading of its own text. -/
theorem docBody_of_run {q : Spot} {ls : List Lexeme} (run : Run .opened ls q) :
    docBody (charsOf ls) = ls := by
  obtain ⟨lines, hlines, rfl⟩ := run.exists_lines
  exact DocLines.docBody_charsOf hlines

end PhpDoc.Lexer
