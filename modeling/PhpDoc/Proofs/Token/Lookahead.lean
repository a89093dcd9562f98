import PhpDoc.Proofs.Token.Heredoc

/-!
# How far the lexer looks ahead

What the lexer takes in front of a construct that has to be terminated does not depend on the
construct. No rule for words and numbers reads on with one of the characters that start such a
construct (`openers`), so each gives the same width when the text ends there: the text behind is
`Fresh`. What ends by a mark of its own, a comment, a literal or a heredoc, ends in the same place
whatever stands behind the mark.
-/

namespace PhpDoc.Lexer

open Text

variable {lead y z : List Char}

/-- The characters that start the constructs that have to be terminated. -/
def openers : List Char := ['/', '\'', '"', '\x60', '<']

/-- The text is empty or starts with the first character of a construct that has to be
terminated. -/
def Fresh (cs : List Char) : Prop :=
  ∀ a, cs.head? = some a → a ∈ openers

/-- The empty text is fresh. -/
theorem fresh_nil : Fresh [] := by
  rintro a ⟨⟩

/-- A text that starts with an opener is fresh. -/
theorem fresh_cons {a : Char} (h : a ∈ openers) (cs : List Char) : Fresh (a :: cs) := by
  rintro b ⟨⟩
  exact h

/-- A text that can only start with a slash is fresh. -/
theorem fresh_of_slash (h : ∀ a, y.head? = some a → a = '/') : Fresh y := by
  intro a ha
  rw [h a ha]
  decide

/-- A fresh text does not start with a character that is no opener. -/
theorem Fresh.ne {a c : Char} (h : Fresh (a :: y)) (hc : c ∉ openers) : a ≠ c := by
  rintro rfl
  exact hc (h a rfl)

/-! ## Leading runs -/

/-- A run of characters that are no openers ends in front of a fresh text. -/
theorem takeWhile_stop {p : Char → Bool} (hp : ∀ a ∈ openers, p a = false) (h : Fresh y)
    (lead : List Char) : (lead ++ y).takeWhile p = lead.takeWhile p := by
  induction lead with
  | nil =>
      cases y with
      | nil => rfl
      | cons a y => simp [hp a (h a rfl)]
  | cons c lead ih =>
      rw [List.cons_append, List.takeWhile_cons, List.takeWhile_cons, ih]

/-- What is left behind such a run ends with the fresh text. -/
theorem dropWhile_stop {p : Char → Bool} (hp : ∀ a ∈ openers, p a = false) (h : Fresh y)
    (lead : List Char) : (lead ++ y).dropWhile p = lead.dropWhile p ++ y := by
  induction lead with
  | nil =>
      cases y with
      | nil => rfl
      | cons a y => simp [hp a (h a rfl)]
  | cons c lead ih =>
      rw [List.cons_append, List.dropWhile_cons, List.dropWhile_cons, ih]
      split <;> rfl

/-- What stands behind the leading run of a class. -/
theorem drop_takeWhile (p : Char → Bool) (lead y : List Char) :
    (lead ++ y).drop (lead.takeWhile p).length = lead.drop (lead.takeWhile p).length ++ y := by
  rw [List.drop_append_of_le_length]
  exact (List.takeWhile_sublist p).length_le

/-- A prefix that is no longer than a text is looked for in that text only. -/
theorem isPrefixOf_append {needle : List Char} (h : needle.length ≤ lead.length) (y : List Char) :
    needle.isPrefixOf (lead ++ y) = needle.isPrefixOf lead := by
  induction needle generalizing lead with
  | nil => simp
  | cons d needle ih =>
      cases lead with
      | nil => simp at h
      | cons c lead =>
          simp only [List.length_cons, Nat.add_le_add_iff_right] at h
          rw [List.cons_append, List.isPrefixOf_cons_cons, List.isPrefixOf_cons_cons, ih h]

/-- A text without such a first character is not looked for behind one. -/
theorem isPrefixOf_stop {needle : List Char} (hneedle : ∀ a ∈ openers, a ∉ needle) (h : Fresh y)
    (lead : List Char) : needle.isPrefixOf (lead ++ y) = needle.isPrefixOf lead := by
  induction needle generalizing lead with
  | nil => simp
  | cons d needle ih =>
      have htail : ∀ a ∈ openers, a ∉ needle := fun a ha hmem =>
        hneedle a ha (List.mem_cons_of_mem d hmem)
      cases lead with
      | nil =>
          cases y with
          | nil => rfl
          | cons a y =>
              have hd : (d == a) = false := by
                simpa using fun heq => hneedle a (h a rfl) (List.mem_cons.2 (.inl heq.symm))
              simp [List.isPrefixOf_cons_cons, hd]
      | cons c lead =>
          rw [List.cons_append, List.isPrefixOf_cons_cons, List.isPrefixOf_cons_cons, ih htail]

/-- A short text is looked for up to the end of an open marker at most. -/
theorem startsWith_marker {word : String} (h : word.toList.length ≤ lead.length + 3)
    (y z : List Char) : startsWith word (lead ++ '/' :: '*' :: '*' :: y) =
      startsWith word (lead ++ '/' :: '*' :: '*' :: z) := by
  have hmarked : ∀ y, lead ++ '/' :: '*' :: '*' :: y = (lead ++ ['/', '*', '*']) ++ y := by simp
  have hlen : word.toList.length ≤ (lead ++ ['/', '*', '*']).length := by simpa using h
  rw [startsWith, startsWith, hmarked y, hmarked z, isPrefixOf_append hlen, isPrefixOf_append hlen]

/-- Whether a word goes on does not depend on a fresh text. -/
theorem startsNoWord_stop (h : Fresh y) (lead : List Char) :
    startsNoWord (lead ++ y) = startsNoWord lead := by
  have hword : ∀ a ∈ openers, isWord a = false := by decide
  cases lead with
  | cons c lead => rfl
  | nil =>
      cases y with
      | nil => rfl
      | cons a y => simp [startsNoWord, hword a (h a rfl)]

/-! ## Words and numbers -/

section Widths

variable (h : Fresh y) (lead : List Char)

include h

/-- A variable ends in front of a fresh text. -/
theorem variableWidth?_stop : variableWidth? (lead ++ y) = variableWidth? lead := by
  have hpart : ∀ a ∈ openers, isVariablePart a = false := by decide
  have hstart : ∀ a ∈ openers, isNameStart a = false := by decide
  cases y with
  | nil => rw [List.append_nil]
  | cons a y =>
      match lead with
      | [] => simp [variableWidth?, h.ne (c := '$') (by decide)]
      | [c] =>
          by_cases hc : c = '$'
          · simp [variableWidth?, hc, hstart a (h a rfl)]
          · simp [variableWidth?, hc]
      | c :: d :: lead =>
          by_cases hc : c = '$'
          · simp [variableWidth?, hc, takeWhile_stop hpart h]
          · simp [variableWidth?, hc]

omit h in
/-- A name is found by its start and its parts. -/
theorem nameWidth?_cons {c : Char} (hc : c ≠ '\\') (cs : List Char) :
    nameWidth? (c :: cs) =
      if isNameStart c then some (1 + (cs.takeWhile isNamePart).length) else none := by
  unfold nameWidth?
  split <;> simp_all

/-- A name ends in front of a fresh text. -/
theorem nameWidth?_stop : nameWidth? (lead ++ y) = nameWidth? lead := by
  have hpart : ∀ a ∈ openers, isNamePart a = false := by decide
  have hstart : ∀ a ∈ openers, isNameStart a = false := by decide
  have hbackslash : isNameStart '\\' = false := by decide
  cases y with
  | nil => rw [List.append_nil]
  | cons a y =>
      match lead with
      | [] =>
          rw [List.nil_append, nameWidth?_cons (h.ne (by decide)), hstart a (h a rfl)]
          rfl
      | [c] =>
          by_cases hc : c = '\\'
          · simp [nameWidth?, hc, hstart a (h a rfl), hbackslash]
          · rw [List.singleton_append, nameWidth?_cons hc, nameWidth?_cons hc]
            simp [hpart a (h a rfl)]
      | c :: d :: lead =>
          by_cases hc : c = '\\'
          · simp [nameWidth?, hc, takeWhile_stop hpart h]
          · rw [List.cons_append, nameWidth?_cons hc, nameWidth?_cons hc, takeWhile_stop hpart h]

/-- A number with a base ends in front of a fresh text. -/
theorem basedWidth?_stop : basedWidth? (lead ++ y) = basedWidth? lead := by
  have hhex : ∀ a ∈ openers, isHexPart a = false := by decide
  have hbinary : ∀ a ∈ openers, isBinaryPart a = false := by decide
  have hnone : ∀ cs : List Char, cs.takeWhile (fun _ => false) = [] := by
    intro cs
    cases cs <;> rfl
  cases y with
  | nil => rw [List.append_nil]
  | cons a y =>
      match lead with
      | [] => simp [basedWidth?, h.ne (c := '0') (by decide)]
      | [c] =>
          by_cases hc : c = '0'
          · simp [basedWidth?, hc, hnone, h.ne (c := 'x') (by decide), h.ne (c := 'X') (by decide),
              h.ne (c := 'b') (by decide), h.ne (c := 'B') (by decide)]
          · simp [basedWidth?, hc]
      | c :: base :: lead =>
          by_cases hc : c = '0'
          · have hpart : ∀ a ∈ openers, (if base = 'x' ∨ base = 'X' then isHexPart
                else if base = 'b' ∨ base = 'B' then isBinaryPart else fun _ => false) a =
                false := by
              intro a ha
              split
              · exact hhex a ha
              · split
                · exact hbinary a ha
                · rfl
            simp [basedWidth?, hc, takeWhile_stop hpart h]
          · simp [basedWidth?, hc]

/-- A fraction ends in front of a fresh text. -/
theorem fractionWidth_stop : fractionWidth (lead ++ y) = fractionWidth lead := by
  have hpart : ∀ a ∈ openers, isDecimalPart a = false := by decide
  have hdecimal : ∀ a ∈ openers, isDecimal a = false := by decide
  cases y with
  | nil => rw [List.append_nil]
  | cons a y =>
      match lead with
      | [] => simp [fractionWidth, h.ne (c := '.') (by decide)]
      | [c] =>
          by_cases hc : c = '.'
          · simp [fractionWidth, hc, hdecimal a (h a rfl)]
          · simp [fractionWidth, hc]
      | c :: d :: lead =>
          by_cases hc : c = '.'
          · simp only [List.cons_append, fractionWidth, hc, takeWhile_stop hpart h]
          · simp [fractionWidth, hc]

/-- An exponent ends in front of a fresh text. -/
theorem exponentWidth_stop : exponentWidth (lead ++ y) = exponentWidth lead := by
  have hdecimal : ∀ a ∈ openers, isDecimal a = false := by decide
  cases y with
  | nil => rw [List.append_nil]
  | cons a y =>
      match lead with
      | [] => simp [exponentWidth, h.ne (c := 'e') (by decide), h.ne (c := 'E') (by decide)]
      | [c] =>
          simp [exponentWidth, h.ne (c := '+') (by decide), h.ne (c := '-') (by decide),
            hdecimal a (h a rfl)]
      | c :: d :: lead =>
          by_cases hplus : d = '+'
          · simp [exponentWidth, hplus, takeWhile_stop hdecimal h]
          · by_cases hminus : d = '-'
            · simp [exponentWidth, hminus, takeWhile_stop hdecimal h]
            · have hdigits : (d :: (lead ++ a :: y)).takeWhile isDecimal =
                  (d :: lead).takeWhile isDecimal := by
                rw [← List.cons_append, takeWhile_stop hdecimal h]
              simp [exponentWidth, hplus, hminus, hdigits]

omit h in
/-- A fraction is not wider than the text. -/
theorem fractionWidth_le : fractionWidth lead ≤ lead.length := by
  unfold fractionWidth
  split
  · next d cs =>
      have hle := (List.takeWhile_sublist isDecimalPart (l := cs)).length_le
      simp only [List.length_cons]
      split <;> omega
  · exact Nat.zero_le _

/-- A decimal number ends in front of a fresh text. -/
theorem decimalWidth?_stop : decimalWidth? (lead ++ y) = decimalWidth? lead := by
  have hpart : ∀ a ∈ openers, isDecimalPart a = false := by decide
  have hdecimal : ∀ a ∈ openers, isDecimal a = false := by decide
  cases lead with
  | nil =>
      cases y with
      | nil => rfl
      | cons a y => simp [decimalWidth?, hdecimal a (h a rfl)]
  | cons d lead =>
      have hle := (List.takeWhile_sublist isDecimalPart (l := lead)).length_le
      simp only [List.cons_append, decimalWidth?, takeWhile_stop hpart h]
      generalize (lead.takeWhile isDecimalPart).length = width at hle ⊢
      have hwhole : ∀ cs n, (d :: (lead ++ cs)).drop (1 + width + n) =
          (lead.drop width ++ cs).drop n := by
        intro cs n
        rw [Nat.add_assoc, Nat.add_comm, List.drop_succ_cons, ← List.drop_drop,
          List.drop_append_of_le_length hle]
      have hbare : ∀ n, (d :: lead).drop (1 + width + n) = (lead.drop width).drop n := by
        intro n
        simpa using hwhole [] n
      have hwhole₀ : (d :: (lead ++ y)).drop (1 + width) = lead.drop width ++ y := hwhole y 0
      have hbare₀ : (d :: lead).drop (1 + width) = lead.drop width := hbare 0
      rw [hwhole₀, hbare₀, fractionWidth_stop h, hwhole, hbare,
        List.drop_append_of_le_length (fractionWidth_le _), exponentWidth_stop h]

/-- A number that starts with its point ends in front of a fresh text. -/
theorem pointWidth?_stop : pointWidth? (lead ++ y) = pointWidth? lead := by
  have hdecimal : ∀ a ∈ openers, isDecimal a = false := by decide
  cases lead with
  | nil =>
      cases y with
      | nil => rfl
      | cons a y => simp [pointWidth?, h.ne (c := '.') (by decide)]
  | cons c lead =>
      by_cases hc : c = '.'
      · simp [pointWidth?, hc, takeWhile_stop hdecimal h]
      · simp [pointWidth?, hc]

/-- A number ends in front of a fresh text. -/
theorem numberWidth?_stop : numberWidth? (lead ++ y) = numberWidth? lead := by
  rw [numberWidth?, numberWidth?, basedWidth?_stop h, decimalWidth?_stop h, pointWidth?_stop h]

/-- Whether parentheses follow does not depend on a fresh text. -/
theorem opensParameters_stop : opensParameters (lead ++ y) = opensParameters lead := by
  have hspace : ∀ a ∈ openers, isPlainSpace a = false := by decide
  unfold opensParameters
  rw [dropWhile_stop hspace h]
  cases lead.dropWhile isPlainSpace with
  | nil =>
      cases y with
      | nil => rfl
      | cons a y => simp [h.ne (c := '(') (by decide), h.ne (c := '&') (by decide)]
  | cons c lead =>
      by_cases hopen : c = '('
      · simp [hopen]
      · by_cases hc : c = '&'
        · simp only [hc, List.cons_append, dropWhile_stop hspace h]
          exact isPrefixOf_stop (by decide) h _
        · simp [hopen, hc]

/-- The kind of a word does not depend on a fresh text. -/
theorem classify_stop (previous : Option Lexeme) (word : String) :
    classify previous word (lead ++ y) = classify previous word lead := by
  unfold classify
  rw [opensParameters_stop h]

end Widths

/-! ## Constructs with an end of their own -/

/-- A line comment that ends in front of a construct ends there whatever stands behind it. -/
theorem lineCommentWidth_stop {a : Char} (ha : a ∈ openers) (hz : Fresh z)
    (h : lineCommentWidth (lead ++ a :: y) ≤ lead.length) :
    lineCommentWidth (lead ++ z) = lineCommentWidth (lead ++ a :: y) := by
  have hy : Fresh (a :: y) := fresh_cons ha y
  induction lead with
  | nil =>
      have hbreak : ∀ a ∈ openers, isLineBreak a = false := by decide
      have hpos := @lineCommentWidth_pos a y (hbreak a ha) (hy.ne (by decide))
      rw [List.nil_append, List.length_nil] at h
      omega
  | cons c lead ih =>
      by_cases hclose : ∃ rest, c = '?' ∧ lead = '>' :: rest
      · obtain ⟨rest, rfl, rfl⟩ := hclose
        rfl
      · have hstep : ∀ w, Fresh w → lineCommentWidth (c :: (lead ++ w)) =
            if isLineBreak c then 0 else lineCommentWidth (lead ++ w) + 1 := by
          intro w hw
          rw [lineCommentWidth]
          intro tail hc hrest
          cases lead with
          | nil =>
              rw [List.nil_append] at hrest
              subst hrest
              exact hw.ne (by decide) rfl
          | cons d lead => exact hclose ⟨lead, hc, by simp_all⟩
        rw [List.cons_append, hstep _ hy] at h
        rw [List.cons_append, List.cons_append, hstep _ hy, hstep _ hz]
        split
        · rfl
        · next hbreak =>
            rw [if_neg hbreak, List.length_cons, Nat.add_le_add_iff_right] at h
            rw [ih h]

/-- A character that is no backslash closes a literal or is passed over. -/
theorem closingQuote?_cons {quote c : Char} (hc : c ≠ '\\') (cs : List Char) :
    closingQuote? quote (c :: cs) =
      if c = quote then some 1 else (closingQuote? quote cs).map (· + 1) := by
  rw [closingQuote?]
  · rintro rfl
    exact absurd rfl hc
  · rintro d ds rfl
    exact absurd rfl hc

/-- A literal is closed by at least one character. -/
theorem closingQuote?_pos {quote : Char} {cs : List Char} {width : Nat}
    (h : closingQuote? quote cs = some width) : 0 < width := by
  cases cs with
  | nil => cases h
  | cons c cs =>
      by_cases hc : c = '\\'
      · subst hc
        cases cs with
        | nil => cases h
        | cons d cs =>
            rw [closingQuote?] at h
            obtain ⟨k, -, rfl⟩ := Option.map_eq_some_iff.1 h
            exact Nat.succ_pos _
      · rw [closingQuote?_cons hc] at h
        split at h
        · cases h
          exact Nat.one_pos
        · obtain ⟨k, -, rfl⟩ := Option.map_eq_some_iff.1 h
          exact Nat.succ_pos _

/-- A literal that is closed in a text is closed there whatever stands behind the text. -/
theorem closingQuote?_append {quote : Char} {width : Nat}
    (h : closingQuote? quote (lead ++ y) = some width) (hle : width ≤ lead.length) :
    closingQuote? quote (lead ++ z) = some width := by
  induction hn : lead.length using Nat.strongRecOn generalizing lead width with
  | _ n ih =>
      have hpos := closingQuote?_pos h
      cases lead with
      | nil =>
          simp only [List.length_nil] at hle
          omega
      | cons c lead =>
          simp only [List.length_cons] at hle hn
          by_cases hc : c = '\\'
          · -- an escape takes two characters, so the induction skips one
            subst hc
            cases lead with
            | nil =>
                cases y with
                | nil => cases h
                | cons d y =>
                    simp only [List.cons_append, List.nil_append, closingQuote?] at h
                    obtain ⟨k, -, rfl⟩ := Option.map_eq_some_iff.1 h
                    simp only [List.length_nil] at hle
                    omega
            | cons d lead =>
                simp only [List.cons_append, closingQuote?] at h ⊢
                obtain ⟨k, hk, rfl⟩ := Option.map_eq_some_iff.1 h
                simp only [List.length_cons] at hle hn
                rw [ih lead.length (by omega) hk (by omega) rfl]
                rfl
          · rw [List.cons_append, closingQuote?_cons hc] at h ⊢
            split
            · next hquote =>
                rw [if_pos hquote] at h
                exact h
            · next hquote =>
                rw [if_neg hquote] at h
                obtain ⟨k, hk, rfl⟩ := Option.map_eq_some_iff.1 h
                rw [ih lead.length (by omega) hk (by omega) rfl]
                rfl

/-- An occurrence in a text is the first one whatever stands behind the text. -/
theorem offsetOf?_append {needle : List Char} {offset : Nat}
    (h : offsetOf? needle (lead ++ y) = some offset) (hle : offset + needle.length ≤ lead.length) :
    offsetOf? needle (lead ++ z) = some offset := by
  induction lead generalizing offset with
  | nil =>
      have hnil : needle = [] := by
        rw [← List.length_eq_zero_iff]
        simp only [List.length_nil] at hle
        omega
      subst hnil
      simp only [List.length_nil, Nat.add_zero, Nat.le_zero] at hle
      subst hle
      cases z <;> simp [offsetOf?]
  | cons c lead ih =>
      have hlen : needle.length ≤ (c :: lead).length := Nat.le_trans (Nat.le_add_left _ _) hle
      rw [List.cons_append, offsetOf?, ← List.cons_append, isPrefixOf_append hlen] at h ⊢
      split
      · next hlead =>
          rw [if_pos hlead] at h
          exact h
      · next hlead =>
          rw [if_neg hlead] at h
          obtain ⟨k, hk, rfl⟩ := Option.map_eq_some_iff.1 h
          simp only [List.length_cons] at hle
          rw [ih hk (by omega)]
          rfl

/-! ## Heredocs -/

/-- A label holds no openers. -/
theorem IsWordLabel.not_mem {label : List Char} (h : IsWordLabel label) :
    ∀ a ∈ openers, a ∉ label := by
  have hstart : ∀ a ∈ openers, isLabelStart a = false := by decide
  have hword : ∀ a ∈ openers, isWord a = false := by decide
  intro a ha hmem
  rcases h.mem a hmem with h | h
  · rw [hstart a ha] at h
    cases h
  · rw [hword a ha] at h
    cases h

/-- No slash stands in the parts of an opener. -/
theorem OpensHeredoc.slash_not_mem {blanks quote label ending body : List Char}
    (h : OpensHeredoc blanks quote label ending body) :
    '/' ∉ blanks ++ quote ++ label ++ quote ++ ending := by
  have hblanks : '/' ∉ blanks := fun hmem => absurd (h.blanks _ hmem) (by decide)
  have hlabel : '/' ∉ label := h.label.not_mem '/' (by decide)
  have hquote : '/' ∉ quote := by
    rcases h.quote with rfl | rfl | rfl <;> decide
  have hending : '/' ∉ ending := by
    rcases h.ending with rfl | rfl | ⟨rfl, -⟩ <;> decide
  simp only [List.mem_append, not_or]
  exact ⟨⟨⟨⟨hblanks, hquote⟩, hlabel⟩, hquote⟩, hending⟩

/-- An opener does not reach behind a slash. -/
theorem heredocOpener?_le {label : List Char} {width : Nat}
    (hz : ∀ a, z.head? = some a → a = '/')
    (h : heredocOpener? (lead ++ z) = some (label, width)) : width ≤ lead.length := by
  obtain ⟨blanks, quote, ending, body, heq, hopens, rfl⟩ := heredocOpener?_eq_some_iff.1 h
  have hslash : '/' ∉ blanks ++ quote ++ label ++ quote ++ ending := hopens.slash_not_mem
  generalize blanks ++ quote ++ label ++ quote ++ ending = front at heq hslash
  rcases List.append_eq_append_iff.1 heq with ⟨part, rfl, hpart⟩ | ⟨part, rfl, -⟩
  · cases part with
    | nil => simp
    | cons a part =>
        have ha : a = '/' := hz a (by rw [hpart, List.cons_append, List.head?_cons])
        exact absurd (by simp [ha]) hslash
  · simp

/-- An opener that ends in a text is the same one whatever stands behind the text, as long as that
does not go on with its line break. -/
theorem heredocOpener?_append {label : List Char} {width : Nat} (hz : Fresh z)
    (h : heredocOpener? (lead ++ y) = some (label, width)) (hle : width ≤ lead.length) :
    heredocOpener? (lead ++ z) = some (label, width) := by
  obtain ⟨blanks, quote, ending, body, heq, hopens, rfl⟩ := heredocOpener?_eq_some_iff.1 h
  obtain ⟨part, rfl⟩ : ∃ part, lead = blanks ++ quote ++ label ++ quote ++ ending ++ part := by
    rcases List.append_eq_append_iff.1 heq with ⟨part, hfront, -⟩ | ⟨part, hlead, -⟩
    · have hpart : part = [] := by
        rw [hfront, List.length_append] at hle
        exact List.length_eq_zero_iff.1 (by omega)
      exact ⟨[], by rw [hfront, hpart, List.append_nil, List.append_nil]⟩
    · exact ⟨part, hlead⟩
  obtain rfl : part ++ y = body := by
    rw [List.append_assoc] at heq
    exact List.append_cancel_left heq
  refine heredocOpener?_eq_some_iff.2 ⟨blanks, quote, ending, part ++ z,
    List.append_assoc _ _ _, { hopens with ending := ?_ }, rfl⟩
  rcases hopens.ending with hending | hending | ⟨hending, hfeed⟩
  · exact .inl hending
  · exact .inr (.inl hending)
  · refine .inr (.inr ⟨hending, ?_⟩)
    cases part with
    | cons c part => exact hfeed
    | nil => exact fun hhead => absurd (hz _ hhead) (by decide)

/-- Whether a label closes a heredoc does not depend on a fresh text. -/
theorem closingLabel?_stop {label : List Char} (hlabel : ∀ a ∈ openers, a ∉ label) (h : Fresh y)
    (lead : List Char) : closingLabel? label (lead ++ y) = closingLabel? label lead := by
  have hblank : ∀ a ∈ openers, isBlank a = false := by decide
  unfold closingLabel?
  simp only [takeWhile_stop hblank h, drop_takeWhile, isPrefixOf_stop hlabel h]
  generalize lead.drop (lead.takeWhile isBlank).length = rest
  cases hlead : label.isPrefixOf rest with
  | false => simp
  | true =>
      have hle := (List.isPrefixOf_iff_prefix.1 hlead).length_le
      rw [List.drop_append_of_le_length hle, startsNoWord_stop h]

/-- A heredoc is closed by at least one character. -/
theorem heredocEnd?_pos {label cs : List Char} (hlabel : IsWordLabel label) {lineStart : Bool}
    {width : Nat} (h : heredocEnd? label lineStart cs = some width) : 0 < width := by
  have hclosing : ∀ {cs w}, closingLabel? label cs = some w → 0 < w := by
    intro cs w hw
    obtain ⟨indent, back, -, -, -, rfl⟩ := (closingLabel?_eq_some_iff hlabel).1 hw
    obtain ⟨c, part, rfl, -⟩ := hlabel.exists_cons
    rw [List.length_append, List.length_cons]
    omega
  cases cs with
  | nil =>
      rw [heredocEnd?] at h
      split at h
      · exact hclosing h
      · cases h
  | cons c cs =>
      rw [heredocEnd?] at h
      split at h
      · next w hw =>
          cases h
          split at hw
          · exact hclosing hw
          · cases hw
      · obtain ⟨k, -, rfl⟩ := Option.map_eq_some_iff.1 h
        exact Nat.succ_pos _

/-- A heredoc that is closed in a text is closed there whatever stands behind the text. -/
theorem heredocEnd?_stop {label : List Char} (hlabel : IsWordLabel label) (hy : Fresh y)
    (hz : Fresh z) {lineStart : Bool} {width : Nat}
    (h : heredocEnd? label lineStart (lead ++ y) = some width) (hle : width ≤ lead.length) :
    heredocEnd? label lineStart (lead ++ z) = some width := by
  induction lead generalizing lineStart width with
  | nil =>
      have := heredocEnd?_pos hlabel h
      simp only [List.length_nil] at hle
      omega
  | cons c lead ih =>
      have hclose := (closingLabel?_stop hlabel.not_mem hz (c :: lead)).trans
        (closingLabel?_stop hlabel.not_mem hy (c :: lead)).symm
      rw [List.cons_append, List.cons_append] at hclose
      rw [List.cons_append, heredocEnd?] at h ⊢
      rw [hclose]
      split at h
      · exact h
      · obtain ⟨k, hk, rfl⟩ := Option.map_eq_some_iff.1 h
        simp only [List.length_cons, Nat.add_le_add_iff_right] at hle
        rw [ih hk hle]
        rfl

end PhpDoc.Lexer
