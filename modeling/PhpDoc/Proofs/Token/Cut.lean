import PhpDoc.Proofs.Token.Lookahead

/-!
# Steps in front of a construct

A step that ends in front of a construct that has to be terminated is the same step when the text
ends there (`step_cut`). In front of an open marker it is the same step when another text stands
behind the marker (`step_marker`). What could tell the texts apart is a word that the construct
cuts, such as the two slashes of a line comment; but each of those starts a longer step
(`le_of_startsWith`). An open tag in front of a construct is found in either text (`openTag?_cut`,
`openTag?_marker`).
-/

namespace PhpDoc.Lexer

open Text

variable {lead y z : List Char}

/-! ## Steps -/

/-- The words by which the lexer chooses a branch, and the operators. -/
def words : List String :=
  ["?>", "/**", "/**/", "/*", "//", "#[", "<<<"] ++ operators

/-- A step that takes a text of some width has that width. -/
@[simp] theorem take_width (kind : Kind) (width : Nat) (cs : List Char) :
    (take kind width cs).width = width := rfl

/-- What is taken from the front does not depend on what follows. -/
theorem take_append {width : Nat} (h : width ≤ lead.length) (kind : Kind) (y z : List Char) :
    take kind width (lead ++ y) = take kind width (lead ++ z) := by
  rw [take, take, List.take_append_of_le_length h, List.take_append_of_le_length h]

/-- A heredoc is wider than its mark. -/
theorem three_le_of_heredoc {cs rest : List Char} {s : Step} (h : heredoc cs rest = .ok s) :
    3 ≤ s.width := by
  unfold heredoc at h
  split at h
  · cases h
    exact Nat.le_refl 3
  · simp only at h
    split at h
    · cases h
      simp only [take_width]
      omega
    · cases h

/-- A heredoc that ends in front of the rest is found without the rest. -/
theorem heredoc_stop {s : Step} (hy : Fresh y) (hz : ∀ a, z.head? = some a → a = '/')
    (h : heredoc ('<' :: '<' :: '<' :: (lead ++ y)) (lead ++ y) = .ok s)
    (hwidth : s.width ≤ lead.length + 3) :
    heredoc ('<' :: '<' :: '<' :: (lead ++ z)) (lead ++ z) = .ok s := by
  have hfresh : Fresh z := fresh_of_slash hz
  unfold heredoc at h ⊢
  cases hopener : heredocOpener? (lead ++ y) with
  | none =>
      have hnone : heredocOpener? (lead ++ z) = none := by
        cases hfound : heredocOpener? (lead ++ z) with
        | none => rfl
        | some found =>
            rw [heredocOpener?_append hy hfound (heredocOpener?_le hz hfound)] at hopener
            cases hopener
      rw [hopener] at h
      rw [hnone]
      cases h
      rfl
  | some found =>
      obtain ⟨label, width⟩ := found
      rw [hopener] at h
      simp only at h
      split at h
      · next stop hstop =>
          cases h
          simp only [take_width] at hwidth
          have hle : width ≤ lead.length := by omega
          obtain ⟨_, _, _, _, -, hopens, -⟩ := heredocOpener?_eq_some_iff.1 hopener
          rw [heredocOpener?_append hfresh hopener hle]
          rw [List.take_append_of_le_length hle, List.drop_append_of_le_length hle] at hstop
          simp only [List.take_append_of_le_length hle, List.drop_append_of_le_length hle]
          have hend := heredocEnd?_stop hopens.label hy hfresh hstop
            (by rw [List.length_drop]; omega)
          rw [hend]
          have hcut : ∀ w, '<' :: '<' :: '<' :: (lead ++ w) = ('<' :: '<' :: '<' :: lead) ++ w :=
            fun w => rfl
          simp only
          rw [hcut, hcut, take_append (by simp only [List.length_cons]; omega) _ z y]
      · cases h

/-- An operator that ends in front of the rest is found without the rest. -/
theorem operator_stop {c d : Char}
    (hsame : ∀ w ∈ operators, startsWith w (c :: (lead ++ z)) = startsWith w (c :: (lead ++ y)))
    (h : (operator d (c :: (lead ++ y))).width ≤ lead.length + 1) :
    operator d (c :: (lead ++ z)) = operator d (c :: (lead ++ y)) := by
  have hfind : operators.find? (startsWith · (c :: (lead ++ z))) =
      operators.find? (startsWith · (c :: (lead ++ y))) := by
    generalize operators = ops at hsame
    induction ops with
    | nil => rfl
    | cons op ops ih =>
        obtain ⟨hop, hops⟩ := List.forall_mem_cons.1 hsame
        rw [List.find?_cons, List.find?_cons, hop, ih hops]
  unfold operator at h ⊢
  rw [hfind]
  cases hop : operators.find? (startsWith · (c :: (lead ++ y))) with
  | none => exact @take_append (c :: lead) 1 (by simp) _ z y
  | some op =>
      rw [hop] at h
      exact @take_append (c :: lead) op.length (by simpa using h) _ z y

/-- A word that ends in front of the rest is found without the rest. -/
theorem word_stop {previous : Option Lexeme} {c : Char} (hy : Fresh y) (hz : Fresh z)
    (hsame : ∀ w ∈ operators, startsWith w (c :: (lead ++ z)) = startsWith w (c :: (lead ++ y)))
    (h : (word previous c (lead ++ y)).width ≤ lead.length + 1) :
    word previous c (lead ++ z) = word previous c (lead ++ y) := by
  unfold word at h ⊢
  simp only [← List.cons_append, variableWidth?_stop hy, nameWidth?_stop hy, numberWidth?_stop hy]
    at h
  simp only [← List.cons_append, variableWidth?_stop hy, nameWidth?_stop hy, numberWidth?_stop hy,
    variableWidth?_stop hz, nameWidth?_stop hz, numberWidth?_stop hz]
  split at h
  · simp only [take_width] at h
    rw [take_append (by simpa using h)]
  · simp only [take_width] at h
    have hle : _ ≤ (c :: lead).length := h
    rw [take_append hle _ z y, List.take_append_of_le_length hle, List.take_append_of_le_length hle,
      List.drop_append_of_le_length hle, List.drop_append_of_le_length hle, classify_stop hy,
      classify_stop hz]
  · simp only [take_width] at h
    rw [take_append (by simpa using h)]
  · exact operator_stop hsame h

/-- A doc comment that is closed in a text is the same one whatever stands behind the text. -/
theorem docStep_append {s : Step} (h : docStep ((lead ++ y).drop 2) = .ok s)
    (hwidth : s.width ≤ lead.length + 1) : docStep ((lead ++ z).drop 2) = .ok s := by
  unfold docStep at h ⊢
  split at h
  · next offset hoffset =>
      cases h
      simp only at hwidth
      rw [List.drop_append_of_le_length (by omega)] at hoffset ⊢
      have hle : offset + 2 ≤ (lead.drop 2).length := by
        rw [List.length_drop]
        omega
      rw [offsetOf?_append hoffset hle]
      simp only
      rw [List.take_append_of_le_length (by omega), List.drop_append_of_le_length (by omega),
        List.take_append_of_le_length (by omega)]
  · cases h

/-- A block comment that is closed in a text is the same one whatever stands behind the text. -/
theorem blockStep_append {c : Char} {s : Step}
    (h : blockStep (c :: (lead ++ y)) ((lead ++ y).drop 1) = .ok s)
    (hwidth : s.width ≤ lead.length + 1) :
    blockStep (c :: (lead ++ z)) ((lead ++ z).drop 1) = .ok s := by
  unfold blockStep at h ⊢
  split at h
  · next offset hoffset =>
      cases h
      simp only [take] at hwidth
      rw [List.drop_append_of_le_length (by omega)] at hoffset ⊢
      have hle : offset + 2 ≤ (lead.drop 1).length := by
        rw [List.length_drop]
        omega
      rw [offsetOf?_append hoffset hle, ← List.cons_append, ← List.cons_append]
      simp only
      rw [take_append (by simp only [List.length_cons]; omega)]
  · cases h

/-- A step that ends in front of a construct is the same step in front of a text that no rule reads
on with, when both texts have the same words at their starts. -/
theorem step_stop {previous : Option Lexeme} {a c : Char} {s : Step} (ha : a ∈ openers)
    (hz : ∀ b, z.head? = some b → b = '/')
    (hsame : ∀ w ∈ words,
      startsWith w (c :: (lead ++ z)) = startsWith w (c :: (lead ++ a :: y)))
    (h : step previous c (lead ++ a :: y) = .ok s) (hwidth : s.width ≤ lead.length + 1) :
    step previous c (lead ++ z) = .ok s := by
  have hy : Fresh (a :: y) := fresh_cons ha y
  have hfresh : Fresh z := fresh_of_slash hz
  -- both texts take the same branch; the branches follow in the order in which the lexer tries them
  unfold step at h ⊢
  simp only at h ⊢
  rw [hsame "?>" (by decide), hsame "/**" (by decide), hsame "/**/" (by decide),
    hsame "/*" (by decide), hsame "//" (by decide), hsame "#[" (by decide),
    hsame "<<<" (by decide)]
  by_cases hclose : startsWith "?>" (c :: (lead ++ a :: y)) = true
  · rw [if_pos hclose] at h ⊢
    exact h
  rw [if_neg hclose] at h ⊢
  by_cases hspace : isCodeSpace c = true
  · have hno : ∀ a ∈ openers, isCodeSpace a = false := by decide
    rw [if_pos hspace, ← List.cons_append] at h ⊢
    rw [takeWhile_stop hno hy] at h
    rw [takeWhile_stop hno hfresh]
    exact h
  rw [if_neg hspace] at h ⊢
  by_cases hdoc : (startsWith "/**" (c :: (lead ++ a :: y)) &&
      !startsWith "/**/" (c :: (lead ++ a :: y))) = true
  · rw [if_pos hdoc] at h ⊢
    exact docStep_append h hwidth
  rw [if_neg hdoc] at h ⊢
  by_cases hblock : startsWith "/*" (c :: (lead ++ a :: y)) = true
  · rw [if_pos hblock] at h ⊢
    exact blockStep_append h hwidth
  rw [if_neg hblock] at h ⊢
  by_cases hline : (startsWith "//" (c :: (lead ++ a :: y)) || (decide (c = '#') &&
      !startsWith "#[" (c :: (lead ++ a :: y)))) = true
  · rw [if_pos hline, ← List.cons_append] at h ⊢
    cases h
    simp only [take_width] at hwidth
    rw [lineCommentWidth_stop ha hfresh (by simpa using hwidth),
      take_append (by simpa using hwidth)]
  rw [if_neg hline] at h ⊢
  by_cases hhash : c = '#'
  · rw [if_pos hhash, ← List.cons_append] at h ⊢
    cases h
    rw [take_append (by simp)]
  rw [if_neg hhash] at h ⊢
  by_cases hquote : (decide (c = '\'') || decide (c = '"') || decide (c = '\x60')) = true
  · rw [if_pos hquote] at h ⊢
    split at h
    · next width hclosed =>
        cases h
        simp only [take_width] at hwidth
        rw [closingQuote?_append hclosed (by omega), ← List.cons_append, ← List.cons_append]
        simp only
        rw [take_append (by simp only [List.length_cons]; omega)]
    · cases h
  rw [if_neg hquote] at h ⊢
  by_cases hheredoc : startsWith "<<<" (c :: (lead ++ a :: y)) = true
  · rw [if_pos hheredoc] at h ⊢
    have hthree := three_le_of_heredoc h
    obtain ⟨tail, htail⟩ := startsWith_eq_true.1 hheredoc
    obtain ⟨rest, hc, rfl⟩ : ∃ rest, c = '<' ∧ lead = '<' :: '<' :: rest := by
      rcases lead with _ | ⟨d, _ | ⟨e, rest⟩⟩
      · simp only [List.length_nil] at hwidth
        omega
      · simp only [List.length_cons, List.length_nil] at hwidth
        omega
      · exact ⟨rest, by simp_all⟩
    subst hc
    exact heredoc_stop hy hz h (by simpa using hwidth)
  · rw [if_neg hheredoc] at h ⊢
    cases h
    rw [word_stop hy hfresh (fun w hw => hsame w (List.mem_append_right _ hw)) hwidth]

/-- A step that ends in front of an open marker is the same step whatever stands behind the
marker. -/
theorem step_marker {previous : Option Lexeme} {c : Char} {s : Step}
    (h : step previous c (lead ++ '/' :: '*' :: '*' :: y) = .ok s)
    (hwidth : s.width ≤ lead.length + 1) :
    step previous c (lead ++ '/' :: '*' :: '*' :: z) = .ok s := by
  -- no word is as long as to reach behind the marker
  have hshort : ∀ w ∈ words, w.toList.length ≤ 4 := by decide
  refine step_stop (by decide) (by rintro b ⟨⟩; rfl) (fun w hw => ?_) h hwidth
  have hle := hshort w hw
  rw [← List.cons_append, ← List.cons_append]
  exact startsWith_marker (by simp only [List.length_cons]; omega) z y

/-! ## The end of the text in place of a construct -/

section Cut

variable {previous : Option Lexeme} {rest : List Char} {s : Step}

/-- A line comment is at least as wide as its mark. -/
theorem two_le_of_line (h : step previous '/' ('/' :: rest) = .ok s) : 2 ≤ s.width := by
  have hspace : isCodeSpace '/' = false := by decide
  have hstep : step previous '/' ('/' :: rest) =
      .ok (take .comment (lineCommentWidth ('/' :: '/' :: rest)) ('/' :: '/' :: rest)) := by
    simp [step, startsWith, hspace]
  rw [hstep] at h
  cases h
  simp [lineCommentWidth, isLineBreak]

/-- An empty comment is at least as wide as its two marks. -/
theorem four_le_of_empty (h : step previous '/' ('*' :: '*' :: '/' :: rest) = .ok s) :
    4 ≤ s.width := by
  have hspace : isCodeSpace '/' = false := by decide
  have hstep : step previous '/' ('*' :: '*' :: '/' :: rest) =
      blockStep ('/' :: '*' :: '*' :: '/' :: rest) ('*' :: '/' :: rest) := by
    simp [step, startsWith, hspace]
  rw [hstep] at h
  unfold blockStep at h
  split at h
  · cases h
    simp only [take_width]
    omega
  · cases h

/-- What starts with the mark of a heredoc is at least as wide as the mark. -/
theorem three_le_of_openers (h : step previous '<' ('<' :: '<' :: rest) = .ok s) :
    3 ≤ s.width := by
  have hspace : isCodeSpace '<' = false := by decide
  have hstep : step previous '<' ('<' :: '<' :: rest) =
      heredoc ('<' :: '<' :: '<' :: rest) rest := by
    simp [step, startsWith, hspace]
  rw [hstep] at h
  exact three_le_of_heredoc h

/-- What starts with two angle brackets is at least as wide as these. -/
theorem two_le_of_shift (h : step previous '<' ('<' :: rest) = .ok s) : 2 ≤ s.width := by
  have hspace : isCodeSpace '<' = false := by decide
  have hname : isNameStart '<' = false := by decide
  have hdigit : isDecimal '<' = false := by decide
  have hstep : step previous '<' ('<' :: rest) = if startsWith "<<<" ('<' :: '<' :: rest) then
      heredoc ('<' :: '<' :: rest) (rest.drop 1) else .ok (word previous '<' ('<' :: rest)) := by
    simp [step, startsWith, hspace]
  rw [hstep] at h
  split at h
  · have := three_le_of_heredoc h
    omega
  · cases h
    have hword : word previous '<' ('<' :: rest) = operator '<' ('<' :: '<' :: rest) := by
      simp [word, variableWidth?, nameWidth?, numberWidth?, basedWidth?, decimalWidth?, pointWidth?,
        hname, hdigit]
    have hlong : ∀ op ∈ operators, 2 ≤ op.length := by decide
    rw [hword, operator]
    cases hop : operators.find? (startsWith · ('<' :: '<' :: rest)) with
    | some op => exact hlong op (List.mem_of_find?_eq_some hop)
    | none =>
        have hshift := List.find?_eq_none.1 hop "<<" (by decide)
        exact absurd (startsWith_eq_true.2 ⟨rest, rfl⟩) hshift

end Cut

/-- What a construct can leave of a word in front of it, and what it starts with then. -/
def cuts : List (List Char × List Char) :=
  [(['/'], ['/']), (['/', '*', '*'], ['/']), (['<'], ['<']), (['<'], ['<', '<']),
    (['<', '<'], ['<']), (['<'], ['<', '='])]

/-- Where a word of the lexer is cut in front of an opener, the cut is one of the listed ones. -/
theorem cut_of_words : ∀ w ∈ words, ∀ n ∈ List.range w.toList.length, 0 < n →
    (w.toList.drop n).head?.any (openers.contains ·) = true →
      (w.toList.take n, w.toList.drop n) ∈ cuts := by
  decide

/-- A word that starts a text does not reach behind a step in it, where a construct starts. -/
theorem le_of_startsWith {previous : Option Lexeme} {a c : Char} {s : Step} (ha : a ∈ openers)
    (h : step previous c (lead ++ a :: y) = .ok s) (hwidth : s.width ≤ lead.length + 1)
    {w : String} (hw : w ∈ words) (hstart : startsWith w (c :: (lead ++ a :: y)) = true) :
    w.toList.length ≤ (c :: lead).length := by
  obtain ⟨tail, htail⟩ := startsWith_eq_true.1 hstart
  rw [← List.cons_append] at htail
  rcases List.append_eq_append_iff.1 htail with ⟨part, hword, hpart⟩ | ⟨part, hlead, -⟩
  · cases part with
    | nil => rw [hword, List.append_nil]
    | cons b part =>
        obtain ⟨rfl, hy⟩ := List.cons.inj hpart
        have hcut := cut_of_words w hw (c :: lead).length (by simp [hword]) (Nat.succ_pos _)
          (by simp [hword, ha])
        rw [hword, List.take_left, List.drop_left] at hcut
        simp only [cuts, List.mem_cons, Prod.mk.injEq, List.cons.injEq, List.not_mem_nil,
          or_false] at hcut
        -- each of the cut words starts a step that is longer than what is left of the word
        rcases hcut with ⟨⟨rfl, rfl⟩, rfl, rfl⟩ | ⟨⟨rfl, rfl⟩, rfl, rfl⟩ | ⟨⟨rfl, rfl⟩, rfl, rfl⟩ |
          ⟨⟨rfl, rfl⟩, rfl, rfl⟩ | ⟨⟨rfl, rfl⟩, rfl, rfl⟩ | ⟨⟨rfl, rfl⟩, rfl, rfl⟩
        · exact absurd hwidth (Nat.not_le.2 (two_le_of_line h))
        · exact absurd hwidth (Nat.not_le.2 (four_le_of_empty h))
        · exact absurd hwidth (Nat.not_le.2 (two_le_of_shift h))
        · exact absurd hwidth (Nat.not_le.2 (two_le_of_shift h))
        · exact absurd hwidth (Nat.not_le.2 (three_le_of_openers h))
        · exact absurd hwidth (Nat.not_le.2 (two_le_of_shift h))
  · rw [hlead, List.length_append]
    omega

/-- A step that ends in front of a construct is the same step at the end of the text. -/
theorem step_cut {previous : Option Lexeme} {a c : Char} {s : Step} (ha : a ∈ openers)
    (h : step previous c (lead ++ a :: y) = .ok s) (hwidth : s.width ≤ lead.length + 1) :
    step previous c lead = .ok s := by
  have hsame : ∀ w ∈ words, startsWith w (c :: lead) =
      startsWith w (c :: (lead ++ a :: y)) := by
    intro w hw
    by_cases hlen : w.toList.length ≤ (c :: lead).length
    · rw [← List.cons_append, startsWith, startsWith, isPrefixOf_append hlen]
    rw [Bool.eq_false_iff.2 fun hstart => hlen (le_of_startsWith ha h hwidth hw hstart),
      Bool.eq_false_iff]
    intro hstart
    obtain ⟨tail, htail⟩ := startsWith_eq_true.1 hstart
    rw [htail, List.length_append] at hlen
    omega
  rw [← List.append_nil lead] at hsame ⊢
  exact step_stop ha (by rintro b ⟨⟩) (by simpa using hsame) h hwidth

/-! ## Open tags -/

/-- A text that does not start with the mark of an open tag holds none at its start. -/
theorem openTagWidth?_eq_none {c : Char} {cs : List Char}
    (h : ¬ ∃ rest, c = '<' ∧ cs = '?' :: rest) : openTagWidth? (c :: cs) = none := by
  unfold openTagWidth?
  split
  · next rest heq =>
      obtain ⟨rfl, rfl⟩ := List.cons.inj heq
      exact absurd ⟨rest, rfl, rfl⟩ h
  · rfl

/-- No rule for open tags reads on with the first character of a construct, though that character
may itself start an open tag. -/
theorem openTagWidth?_stop (h : Fresh y) (c : Char) (lead : List Char) :
    openTagWidth? (c :: lead ++ y) = openTagWidth? (c :: lead) := by
  have hlower : ∀ a ∈ openers, a.toLower ≠ 'p' ∧ a.toLower ≠ 'h' := by decide
  cases y with
  | nil => rw [List.append_nil]
  | cons a y =>
      obtain ⟨hp, hh⟩ := hlower a (h a rfl)
      by_cases hopen : ∃ rest, c = '<' ∧ lead = '?' :: rest
      · obtain ⟨rest, rfl, rfl⟩ := hopen
        rcases rest with _ | ⟨p, _ | ⟨q, _ | ⟨r, rest⟩⟩⟩
        · have heq : a ≠ '=' := h.ne (by decide)
          rcases y with _ | ⟨b, _ | ⟨d, y⟩⟩ <;> simp [openTagWidth?, hp, heq]
        · by_cases heq : p = '='
          · rcases y with _ | ⟨b, y⟩ <;> simp [openTagWidth?, heq]
          · rcases y with _ | ⟨b, y⟩ <;> simp [openTagWidth?, hh, heq]
        · by_cases heq : p = '='
          · simp [openTagWidth?, heq]
          · simp [openTagWidth?, hp, heq]
        · simp [openTagWidth?, startsNoWord_stop h]
      · rw [List.cons_append, openTagWidth?_eq_none hopen, openTagWidth?_eq_none]
        rintro ⟨rest, rfl, hlead⟩
        cases lead with
        | nil => exact h.ne (by decide) (List.cons.inj hlead).1
        | cons d lead => exact hopen ⟨lead, rfl, by rw [(List.cons.inj hlead).1]⟩

/-- An open tag that ends in front of a construct is found in front of any other as well. -/
theorem openTag?_stop {offset width : Nat} (hy : Fresh y) (hz : Fresh z)
    (h : openTag? (lead ++ y) = some (offset, width)) (hle : offset + width ≤ lead.length) :
    openTag? (lead ++ z) = some (offset, width) := by
  induction lead generalizing offset with
  | nil =>
      have := (openTag?_bounds h).1
      simp only [List.length_nil] at hle
      omega
  | cons c lead ih =>
      have hsame := (openTagWidth?_stop hz c lead).trans (openTagWidth?_stop hy c lead).symm
      rw [List.cons_append, List.cons_append] at hsame
      rw [List.cons_append, openTag?] at h ⊢
      rw [hsame]
      split at h
      · exact h
      · obtain ⟨⟨o, w⟩, hfound, heq⟩ := Option.map_eq_some_iff.1 h
        cases heq
        simp only [List.length_cons] at hle
        rw [ih hfound (by omega)]
        rfl

/-- An open tag that ends in front of an open marker is found whatever stands behind the marker. -/
theorem openTag?_marker {offset width : Nat}
    (h : openTag? (lead ++ '/' :: '*' :: '*' :: y) = some (offset, width))
    (hle : offset + width ≤ lead.length) :
    openTag? (lead ++ '/' :: '*' :: '*' :: z) = some (offset, width) :=
  openTag?_stop (fresh_cons (by decide) _) (fresh_cons (by decide) _) h hle

/-- An open tag that ends in front of a construct is found at the end of the text. -/
theorem openTag?_cut {a : Char} {offset width : Nat} (ha : a ∈ openers)
    (h : openTag? (lead ++ a :: y) = some (offset, width)) (hle : offset + width ≤ lead.length) :
    openTag? lead = some (offset, width) := by
  simpa using openTag?_stop (fresh_cons ha y) fresh_nil h hle

end PhpDoc.Lexer
