import PhpDoc.Proofs.Token.Piece

/-!
# Heredocs

What opens a heredoc and what closes it, as texts that are put together. Behind its `<<<` stand
blanks, the label, which may be quoted, and a line break (`heredocOpener?_eq_some_iff`). Its label
closes it at a word boundary, on a line that a line feed starts, with nothing but blanks in front
(`heredocEnd?_eq_none_iff`).
-/

namespace PhpDoc.Lexer

open Text

variable {cs label : List Char} {width : Nat}

/-- A letter or an underscore with word characters behind it. -/
def IsWordLabel (label : List Char) : Prop :=
  ∃ c part, label = c :: part ∧ isLabelStart c = true ∧ ∀ d ∈ part, isWord d = true

/-- The line break in front of the text: all of it, so that no line feed is left behind a carriage
return. -/
def EndsBefore (ending body : List Char) : Prop :=
  ending = ['\r', '\n'] ∨ ending = ['\n'] ∨ ending = ['\r'] ∧ body.head? ≠ some '\n'

/-- The parts of the text behind the `<<<` of a heredoc: blanks, a quote or none, the label, and the
line break in front of the body. -/
structure OpensHeredoc (blanks quote label ending body : List Char) : Prop where
  blanks : ∀ c ∈ blanks, isBlank c = true
  quote : quote = [] ∨ quote = ['\''] ∨ quote = ['"']
  label : IsWordLabel label
  ending : EndsBefore ending body

/-! ## Openers -/

/-- The width of a break is that of the line break at the start of the text. -/
theorem breakWidth?_eq_some_iff :
    breakWidth? cs = some width ↔
      ∃ ending body, cs = ending ++ body ∧ EndsBefore ending body ∧ width = ending.length := by
  constructor
  · intro h
    unfold breakWidth? at h
    split at h
    · cases h
      exact ⟨['\r', '\n'], _, rfl, .inl rfl, rfl⟩
    · next c rest hreturn =>
        split at h
        · next hbreak =>
            cases h
            simp only [isLineBreak, Bool.or_eq_true, decide_eq_true_eq] at hbreak
            rcases hbreak with rfl | rfl
            · exact ⟨['\n'], rest, rfl, .inr (.inl rfl), rfl⟩
            · refine ⟨['\r'], rest, rfl, .inr (.inr ⟨rfl, fun hhead => ?_⟩), rfl⟩
              obtain ⟨tail, rfl⟩ := List.head?_eq_some_iff.1 hhead
              exact hreturn tail rfl rfl
        · cases h
    · cases h
  · rintro ⟨ending, body, rfl, rfl | rfl | ⟨rfl, hhead⟩, rfl⟩
    · rfl
    · rfl
    · cases body with
      | nil => rfl
      | cons d body =>
          have hd : d ≠ '\n' := fun h => hhead (by rw [h, List.head?_cons])
          simp [breakWidth?, hd, isLineBreak]

/-- No word goes on at a line break. -/
theorem not_isWord_of_endsBefore {ending body : List Char} (h : EndsBefore ending body) :
    ∀ c, (ending ++ body).head? = some c → isWord c = false := by
  rcases h with rfl | rfl | ⟨rfl, -⟩
  · rintro c ⟨⟩
    decide
  · rintro c ⟨⟩
    decide
  · rintro c ⟨⟩
    decide

/-- A label is taken up to the quote or the line break behind it. -/
theorem heredocLabel?_eq_some_iff {quote : List Char}
    (hquote : quote = [] ∨ quote = ['\''] ∨ quote = ['"']) :
    heredocLabel? quote cs = some (label, width) ↔ ∃ ending body,
      cs = label ++ quote ++ ending ++ body ∧ IsWordLabel label ∧ EndsBefore ending body ∧
        width = (label ++ quote ++ ending).length := by
  constructor
  · intro h
    unfold heredocLabel? at h
    split at h
    · cases h
    · next c rest =>
        split at h
        · next hstart =>
            simp only [List.length_cons, List.drop_succ_cons, List.drop_zero] at h
            split at h
            · next hprefix =>
                obtain ⟨w, hbreak, heq⟩ := Option.map_eq_some_iff.1 h
                obtain ⟨rfl, rfl⟩ := Prod.mk.inj heq
                obtain ⟨tail, htail⟩ := List.isPrefixOf_iff_prefix.1 hprefix
                rw [← htail, List.drop_left] at hbreak
                obtain ⟨ending, body, rfl, hending, rfl⟩ := breakWidth?_eq_some_iff.1 hbreak
                have hsplit := List.take_append_drop (rest.takeWhile isWord).length rest
                rw [take_length_takeWhile, ← htail] at hsplit
                refine ⟨ending, body, ?_,
                  ⟨c, _, rfl, hstart, fun d hd => List.mem_takeWhile_imp hd⟩, hending, ?_⟩
                · simpa using hsplit.symm
                · simp only [List.length_append, List.length_cons]
            · cases h
        · cases h
  · rintro ⟨ending, body, rfl, ⟨c, part, rfl, hstart, hpart⟩, hending, rfl⟩
    have hstop : ∀ d, (quote ++ (ending ++ body)).head? = some d → isWord d = false := by
      rcases hquote with rfl | rfl | rfl
      · rw [List.nil_append]
        exact not_isWord_of_endsBefore hending
      · rintro d ⟨⟩
        decide
      · rintro d ⟨⟩
        decide
    have hbreak : breakWidth? (ending ++ body) = some ending.length :=
      breakWidth?_eq_some_iff.2 ⟨ending, body, rfl, hending, rfl⟩
    have hrun : (part ++ (quote ++ (ending ++ body))).takeWhile isWord = part :=
      (takeWhile_run hpart hstop).1
    simp only [List.append_assoc, List.cons_append, heredocLabel?, hstart, if_true, List.drop_zero,
      List.drop_succ_cons, hrun, List.length_cons, List.drop_left]
    rw [if_pos (List.isPrefixOf_iff_prefix.2 ⟨_, rfl⟩), hbreak, Option.map_some]
    simp only [List.length_append, Option.some.injEq, Prod.mk.injEq, true_and]
    omega

/-- A label starts with one of the characters for that. -/
theorem IsWordLabel.exists_cons (h : IsWordLabel label) :
    ∃ c part, label = c :: part ∧ isLabelStart c = true := by
  obtain ⟨c, part, heq, hstart, -⟩ := h
  exact ⟨c, part, heq, hstart⟩

/-- The characters of a label are those of words. -/
theorem IsWordLabel.mem (h : IsWordLabel label) :
    ∀ c ∈ label, isLabelStart c = true ∨ isWord c = true := by
  obtain ⟨c, part, rfl, hstart, hpart⟩ := h
  intro d hd
  rcases List.mem_cons.1 hd with rfl | hd
  · exact .inl hstart
  · exact .inr (hpart d hd)

/-- No blank starts a label, and no quote does. -/
theorem not_opens_of_isLabelStart {c : Char} (h : isLabelStart c = true) :
    isBlank c = false ∧ c ≠ '\'' ∧ c ≠ '"' := by
  refine ⟨?_, ?_, ?_⟩
  · cases hblank : isBlank c with
    | false => rfl
    | true =>
        simp only [isBlank, Bool.or_eq_true, decide_eq_true_eq] at hblank
        rcases hblank with rfl | rfl
        · exact absurd h (by decide)
        · exact absurd h (by decide)
  · rintro rfl
    exact absurd h (by decide)
  · rintro rfl
    exact absurd h (by decide)

/-- A heredoc is opened by blanks, a label that may be quoted, and a line break. -/
theorem heredocOpener?_eq_some_iff :
    heredocOpener? cs = some (label, width) ↔ ∃ blanks quote ending body,
      cs = blanks ++ quote ++ label ++ quote ++ ending ++ body ∧
        OpensHeredoc blanks quote label ending body ∧
        width = (blanks ++ quote ++ label ++ quote ++ ending).length := by
  constructor
  · intro h
    unfold heredocOpener? at h
    simp only at h
    have hsplit := List.take_append_drop (cs.takeWhile isBlank).length cs
    rw [take_length_takeWhile] at hsplit
    have hblanks : ∀ c ∈ cs.takeWhile isBlank, isBlank c = true := fun c hc =>
      List.mem_takeWhile_imp hc
    generalize cs.takeWhile isBlank = blanks at h hsplit hblanks
    split at h
    · next c after hafter =>
        rw [hafter] at hsplit
        split at h
        · next hquote =>
            obtain ⟨⟨label', w⟩, hlabel, heq⟩ := Option.map_eq_some_iff.1 h
            obtain ⟨rfl, rfl⟩ := Prod.mk.inj heq
            have hquote : [c] = [] ∨ [c] = ['\''] ∨ [c] = ['"'] := by
              simp only [Bool.or_eq_true, decide_eq_true_eq] at hquote
              rcases hquote with rfl | rfl
              · exact .inr (.inl rfl)
              · exact .inr (.inr rfl)
            obtain ⟨ending, body, rfl, hword, hending, rfl⟩ :=
              (heredocLabel?_eq_some_iff hquote).1 hlabel
            refine ⟨blanks, [c], ending, body, ?_, ⟨hblanks, hquote, hword, hending⟩, ?_⟩
            · simpa using hsplit.symm
            · simp only [List.length_append, List.length_cons, List.length_nil]
              omega
        · obtain ⟨⟨label', w⟩, hlabel, heq⟩ := Option.map_eq_some_iff.1 h
          obtain ⟨rfl, rfl⟩ := Prod.mk.inj heq
          rw [hafter] at hlabel
          obtain ⟨ending, body, htext, hword, hending, rfl⟩ :=
            (heredocLabel?_eq_some_iff (.inl rfl)).1 hlabel
          rw [htext] at hsplit
          refine ⟨blanks, [], ending, body, ?_, ⟨hblanks, .inl rfl, hword, hending⟩, ?_⟩
          · simpa using hsplit.symm
          · simp only [List.length_append, List.length_nil]
            omega
    · cases h
  · rintro ⟨blanks, quote, ending, body, rfl, ⟨hblanks, hquote, hword, hending⟩, rfl⟩
    have hlabel := (heredocLabel?_eq_some_iff hquote).2 ⟨ending, body, rfl, hword, hending, rfl⟩
    obtain ⟨c, part, hpart, hstart⟩ := hword.exists_cons
    obtain ⟨hblank, hsingle, hdouble⟩ := not_opens_of_isLabelStart hstart
    have hstop : ∀ d, (quote ++ (label ++ (quote ++ (ending ++ body)))).head? = some d →
        isBlank d = false := by
      rcases hquote with rfl | rfl | rfl
      · rw [hpart]
        rintro d ⟨⟩
        exact hblank
      · rintro d ⟨⟩
        decide
      · rintro d ⟨⟩
        decide
    have hrun := (takeWhile_run hblanks hstop).1
    unfold heredocOpener?
    simp only [List.append_assoc] at hlabel ⊢
    simp only [hrun, List.drop_left]
    rcases hquote with rfl | rfl | rfl
    · rw [hpart] at hlabel ⊢
      simp only [List.nil_append, List.cons_append] at hlabel ⊢
      rw [if_neg (by simp [hsingle, hdouble]), hlabel]
      simp
    · simp only [List.cons_append, List.nil_append] at hlabel ⊢
      rw [if_pos (by simp), hlabel]
      simp only [Option.map_some, List.length_append, List.length_cons, Option.some.injEq,
        Prod.mk.injEq, true_and]
      omega
    · simp only [List.cons_append, List.nil_append] at hlabel ⊢
      rw [if_pos (by simp), hlabel]
      simp only [Option.map_some, List.length_append, List.length_cons, Option.some.injEq,
        Prod.mk.injEq, true_and]
      omega

/-- The characters of the label of a heredoc. -/
theorem opener_spec (h : heredocOpener? cs = some (label, width)) :
    label ≠ [] ∧ ∀ c ∈ label, isLabelStart c = true ∨ isWord c = true := by
  obtain ⟨_, _, _, _, -, hopens, -⟩ := heredocOpener?_eq_some_iff.1 h
  refine ⟨?_, hopens.label.mem⟩
  obtain ⟨c, part, rfl, -⟩ := hopens.label.exists_cons
  exact List.cons_ne_nil c part

/-! ## Closing labels -/

/-- A closing label stands behind blanks and at a word boundary. -/
theorem closingLabel?_eq_some_iff (hlabel : IsWordLabel label) :
    closingLabel? label cs = some width ↔ ∃ indent back, cs = indent ++ label ++ back ∧
      (∀ c ∈ indent, isBlank c = true) ∧ startsNoWord back = true ∧
      width = (indent ++ label).length := by
  constructor
  · intro h
    unfold closingLabel? at h
    simp only at h
    have hsplit := List.take_append_drop (cs.takeWhile isBlank).length cs
    rw [take_length_takeWhile] at hsplit
    split at h
    · next hfound =>
        cases h
        rw [Bool.and_eq_true] at hfound
        obtain ⟨back, hback⟩ := List.isPrefixOf_iff_prefix.1 hfound.1
        have hboundary := hfound.2
        rw [← hback, List.drop_left] at hboundary
        refine ⟨cs.takeWhile isBlank, back, ?_, fun c hc => List.mem_takeWhile_imp hc, hboundary,
          (List.length_append).symm⟩
        rw [List.append_assoc, hback, hsplit]
    · cases h
  · rintro ⟨indent, back, rfl, hindent, hboundary, rfl⟩
    obtain ⟨c, part, hpart, hstart⟩ := hlabel.exists_cons
    have hstop : ∀ d, (label ++ back).head? = some d → isBlank d = false := by
      rw [hpart]
      rintro d ⟨⟩
      exact (not_opens_of_isLabelStart hstart).1
    have hrun := (takeWhile_run hindent hstop).1
    unfold closingLabel?
    rw [List.append_assoc]
    simp only [hrun, List.drop_left]
    rw [if_pos, List.length_append]
    rw [Bool.and_eq_true]
    exact ⟨List.isPrefixOf_iff_prefix.2 ⟨back, rfl⟩, hboundary⟩

/-- No line that a line feed starts begins with the label, behind blanks and at a word boundary. -/
def NeverCloses (label cs : List Char) : Prop :=
  ∀ front indent back, cs = front ++ '\n' :: (indent ++ label ++ back) →
    (∀ c ∈ indent, isBlank c = true) → startsNoWord back = false

/-- A line does not close a heredoc when the label is missing in it or goes on as a longer word. -/
theorem closingLabel?_eq_none_iff (hlabel : IsWordLabel label) :
    closingLabel? label cs = none ↔ ∀ indent back, cs = indent ++ label ++ back →
      (∀ c ∈ indent, isBlank c = true) → startsNoWord back = false := by
  constructor
  · intro h indent back heq hindent
    cases hboundary : startsNoWord back with
    | false => rfl
    | true =>
        rw [(closingLabel?_eq_some_iff hlabel).2 ⟨indent, back, heq, hindent, hboundary, rfl⟩] at h
        cases h
  · intro h
    cases hfound : closingLabel? label cs with
    | none => rfl
    | some width =>
        obtain ⟨indent, back, heq, hindent, hboundary, -⟩ :=
          (closingLabel?_eq_some_iff hlabel).1 hfound
        rw [h indent back heq hindent] at hboundary
        cases hboundary

/-- What holds at every occurrence of a character in a text, one character further on. -/
theorem forall_splits_cons {P : List Char → List Char → Prop} {c d : Char} :
    (∀ front back, c :: cs = front ++ d :: back → P front back) ↔
      (c = d → P [] cs) ∧ ∀ front back, cs = front ++ d :: back → P (c :: front) back := by
  constructor
  · exact fun h => ⟨fun hc => h [] cs (by rw [hc, List.nil_append]),
      fun front back heq => h (c :: front) back (by rw [heq, List.cons_append])⟩
  · rintro ⟨hhead, htail⟩ front back heq
    cases front with
    | nil =>
        obtain ⟨hc, rfl⟩ := List.cons.inj heq
        exact hhead hc
    | cons b front =>
        obtain ⟨rfl, htext⟩ := List.cons.inj heq
        exact htail front back htext

/-- A heredoc never closes when no line behind a line feed closes it. -/
theorem neverCloses_iff (hlabel : IsWordLabel label) :
    NeverCloses label cs ↔
      ∀ front back, cs = front ++ '\n' :: back → closingLabel? label back = none := by
  constructor
  · intro h front back heq
    rw [closingLabel?_eq_none_iff hlabel]
    rintro indent after rfl
    exact h front indent after heq
  · intro h front indent back heq
    exact (closingLabel?_eq_none_iff hlabel).1 (h front _ heq) indent back rfl

/-- A heredoc goes on to the end of the text when no line starts with its closing label. -/
theorem heredocEnd?_eq_none_iff {lineStart : Bool} :
    heredocEnd? label lineStart cs = none ↔
      (lineStart = true → closingLabel? label cs = none) ∧
        ∀ front back, cs = front ++ '\n' :: back → closingLabel? label back = none := by
  induction cs generalizing lineStart with
  | nil =>
      rw [heredocEnd?]
      cases lineStart <;> simp
  | cons c cs ih =>
      have hih := @ih (decide (c = '\n'))
      rw [decide_eq_true_eq] at hih
      rw [heredocEnd?, forall_splits_cons, ← hih]
      cases lineStart with
      | false => simp
      | true =>
          cases hclosing : closingLabel? label (c :: cs) with
          | none => simp
          | some width => simp

/-- The search behind an opener takes in the line that the opener ends with a line feed. -/
theorem heredocEnd?_opener {blanks quote ending body : List Char}
    (h : OpensHeredoc blanks quote label ending body) (front : List Char) :
    heredocEnd? label ((front ++ ending).getLast? == some '\n') body = none ↔
      NeverCloses label (ending ++ body) := by
  rw [heredocEnd?_eq_none_iff, neverCloses_iff h.label]
  rcases h.ending with rfl | rfl | ⟨rfl, -⟩
  · simp [forall_splits_cons]
  · simp [forall_splits_cons]
  · simp [forall_splits_cons]

/-- The lexer stops at a `<<<` only at a heredoc that is opened and never closed. -/
theorem heredoc_eq_error_iff {rest : List Char} {k : Construct} :
    heredoc cs rest = .error k ↔ k = .heredoc ∧ ∃ blanks quote label ending body,
      rest = blanks ++ quote ++ label ++ quote ++ ending ++ body ∧
        OpensHeredoc blanks quote label ending body ∧ NeverCloses label (ending ++ body) := by
  unfold heredoc
  constructor
  · intro h
    split at h
    · cases h
    · next label width hopener =>
        obtain ⟨blanks, quote, ending, body, rfl, hopens, rfl⟩ :=
          heredocOpener?_eq_some_iff.1 hopener
        simp only [List.take_left, List.drop_left] at h
        split at h
        · cases h
        · next hend =>
            cases h
            exact ⟨rfl, blanks, quote, label, ending, body, rfl, hopens,
              (heredocEnd?_opener hopens _).1 hend⟩
  · rintro ⟨rfl, blanks, quote, label, ending, body, rfl, hopens, hnever⟩
    rw [heredocOpener?_eq_some_iff.2 ⟨blanks, quote, ending, body, rfl, hopens, rfl⟩]
    simp only [List.take_left, List.drop_left]
    rw [(heredocEnd?_opener hopens _).2 hnever]

end PhpDoc.Lexer
