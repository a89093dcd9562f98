import PhpDoc.Problem.Failure
import PhpDoc.Proofs.Token.Position

/-!
# Constructs that are never terminated

The lexer stops only at a comment, a string literal or a heredoc that never ends, and it stops at
the first one that it comes to. `Unterminated` describes these texts without the lexer: they are the
ones at which its step fails (`unterminated_of_step`, `Unterminated.exists_stop`). `Scans` says
which places of a text the lexer comes to. What stands in front of the construct is a source text of
its own with the same lexemes (`Scans.cut`), so the failure of the whole text points right behind a
text that can be taken apart (`unterminated_reported`).
-/

namespace PhpDoc

namespace Lexer

open Text

variable {mode : Mode} {previous : Option Lexeme} {c : Char} {cs rest : List Char}
  {ls : List Lexeme} {message : String}

/-- The number of backslashes at the end of the text. An odd number of them escapes the next
character, an even number escapes one another. -/
def backslashes (cs : List Char) : Nat :=
  (cs.reverse.takeWhile (· == '\\')).length

/-- The text starts with a construct that is never terminated, of which `message` complains. -/
inductive Unterminated : String → List Char → Prop where
  | docComment {body : List Char} (start : body.head? ≠ some '/') (unclosed : Unclosed body) :
      Unterminated "Unterminated doc comment" ('/' :: '*' :: '*' :: body)
  | blockComment {body : List Char} (start : ∀ tail, body = '*' :: tail → tail.head? = some '/')
      (unclosed : Unclosed body) :
      Unterminated "Unterminated block comment" ('/' :: '*' :: body)
  | stringLiteral {quote : Char} {body : List Char}
      (quotes : quote = '\'' ∨ quote = '"' ∨ quote = '\x60')
      (escaped : ∀ front back, body = front ++ quote :: back → backslashes front % 2 = 1) :
      Unterminated "Unterminated string literal" (quote :: body)
  | heredoc {blanks quote label ending body : List Char}
      (opens : OpensHeredoc blanks quote label ending body)
      (never : NeverCloses label (ending ++ body)) :
      Unterminated "Unterminated heredoc"
        ('<' :: '<' :: '<' :: (blanks ++ quote ++ label ++ quote ++ ending ++ body))

/-! ## String literals -/

/-- A first character counts only as a backslash in front of nothing but backslashes. -/
theorem backslashes_cons (c : Char) (cs : List Char) :
    backslashes (c :: cs) =
      if backslashes cs = cs.length ∧ c = '\\' then cs.length + 1 else backslashes cs := by
  unfold backslashes
  rw [List.reverse_cons, List.takeWhile_append, List.length_reverse]
  by_cases hall : (cs.reverse.takeWhile (· == '\\')).length = cs.length
  · by_cases hc : c = '\\'
    · simp [hall, hc]
    · simp [hall, hc]
  · rw [if_neg hall, if_neg fun h => hall h.1]

/-- A first character that is no backslash does not count. -/
theorem backslashes_cons_of_ne (hc : c ≠ '\\') (cs : List Char) :
    backslashes (c :: cs) = backslashes cs := by
  rw [backslashes_cons, if_neg fun h => hc h.2]

/-- An escape at the start of a text does not count for what the end of the text escapes. -/
theorem backslashes_escape (c : Char) (cs : List Char) :
    backslashes ('\\' :: c :: cs) % 2 = backslashes cs % 2 := by
  have hle : backslashes cs ≤ cs.length := by
    simpa [backslashes] using (List.takeWhile_sublist (· == '\\') (l := cs.reverse)).length_le
  rw [backslashes_cons '\\', backslashes_cons c, List.length_cons]
  split
  · next hall =>
      rw [if_pos ⟨rfl, rfl⟩, hall.1]
      omega
  · split
    · next hlong => omega
    · rfl

/-- A string literal goes on to the end of the text when its quote is escaped wherever it stands. -/
theorem closingQuote?_eq_none_iff {quote : Char} (hquote : quote ≠ '\\') :
    closingQuote? quote cs = none ↔
      ∀ front back, cs = front ++ quote :: back → backslashes front % 2 = 1 := by
  -- the induction follows the search; an escape hides the character behind it
  fun_induction closingQuote? quote cs with
  | case1 => simp
  | case2 =>
      simp [forall_splits_cons, hquote.symm]
  | case3 d cs ih =>
      simp only [forall_splits_cons, backslashes_escape, Option.map_eq_none_iff, ih]
      refine ⟨fun h => ⟨fun heq => absurd heq hquote.symm, fun _ => by decide, h⟩, fun h => h.2.2⟩
  | case4 cs => exact iff_of_false (by simp) fun h => absurd (h [] cs rfl) (by decide)
  | case5 c cs hsingle hescape hc ih =>
      have hplain : c ≠ '\\' := by
        rintro rfl
        cases cs with
        | nil => exact hsingle rfl rfl
        | cons d cs => exact hescape d cs rfl rfl
      simp only [forall_splits_cons, backslashes_cons_of_ne hplain, Option.map_eq_none_iff, ih]
      exact ⟨fun h => ⟨fun heq => absurd heq hc, h⟩, fun h => h.2⟩

/-! ## The step at a construct that is never terminated -/

/-- The step at a doc comment fails exactly when the comment is never closed. -/
theorem docStep_eq_error_iff {k : Construct} :
    docStep rest = .error k ↔ k = .docComment ∧ Unclosed rest := by
  unfold docStep
  cases hclose : offsetOf? ['*', '/'] rest with
  | none => simp [Unclosed, ← offsetOf?_eq_none_iff, hclose, eq_comm]
  | some offset => simp [Unclosed, ← offsetOf?_eq_none_iff, hclose]

/-- The step at a block comment fails exactly when the comment is never closed. -/
theorem blockStep_eq_error_iff {k : Construct} :
    blockStep cs rest = .error k ↔ k = .blockComment ∧ Unclosed rest := by
  unfold blockStep
  cases hclose : offsetOf? ['*', '/'] rest with
  | none => simp [Unclosed, ← offsetOf?_eq_none_iff, hclose, eq_comm]
  | some offset => simp [Unclosed, ← offsetOf?_eq_none_iff, hclose]

/-- Where a step fails, a construct starts that is never terminated. -/
theorem unterminated_of_step {k : Construct} (h : step previous c rest = .error k) :
    Unterminated k.unterminated (c :: rest) := by
  -- the branches of the lexer in order; the ones that are left out give a step
  unfold step at h
  simp only at h
  split at h
  · cases h
  split at h
  · cases h
  split at h
  · next hdoc =>
      rw [Bool.and_eq_true] at hdoc
      obtain ⟨body, hbody⟩ := startsWith_eq_true.1 hdoc.1
      obtain ⟨rfl, rfl⟩ : c = '/' ∧ rest = '*' :: '*' :: body := by simpa using hbody
      obtain ⟨rfl, hunclosed⟩ := docStep_eq_error_iff.1 h
      refine .docComment (fun hhead => ?_) hunclosed
      obtain ⟨tail, rfl⟩ := List.head?_eq_some_iff.1 hhead
      simp [startsWith] at hdoc
  split at h
  · next hdoc hblock =>
      obtain ⟨body, hbody⟩ := startsWith_eq_true.1 hblock
      obtain ⟨rfl, rfl⟩ : c = '/' ∧ rest = '*' :: body := by simpa using hbody
      obtain ⟨rfl, hunclosed⟩ := blockStep_eq_error_iff.1 h
      refine .blockComment ?_ hunclosed
      rintro tail rfl
      cases tail with
      | nil => simp [startsWith] at hdoc
      | cons d tail =>
          have hd : '/' = d := by simpa [startsWith] using hdoc
          rw [hd, List.head?_cons]
  split at h
  · cases h
  split at h
  · cases h
  split at h
  · next hquote =>
      simp only [Bool.or_eq_true, decide_eq_true_eq, or_assoc] at hquote
      split at h
      · cases h
      · next hopen =>
          cases h
          refine .stringLiteral hquote ((closingQuote?_eq_none_iff ?_).1 hopen)
          rcases hquote with rfl | rfl | rfl <;> decide
  split at h
  · next hheredoc =>
      obtain ⟨tail, htail⟩ := startsWith_eq_true.1 hheredoc
      obtain ⟨rfl, rfl⟩ : c = '<' ∧ rest = '<' :: '<' :: tail := by simpa using htail
      obtain ⟨rfl, blanks, quote, label, ending, body, heq, hopens, hnever⟩ :=
        heredoc_eq_error_iff.1 h
      rw [List.drop_succ_cons, List.drop_succ_cons, List.drop_zero] at heq
      rw [heq]
      exact .heredoc hopens hnever
  · cases h

/-- Such a construct stops the lexer, whatever stands in front of it. -/
theorem Unterminated.exists_stop (h : Unterminated message (c :: rest)) :
    ∃ k : Construct, k.unterminated = message ∧
      ∀ previous, step previous c rest = .error k := by
  have hslash : isCodeSpace '/' = false := by decide
  have hless : isCodeSpace '<' = false := by decide
  cases h with
  | @docComment body start unclosed =>
      have hstep : ∀ previous, step previous '/' ('*' :: '*' :: body) = docStep body := by
        intro previous
        cases body with
        | nil => simp [step, startsWith, hslash]
        | cons d body =>
            have hd : d ≠ '/' := fun hd => start (by rw [hd, List.head?_cons])
            simp [step, startsWith, hslash, hd.symm]
      exact ⟨.docComment, rfl, fun previous =>
        (hstep previous).trans (docStep_eq_error_iff.2 ⟨rfl, unclosed⟩)⟩
  | @blockComment body start unclosed =>
      have hstep : ∀ previous,
          step previous '/' ('*' :: body) = blockStep ('/' :: '*' :: body) body := by
        intro previous
        cases body with
        | nil => simp [step, startsWith, hslash]
        | cons d body =>
            by_cases hd : d = '*'
            · subst hd
              obtain ⟨tail, rfl⟩ := List.head?_eq_some_iff.1 (start body rfl)
              simp [step, startsWith, hslash]
            · simp [step, startsWith, hslash, Ne.symm hd]
      exact ⟨.blockComment, rfl, fun previous =>
        (hstep previous).trans (blockStep_eq_error_iff.2 ⟨rfl, unclosed⟩)⟩
  | stringLiteral quotes escaped =>
      refine ⟨.stringLiteral, rfl, fun previous => ?_⟩
      have hopen : closingQuote? c rest = none := by
        refine (closingQuote?_eq_none_iff ?_).2 escaped
        rcases quotes with rfl | rfl | rfl <;> decide
      rcases quotes with rfl | rfl | rfl
      · simp [step, startsWith, isCodeSpace, hopen]
      · simp [step, startsWith, isCodeSpace, hopen]
      · simp [step, startsWith, isCodeSpace, hopen]
  | @heredoc blanks quote label ending body opens never =>
      refine ⟨.heredoc, rfl, fun previous => ?_⟩
      have hstep : ∀ tail, step previous '<' ('<' :: '<' :: tail) =
          Lexer.heredoc ('<' :: '<' :: '<' :: tail) tail := by
        intro tail
        simp [step, startsWith, hless]
      rw [hstep]
      exact heredoc_eq_error_iff.2 ⟨rfl, _, _, _, _, _, rfl, opens, never⟩

/-! ## The places that the lexer comes to -/

/-- In the given mode and after the significant lexeme `previous`, the lexer takes the lexemes from
the text and comes to a place in code with a rest of the text behind it. -/
inductive Scans : Mode → Option Lexeme → List Char → List Lexeme → List Char → Prop where
  | here {previous : Option Lexeme} {rest : List Char} : Scans .code previous rest [] rest
  | openTag {previous : Option Lexeme} {html tag cs rest : List Char} {ls : List Lexeme}
      (found : openTag? (html ++ tag ++ cs) = some (html.length, tag.length))
      (scans : Scans .code (some ⟨.openTag, String.ofList tag⟩) cs ls rest) :
      Scans .html previous (html ++ tag ++ cs)
        (lexeme? .inlineHtml html ++ [⟨.openTag, String.ofList tag⟩] ++ ls) rest
  | step {previous : Option Lexeme} {c : Char} {front cs rest : List Char} {s : Step}
      {ls : List Lexeme} (taken : step previous c (front ++ cs) = .ok s)
      (width : c :: front = (c :: front ++ cs).take s.width)
      (scans : Scans s.mode (lastSignificant previous s.lexemes) cs ls rest) :
      Scans .code previous (c :: front ++ cs) (s.lexemes ++ ls) rest

/-- Lexemes that are put in front stand in front of those that were found. -/
theorem Lexing.prepend_eq_iff {front : List Lexeme} {l : Lexing} {stopped : Option Construct} :
    l.prepend front = ⟨ls, stopped⟩ ↔ ∃ back, ls = front ++ back ∧ l = ⟨back, stopped⟩ := by
  obtain ⟨back, k⟩ := l
  simp [Lexing.prepend, eq_comm]

/-- A lexer that comes to a construct which stops it stops there. -/
theorem Scans.lexFrom_eq {k : Construct} (h : Scans mode previous cs ls (c :: rest))
    (hstop : ∀ previous, Lexer.step previous c rest = .error k) :
    lexFrom mode previous cs = ⟨ls, some k⟩ := by
  generalize hplace : c :: rest = place at h
  induction h with
  | here =>
      subst hplace
      exact lexFrom_stop (hstop _)
  | openTag found scans ih =>
      rw [lexFrom_openTag found, ih hplace, Lexing.prepend]
  | step taken width scans ih =>
      rw [lexFrom_step taken width, ih hplace, Lexing.prepend]

/-- A lexer that stops has come to a construct that stops it. -/
theorem exists_scans {k : Construct} (h : lexFrom mode previous cs = ⟨ls, some k⟩) :
    ∃ before c rest, Scans mode previous cs ls (c :: rest) ∧ step before c rest = .error k := by
  induction mode, previous, cs using lexFrom_induction generalizing ls with
  | nil mode previous =>
      rw [lexFrom] at h
      cases h
  | html previous cs nonempty untagged =>
      rw [lexFrom_untagged nonempty untagged] at h
      cases h
  | openTag previous html tag cs found nonempty ih =>
      rw [lexFrom_openTag found] at h
      obtain ⟨back, rfl, hback⟩ := Lexing.prepend_eq_iff.1 h
      obtain ⟨before, c, rest, hscans, hstop⟩ := ih hback
      exact ⟨before, c, rest, .openTag found hscans, hstop⟩
  | stop previous c rest construct stopped =>
      rw [lexFrom_stop stopped] at h
      cases h
      exact ⟨previous, c, rest, .here, stopped⟩
  | step previous c front cs s taken width ih =>
      rw [lexFrom_step taken width] at h
      obtain ⟨back, rfl, hback⟩ := Lexing.prepend_eq_iff.1 h
      obtain ⟨before, d, rest, hscans, hstop⟩ := ih hback
      exact ⟨before, d, rest, .step taken width hscans, hstop⟩

/-- A construct that is never terminated starts with an opener. -/
theorem Unterminated.exists_opener (h : Unterminated message rest) :
    ∃ a ∈ openers, ∃ y, rest = a :: y := by
  cases h with
  | docComment => exact ⟨'/', by decide, _, rfl⟩
  | blockComment => exact ⟨'/', by decide, _, rfl⟩
  | @stringLiteral quote body quotes =>
      refine ⟨quote, ?_, body, rfl⟩
      rcases quotes with rfl | rfl | rfl <;> decide
  | heredoc => exact ⟨'<', by decide, _, rfl⟩

/-- The lexer stops exactly when it comes to a construct that is never terminated. -/
theorem lexFrom_stopped_iff :
    (∃ k : Construct, k.unterminated = message ∧ lexFrom mode previous cs = ⟨ls, some k⟩) ↔
      ∃ rest, Scans mode previous cs ls rest ∧ Unterminated message rest := by
  constructor
  · rintro ⟨k, rfl, h⟩
    obtain ⟨before, c, rest, hscans, hstop⟩ := exists_scans h
    exact ⟨c :: rest, hscans, unterminated_of_step hstop⟩
  · rintro ⟨rest, hscans, hnever⟩
    obtain ⟨a, -, y, rfl⟩ := hnever.exists_opener
    obtain ⟨k, hk, hstop⟩ := hnever.exists_stop
    exact ⟨k, hk, hscans.lexFrom_eq hstop⟩

/-- The lexemes of a step make up what it takes. -/
theorem charsOf_of_step {s : Step} (h : step previous c rest = .ok s) :
    charsOf s.lexemes = (c :: rest).take s.width := by
  obtain ⟨p, -, hlexemes, hchars, -⟩ := exists_piece h
  rw [hlexemes, p.charsOf_lexemes, hchars]

/-- What stands in front of the place is a text of its own, which is read to its end with the same
lexemes. -/
theorem Scans.cut {a : Char} {y : List Char} (h : Scans mode previous cs ls (a :: y))
    (ha : a ∈ openers) :
    ∃ pre, cs = pre ++ a :: y ∧ charsOf ls = pre ∧ lexFrom mode previous pre = ⟨ls, none⟩ := by
  generalize hplace : a :: y = place at h
  induction h with
  | here =>
      subst hplace
      exact ⟨[], rfl, rfl, by rw [lexFrom]⟩
  | @openTag previous html tag cs rest ls found scans ih =>
      obtain ⟨pre, rfl, hchars, hlex⟩ := ih hplace
      subst hplace
      rw [← List.append_assoc] at found
      have hfound := openTag?_cut ha found
        (by rw [List.length_append, List.length_append]; omega)
      refine ⟨html ++ tag ++ pre, by simp, by simp [hchars], ?_⟩
      rw [lexFrom_openTag hfound, hlex, Lexing.prepend]
  | @step previous c front cs rest s ls taken width scans ih =>
      obtain ⟨pre, rfl, hchars, hlex⟩ := ih hplace
      subst hplace
      -- the construct stands behind the step, so the step is as wide as what it took
      have hwidth : s.width = (c :: front).length := by
        have := congrArg List.length width
        simp only [List.length_take, List.length_append, List.length_cons] at this ⊢
        omega
      have hread := charsOf_of_step taken
      rw [← List.cons_append, ← width] at hread
      rw [← List.append_assoc] at taken
      have hcut := step_cut ha taken (by rw [hwidth, List.length_append, List.length_cons]; omega)
      refine ⟨c :: front ++ pre, by simp, by simp [hchars, hread], ?_⟩
      rw [lexFrom_step hcut (by rw [hwidth, List.take_left]), hlex, Lexing.prepend]

end Lexer

namespace Stream

open Text Lexer

variable {text : String}

/-- A text cannot be taken apart exactly when the lexer stops in it, and then the failure is placed
behind the lexemes that were found. -/
theorem tokenize_eq_error_iff {e : SyntaxError} :
    tokenize text = .error e ↔ ∃ k ls, lex text = ⟨ls, some k⟩ ∧
      e = ⟨k, ls.foldl (fun p l => p.advance l.text.toList) Position.start⟩ := by
  unfold tokenize
  obtain ⟨ls, stopped⟩ := lex text
  cases stopped with
  | none => simp
  | some k => simp [eq_comm]

/-- The place behind the lexemes of a text that is read to its end is the place behind the text. No
line break is split between the lexemes, so none is counted twice. -/
theorem foldl_advance_of_lexFrom {pre : List Char} {ls : List Lexeme}
    (h : lexFrom .html none pre = ⟨ls, none⟩) :
    ls.foldl (fun p l => p.advance l.text.toList) Position.start =
      Position.start.advance (charsOf ls) := by
  obtain ⟨ps, hps, rfl, hreads⟩ := exists_reads (congrArg Lexing.stopped h)
  rw [hreads.lexFrom_eq] at h
  obtain rfl : lexemesOf ps = ls := congrArg Lexing.lexemes h
  refine foldl_advance (hreads.isChain hps) (fun l hl => ?_) Position.start
  obtain ⟨p, hp, hlexeme⟩ := List.mem_flatMap.1 hl
  exact (Piece.shaped (hps p hp) hlexeme).nonempty

/-- A text that is read to its end with the given lexemes has their tokens. -/
theorem exists_tokenize {pre : List Char} {ls : List Lexeme}
    (h : lexFrom .html none pre = ⟨ls, none⟩) :
    ∃ s, tokenize (String.ofList pre) = .ok s ∧ s.tokens.toList.map Token.lexeme = ls := by
  refine ⟨Stream.ofTokens (Token.place 0 Position.start ls), ?_, Token.map_lexeme_place 0 _ ls⟩
  rw [tokenize, lex, String.toList_ofList, h]

/-- A text cannot be taken apart exactly when the lexer comes to a construct in it that is never
terminated. The failure then names the construct and the position right behind the text in front of
it. That text can be taken apart, and its tokens are those found so far. -/
theorem unterminated_reported (text : String) :
    (∀ e, tokenize text = .error e → ∃ message pre rest,
      text.toList = pre ++ rest ∧ Unterminated message rest ∧
      Failure.ofSyntax e = Failure.tokenize message
        (1 + countBreaks pre : Nat) (1 + (lastLine pre).length : Nat) ∧
      Scans .html none text.toList (lex text).lexemes rest ∧ charsOf (lex text).lexemes = pre ∧
      ∃ s, tokenize (String.ofList pre) = .ok s ∧
        s.tokens.toList.map Token.lexeme = (lex text).lexemes) ∧
    ((∃ s, tokenize text = .ok s) ↔ ∀ message ls rest,
      Scans .html none text.toList ls rest → ¬ Unterminated message rest) := by
  refine ⟨fun e he => ?_, ?_, ?_⟩
  · obtain ⟨k, ls, hlex, rfl⟩ := tokenize_eq_error_iff.1 he
    obtain ⟨rest, hscans, hnever⟩ := lexFrom_stopped_iff.1 ⟨k, rfl, hlex⟩
    obtain ⟨a, ha, y, rfl⟩ := hnever.exists_opener
    obtain ⟨pre, htext, hpre, hread⟩ := hscans.cut ha
    refine ⟨k.unterminated, pre, a :: y, htext, hnever, ?_, ?_, ?_, ?_⟩
    · rw [Failure.ofSyntax, foldl_advance_of_lexFrom hread, hpre, Position.advance_start]
    · rw [hlex]
      exact hscans
    · rw [hlex]
      exact hpre
    · rw [hlex]
      exact exists_tokenize hread
  · rintro ⟨s, hs⟩ message ls rest hscans hnever
    obtain ⟨k, -, hlex⟩ := lexFrom_stopped_iff.2 ⟨rest, hscans, hnever⟩
    rw [tokenize_eq_error_iff.2 ⟨k, ls, hlex, rfl⟩] at hs
    cases hs
  · intro hall
    cases hs : tokenize text with
    | ok s => exact ⟨s, rfl⟩
    | error e =>
        obtain ⟨k, ls, hlex, -⟩ := tokenize_eq_error_iff.1 hs
        obtain ⟨rest, hscans, hnever⟩ := lexFrom_stopped_iff.1 ⟨k, rfl, hlex⟩
        exact absurd hnever (hall _ _ _ hscans)

/-- A word that only starts with the label does not close a heredoc. -/
theorem unterminated_reported_heredoc : ∃ e rest,
    tokenize "<?php\r\n$x = <<<'A'\nA1;\n" = .error e ∧
    Failure.ofSyntax e = Failure.tokenize "Unterminated heredoc" 2 6 ∧
    "<?php\r\n$x = <<<'A'\nA1;\n".toList = "<?php\r\n$x = ".toList ++ rest ∧
    Unterminated "Unterminated heredoc" rest := by
  have hlex : lex "<?php\r\n$x = <<<'A'\nA1;\n" =
      ⟨[⟨.openTag, "<?php"⟩, ⟨.whitespace, "\r\n"⟩, ⟨.variable, "$x"⟩, ⟨.whitespace, " "⟩,
        ⟨.equal, "="⟩, ⟨.whitespace, " "⟩], some .heredoc⟩ := by
    decide +kernel
  have herror := tokenize_eq_error_iff.2 ⟨_, _, hlex, rfl⟩
  obtain ⟨message, pre, rest, htext, hnever, hfailure, -, hpre, -⟩ :=
    (unterminated_reported _).1 _ herror
  rw [hlex] at hpre
  have hmessage : "Unterminated heredoc" = message := congrArg Failure.message hfailure
  subst hmessage hpre
  exact ⟨_, rest, herror, rfl, htext, hnever⟩

end Stream

end PhpDoc
