import PhpDoc.Proofs.Lint.Keep
import PhpDoc.Proofs.Rule.Retain

/-!
# Fixing keeps the style of line breaks

A text whose line breaks are all line feeds, or all carriage returns with a line feed, is read as a
stream that inserts the same break (`brokenBy_of_tokenize`). What a pass writes for its tokens is
broken in the same way and keeps one of its breaks (`Pass.inStyle_run`), so the result of any number
of passes is (`fix_keeps_line_breaks`). A text without line breaks gets line feeds. Carriage returns
alone are no style that the stream inserts, so they are not kept.
-/

namespace PhpDoc

open Text

/-- All line breaks of the text are `e`, and there is one unless `e` is the line feed. -/
structure Text.InStyle (e : String) (text : String) : Prop where
  fed : e = "\n" ∨ e = "\r\n"
  brokenBy : BrokenBy e text.toList
  broken : e = "\n" ∨ ¬ Unbroken text.toList

variable {s : Stream} {config : Config} {text e : String}

/-- A text in a style is read as a stream that inserts the line breaks of the style. -/
theorem Text.InStyle.stream (h : InStyle e text) (hread : tokenize text = .ok s) :
    s.BrokenBy e where
  fed := h.fed
  token := Stream.brokenBy_of_tokenize hread h.brokenBy
  eol := by
    refine Stream.eol_of_brokenBy (Stream.sound_of_tokenize hread).toPlaced h.fed
      (fun t ht => Stream.brokenBy_of_tokenize hread h.brokenBy ht) ?_
    exact h.broken.imp_right fun hbroken => Stream.exists_broken hread hbroken

/-- What repairs write for a token is broken as the stream is. -/
theorem Fixer.Wrote.brokenBy_written {f : Fixer} {cs : List Changeset} (hs : s.Sound)
    (h : f.Wrote s cs) (hcs : ∀ change ∈ cs, Repair s change) (hbroken : s.BrokenBy e) {t : Token}
    (ht : s.Has t) : BrokenBy e (f.written t).toList := by
  rcases h.written_cases ht with hkept | ⟨change, hchange, -, hwritten⟩
  · rw [hkept]
    exact hbroken.token ht
  · rw [hwritten]
    exact (hcs change hchange).breaksWith hs hbroken t ht

/-- A pass over a text in a style writes a text in this style. -/
theorem Pass.inStyle_run {pass : Pass} (h : InStyle e text) (hrun : run config text = .ok pass) :
    InStyle e pass.fixer.text := by
  obtain ⟨s, hread⟩ := tokenize_of_run hrun
  obtain ⟨findings, -, heffective, -, hpass⟩ := exists_run config hread
  obtain rfl := Except.ok.inj (hrun.symm.trans hpass)
  have hs := Stream.sound_of_tokenize hread
  have hbroken := h.stream hread
  obtain ⟨cs, hwrote, hcs⟩ :=
    exists_wrote (fun change hrepair => (Repair.changes hs hrepair).fits) heffective
  have hhas : ∀ t ∈ s.tokens.toList, s.Has t := fun t => (Stream.has_iff_mem hs.toPlaced).2
  refine ⟨h.fed, ?_, h.broken.imp_right fun hlines => ?_⟩
  · rw [hwrote.toList_text hs.toPlaced]
    exact brokenBy_flatMap h.fed fun t ht => hwrote.brokenBy_written hs hcs hbroken (hhas t ht)
  · obtain ⟨t, ht, hbreak⟩ := Stream.exists_broken hread hlines
    obtain ⟨u, hu, hwritten⟩ := hwrote.exists_broken hs hcs ht hbreak
    rw [hwrote.toList_text hs.toPlaced]
    intro hunbroken
    have hmem := (Stream.has_iff_mem hs.toPlaced).1 hu
    exact hwritten fun c hc => hunbroken c (List.mem_flatMap.2 ⟨u, hmem, hc⟩)

/-- However many passes run over a text in a style, the last text is in this style. -/
theorem FixRun.inStyle_outcome {limit : Nat} {result : String} {converged : Bool}
    (h : InStyle e text) (houtcome : (upTo config limit text).outcome = .ok (result, converged)) :
    InStyle e result := by
  induction limit generalizing text with
  | zero =>
      cases houtcome
      exact h
  | succ limit ih =>
      rw [upTo] at houtcome
      split at houtcome
      · cases houtcome
      · next pass hpass =>
          split at houtcome
          · exact ih (Pass.inStyle_run h hpass) houtcome
          · cases houtcome
            exact h

/-- Fixing keeps the style of line breaks: when all line breaks of a text are line feeds, or there
are line breaks and all of them are carriage returns with a line feed, those of the result are. -/
theorem fix_keeps_line_breaks {r : FixResult} (hfix : Lint.fix config text = .ok r)
    (hall : BrokenBy e text.toList)
    (hstyle : e = "\n" ∨ e = "\r\n" ∧ ¬ Unbroken text.toList) : BrokenBy e r.text.toList := by
  obtain ⟨houtcome, -⟩ := FixRun.result_eq_ok.1 hfix
  have h : InStyle e text := ⟨hstyle.imp_right And.left, hall, hstyle.imp_right And.right⟩
  exact (FixRun.inStyle_outcome h houtcome).brokenBy

/-- Carriage returns alone are not kept. -/
example :
    (FixRun.upTo Config.default 1 "<?php\r/** F */").outcome.toOption.map (·.1) =
      some "<?php\r/**\n * F\n */" := by
  decide +kernel

end PhpDoc
