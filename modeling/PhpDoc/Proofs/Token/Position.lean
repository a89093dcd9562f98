import Mathlib.Data.List.Chain
import PhpDoc.Proofs.Token.Ends
import PhpDoc.Proofs.Token.Sound

/-!
# Positions counted from the whole text

The position of a token is counted token by token. It is the position that one counts from the whole
text in front of the token (`position_exact`), because no line break is split between two lexemes:
what a step takes ends with another character than a carriage return (`stops_step`), white space is
taken to its end and cut by `cutLines`, and comments are cut by the line grammar.
-/

namespace PhpDoc

namespace Text

/-- The number of line breaks of a text, matched from left to right. -/
def countBreaks : List Char → Nat
  | [] => 0
  | '\r' :: '\n' :: cs => countBreaks cs + 1
  | c :: cs => if isLineBreak c then countBreaks cs + 1 else countBreaks cs

/-- The characters behind the last line break of a text. -/
def lastLine (cs : List Char) : List Char :=
  (cs.reverse.takeWhile (!isLineBreak ·)).reverse

/-- A line break would be split between the two texts. -/
def Splits (cs ds : List Char) : Prop :=
  cs.getLast? = some '\r' ∧ ds.head? = some '\n'

/-- Every line break of a text is counted. -/
theorem unbroken_of_countBreaks {cs : List Char} (h : countBreaks cs = 0) : Unbroken cs := by
  fun_induction countBreaks cs with
  | case1 => exact unbroken_nil
  | case2 cs ih => cases h
  | case3 c cs _ hc ih => cases h
  | case4 c cs _ hc ih => exact unbroken_cons.2 ⟨by simpa using hc, ih h⟩

/-- A text without line breaks is its own last line. -/
theorem lastLine_of_unbroken {cs : List Char} (h : Unbroken cs) : lastLine cs = cs := by
  have hall : ∀ c ∈ cs.reverse, (!isLineBreak c) = true := by
    intro c hc
    simp [h c (List.mem_reverse.1 hc)]
  rw [lastLine, List.takeWhile_eq_self_iff.2 hall, List.reverse_reverse]

/-- A line break at the front does not change the last line. -/
theorem lastLine_cons {c : Char} (hc : isLineBreak c = true) (cs : List Char) :
    lastLine (c :: cs) = lastLine cs := by
  rw [lastLine, lastLine, List.reverse_cons, List.takeWhile_append]
  split
  · next hlen =>
      have hself := (List.takeWhile_prefix (!isLineBreak ·) (l := cs.reverse)).eq_of_length hlen
      simp [hc, hself]
  · rfl

/-- A character in front of a text with a line break does not change the last line. -/
theorem lastLine_cons_of_broken {c : Char} {cs : List Char} (h : ¬ Unbroken cs) :
    lastLine (c :: cs) = lastLine cs := by
  have hshort : (cs.reverse.takeWhile (!isLineBreak ·)).length ≠ cs.reverse.length := by
    intro hlen
    apply h
    intro d hd
    have hself := (List.takeWhile_prefix (!isLineBreak ·) (l := cs.reverse)).eq_of_length hlen
    have := List.mem_takeWhile_imp (hself ▸ List.mem_reverse.2 hd)
    simpa using this
  rw [lastLine, lastLine, List.reverse_cons, List.takeWhile_append, if_neg hshort]

/-- The last line of a text behind another one goes on with the last line of that one, unless it has
a line break of its own. -/
theorem lastLine_append (cs ds : List Char) :
    lastLine (cs ++ ds) = if Unbroken ds then lastLine cs ++ ds else lastLine ds := by
  split
  · next h =>
      have hall : ∀ c ∈ ds.reverse, (!isLineBreak c) = true := by
        intro c hc
        simp [h c (List.mem_reverse.1 hc)]
      rw [lastLine, lastLine, List.reverse_append, List.takeWhile_append_of_pos hall,
        List.reverse_append, List.reverse_reverse]
  · next h =>
      induction cs with
      | nil => rfl
      | cons c cs ih =>
          have hbroken : ¬ Unbroken (cs ++ ds) := fun hboth => h (unbroken_append.1 hboth).2
          rw [List.cons_append, lastLine_cons_of_broken hbroken, ih]

/-- A text that ends a line ends with a character of a line break. -/
theorem exists_of_endsLine {text : String} (h : endsLine text = true) :
    ∃ front c, text.toList = front ++ [c] ∧ isLineBreak c = true := by
  unfold endsLine at h
  split at h
  · next c hc =>
      obtain ⟨front, hfront⟩ := List.getLast?_eq_some_iff.1 hc
      exact ⟨front, c, hfront, h⟩
  · cases h

/-- A text that ends a line has a line break. -/
theorem not_unbroken_of_endsLine {text : String} (h : endsLine text = true) :
    ¬ Unbroken text.toList := by
  obtain ⟨front, c, heq, hc⟩ := exists_of_endsLine h
  simp [heq, hc]

/-- Behind a line break the last line is empty. -/
theorem lastLine_of_endsLine {text : String} (h : endsLine text = true) :
    lastLine text.toList = [] := by
  obtain ⟨front, c, heq, hc⟩ := exists_of_endsLine h
  simp [heq, lastLine, hc]

end Text

open Text

namespace Position

/-- A position moves down by the line breaks of a text, and behind the last of them it stands as
far to the right as the last line is long. -/
theorem advance_eq (p : Position) (cs : List Char) :
    p.advance cs = ⟨p.line + countBreaks cs,
      if Unbroken cs then p.column + cs.length else 1 + (lastLine cs).length⟩ := by
  fun_induction advance p cs with
  | case1 p => simp [countBreaks]
  | case2 p cs ih =>
      have hbroken : ¬ Unbroken ('\r' :: '\n' :: cs) := by simp [isLineBreak]
      rw [ih, if_neg hbroken, lastLine_cons rfl, lastLine_cons rfl, countBreaks]
      by_cases hcs : Unbroken cs
      · simp only [if_pos hcs, lastLine_of_unbroken hcs, nextLine, Position.mk.injEq, and_true]
        omega
      · simp only [if_neg hcs, nextLine, Position.mk.injEq, and_true]
        omega
  | case3 p c cs hno hc ih =>
      have hbroken : ¬ Unbroken (c :: cs) := by simp [hc]
      rw [ih, if_neg hbroken, lastLine_cons hc, countBreaks.eq_3 _ _ hno, if_pos hc]
      by_cases hcs : Unbroken cs
      · simp only [if_pos hcs, lastLine_of_unbroken hcs, nextLine, Position.mk.injEq, and_true]
        omega
      · simp only [if_neg hcs, nextLine, Position.mk.injEq, and_true]
        omega
  | case4 p c cs hno hc ih =>
      have hc' : isLineBreak c = false := by simpa using hc
      rw [ih, countBreaks.eq_3 _ _ hno, if_neg hc]
      by_cases hcs : Unbroken cs
      · have hunbroken : Unbroken (c :: cs) := unbroken_cons.2 ⟨hc', hcs⟩
        simp only [if_pos hcs, if_pos hunbroken, nextColumn, List.length_cons, Position.mk.injEq,
          true_and]
        omega
      · have hbroken : ¬ Unbroken (c :: cs) := fun h => hcs (unbroken_cons.1 h).2
        simp only [if_neg hcs, if_neg hbroken, lastLine_cons_of_broken hcs, nextColumn]

/-- A text that moves a position to no later line has no line break. -/
theorem unbroken_of_line_advance {p : Position} {cs : List Char}
    (h : (p.advance cs).line ≤ p.line) : Unbroken cs := by
  rw [advance_eq] at h
  exact unbroken_of_countBreaks (Nat.le_zero.1 (Nat.le_of_add_le_add_left h))

/-- A text that ends a line moves a position to a later line. -/
theorem line_lt_advance_of_endsLine {p : Position} {text : String} (h : endsLine text = true) :
    p.line < (p.advance text.toList).line := by
  by_contra hle
  exact not_unbroken_of_endsLine h (unbroken_of_line_advance (Nat.le_of_not_lt hle))

/-- The position behind a text that starts in the first column of the first line. -/
theorem advance_start (cs : List Char) :
    start.advance cs = ⟨1 + countBreaks cs, 1 + (lastLine cs).length⟩ := by
  rw [advance_eq]
  split
  · next hunbroken => rw [lastLine_of_unbroken hunbroken, start]
  · rfl

/-- A position moves over two texts one after the other, unless a line break is split between
them. -/
theorem advance_append {cs ds : List Char} (h : ¬ Splits cs ds) (p : Position) :
    p.advance (cs ++ ds) = (p.advance cs).advance ds := by
  fun_induction advance p cs with
  | case1 p => rfl
  | case2 p cs ih =>
      rw [List.cons_append, List.cons_append, advance]
      cases cs with
      | nil => rfl
      | cons c cs =>
          refine ih fun hsplits => h ?_
          simpa [Splits] using hsplits
  | case3 p c cs hno hc ih =>
      rw [List.cons_append, advance.eq_3, if_pos hc]
      · cases cs with
        | nil => rfl
        | cons d cs =>
            refine ih fun hsplits => h ?_
            simpa [Splits] using hsplits
      · rintro ds' rfl hds'
        cases cs with
        | nil => exact h ⟨rfl, by simp [show ds = '\n' :: ds' from hds']⟩
        | cons d cs =>
            obtain ⟨rfl, -⟩ := List.cons.inj hds'
            exact hno cs rfl rfl
  | case4 p c cs hno hc ih =>
      rw [List.cons_append, advance.eq_3, if_neg hc]
      · cases cs with
        | nil => rfl
        | cons d cs =>
            refine ih fun hsplits => h ?_
            simpa [Splits] using hsplits
      · rintro ds' rfl -
        exact hc rfl

end Position

namespace Lexer

/-! ## Line breaks between lexemes -/

/-- No line break is split between the two lexemes. -/
def Apart (l m : Lexeme) : Prop :=
  ¬ Splits l.text.toList m.text.toList

/-- A lexeme that does not end with a carriage return splits no line break with the next one. -/
theorem apart_of_stops {l : Lexeme} (h : Stops l.text.toList) (m : Lexeme) : Apart l m :=
  fun hsplits => h hsplits.1

/-- Only a lone carriage return ends with one. -/
theorem Move.stops {p q : Spot} {l : Lexeme} (h : Move p l q) (hne : l.text.toList ≠ ['\r']) :
    Stops l.text.toList := by
  by_cases hkind : l.kind = .docBlank
  · rcases h.blank_or_ending hkind with ⟨hending, -⟩ | ⟨hblank, -⟩
    · rcases hending with heq | heq | heq
      · rw [heq]
        decide
      · rw [heq]
        decide
      · exact absurd heq hne
    · refine stops_of_not_mem fun hmem => ?_
      exact absurd (hblank _ hmem) (by decide)
  · refine stops_of_not_mem fun hmem => ?_
    exact absurd (h.unbroken hkind _ hmem) (by decide)

/-- The lexemes of a comment split no line break. -/
theorem Run.isChain {p q : Spot} {ls : List Lexeme} (h : Run p ls q) : ls.IsChain Apart := by
  induction h with
  | nil => exact .nil
  | @cons p q r l ls move apart rest ih =>
      cases rest with
      | nil => exact .singleton l
      | @cons q q' r m ms move' apart' rest =>
          refine .cons_cons (fun hsplits => ?_) ih
          obtain ⟨tail, htail⟩ := List.head?_eq_some_iff.1 hsplits.2
          by_cases hne : l.text.toList = ['\r']
          · exact apart hne (by rw [charsOf_cons, htail]; rfl)
          · exact move.stops hne hsplits.1

/-- The lines of a text split no line break. -/
theorem isChain_cutLines (cs : List Char) :
    (cutLines isLineBreak cs).IsChain (fun a b => ¬ Splits a b) := by
  induction hn : cs.length using Nat.strongRecOn generalizing cs with
  | _ n ih =>
      rcases exists_line cs with hline | ⟨line, ending, rest, rfl, hline, hending, hsep⟩
      · by_cases hne : cs = []
        · rw [hne]
          exact .nil
        · rw [cutLines_unbroken hline hne]
          exact .singleton cs
      · have hlen := List.length_pos_iff.2 hending.ne_nil
        have hrest := ih rest.length (by simp at hn; omega) rest rfl
        rw [cutLines_cons hline hending hsep]
        cases hlines : cutLines isLineBreak rest with
        | nil => exact .singleton _
        | cons next lines =>
            rw [hlines] at hrest
            refine .cons_cons (fun hsplits => ?_) hrest
            obtain ⟨tail, htail⟩ := List.head?_eq_some_iff.1 hsplits.2
            have hflat := flatten_cutLines isLineBreak rest
            rw [hlines, List.flatten_cons, htail] at hflat
            rw [Splits, List.getLast?_append_of_ne_nil _ hending.ne_nil] at hsplits
            rcases hending with heq | heq | heq
            · rw [heq] at hsplits
              exact absurd hsplits.1 (by decide)
            · rw [heq] at hsplits
              exact absurd hsplits.1 (by decide)
            · exact hsep heq (by rw [← hflat]; rfl)

/-- The lexemes of a piece split no line break. -/
theorem Piece.isChain (p : Piece) : p.lexemes.IsChain Apart := by
  cases p with
  | code l => exact .singleton l
  | space cs =>
      rw [lexemes, List.isChain_map]
      refine (isChain_cutLines cs).imp fun a b h => ?_
      simpa [Apart] using h
  | doc body =>
      obtain ⟨q, hrun⟩ := run_docBody body
      have hopen : Stops "/**".toList := by
        show Stops ['/', '*', '*']
        decide
      have hclose : ∀ l : Lexeme, Apart l ⟨.docClose, "*/"⟩ := by
        intro l hsplits
        exact absurd hsplits.2 (by decide)
      refine List.isChain_append.2 ⟨?_, .singleton _, fun l _ m hm => ?_⟩
      · refine List.isChain_cons.2 ⟨fun m _ => apart_of_stops hopen m, hrun.isChain⟩
      · obtain rfl : ⟨.docClose, "*/"⟩ = m := by simpa using hm
        exact hclose l

/-- An open tag starts with its bracket and does not end with a carriage return. -/
theorem openTag_spec {cs : List Char} {width : Nat} (h : openTagWidth? cs = some width) :
    cs.head? = some '<' ∧ Stops (cs.take width) := by
  unfold openTagWidth? at h
  split at h
  · next cs =>
      refine ⟨rfl, ?_⟩
      split at h
      · next p h' q rest =>
          split at h
          · next hphp =>
              cases h
              simp only [Bool.and_eq_true, decide_eq_true_eq] at hphp
              show Stops ['<', '?', p, h', q]
              intro hlast
              obtain rfl : q = '\r' := by simpa using hlast
              exact absurd hphp.1.2 (by decide)
          · split at h
            · next hp =>
                cases h
                simp [Stops, hp]
            · cases h
              show Stops ['<', '?']
              decide
      · cases h
        show Stops ['<', '?', '=']
        decide
      · cases h
        show Stops ['<', '?']
        decide
  · cases h

/-- An open tag is found where it stands. -/
theorem openTagWidth?_of_found {html tag rest : List Char} {width : Nat}
    (h : openTag? (html ++ (tag ++ rest)) = some (html.length, width)) :
    openTagWidth? (tag ++ rest) = some width := by
  induction html with
  | nil =>
      rw [List.nil_append, List.length_nil] at h
      cases htag : tag ++ rest with
      | nil =>
          rw [htag] at h
          cases h
      | cons c cs =>
          rw [htag, openTag?] at h
          split at h
          · next w hw =>
              cases h
              exact hw
          · obtain ⟨found, -, hfound⟩ := Option.map_eq_some_iff.1 h
            cases hfound
  | cons c html ih =>
      rw [List.cons_append, openTag?] at h
      split at h
      · cases h
      · obtain ⟨⟨offset, w⟩, hrest, heq⟩ := Option.map_eq_some_iff.1 h
        cases heq
        exact ih hrest

/-- The last lexeme of a row ends as the row does. -/
theorem getLast?_charsOf {ls : List Lexeme} {l : Lexeme} (hl : ls.getLast? = some l)
    (hne : l.text.toList ≠ []) : (charsOf ls).getLast? = l.text.toList.getLast? := by
  obtain ⟨front, rfl⟩ := List.getLast?_eq_some_iff.1 hl
  rw [charsOf_append, charsOf_cons, charsOf_nil, List.append_nil,
    List.getLast?_append_of_ne_nil _ hne]

/-- The first lexeme of a row starts as the row does. -/
theorem head?_charsOf {ls : List Lexeme} {l : Lexeme} (hl : ls.head? = some l)
    (hne : l.text.toList ≠ []) : (charsOf ls).head? = l.text.toList.head? := by
  obtain ⟨tail, rfl⟩ := List.head?_eq_some_iff.1 hl
  rw [charsOf_cons, List.head?_append_of_ne_nil _ hne]

/-- The lexemes of a text split no line break. -/
theorem Reads.isChain {mode : Mode} {previous : Option Lexeme} {ps : List Piece}
    (h : Reads mode previous ps) (hps : ∀ p ∈ ps, p.Valid) : (lexemesOf ps).IsChain Apart := by
  have hshaped : ∀ {ps : List Piece}, (∀ p ∈ ps, p.Valid) → ∀ l ∈ lexemesOf ps,
      l.text.toList ≠ [] := by
    intro ps hps l hl
    obtain ⟨p, hp, hl⟩ := List.mem_flatMap.1 hl
    exact (Piece.shaped (hps p hp) hl).nonempty
  induction h with
  | nil => exact .nil
  | html nonempty untagged =>
      rw [lexemesOf_html?]
      unfold lexeme?
      split
      · exact .nil
      · exact .singleton _
  | @openTag previous html tag ps found rest ih =>
      obtain ⟨hhtml, hrow⟩ := List.forall_mem_append.1 hps
      obtain ⟨htag, hps⟩ := List.forall_mem_cons.1 hrow
      rw [List.append_assoc] at found
      obtain ⟨hhead, hstops⟩ := openTag_spec (openTagWidth?_of_found found)
      rw [List.take_left] at hstops
      have htail : (⟨.openTag, String.ofList tag⟩ :: lexemesOf ps).IsChain Apart :=
        List.isChain_cons.2 ⟨fun m _ => apart_of_stops (by simpa using hstops) m, ih hps⟩
      rw [lexemesOf_append, lexemesOf_html?]
      refine List.isChain_append.2 ⟨?_, htail, fun l _ m hm hsplits => ?_⟩
      · unfold lexeme?
        split
        · exact .nil
        · exact .singleton _
      · -- the open tag starts with no line feed
        obtain rfl : ⟨.openTag, String.ofList tag⟩ = m := by simpa [Piece.lexemes] using hm
        have hne : tag ≠ [] := by simpa [Piece.Valid] using htag.2
        rw [List.head?_append_of_ne_nil _ hne] at hhead
        rw [Splits, String.toList_ofList, hhead] at hsplits
        exact absurd hsplits.2 (by decide)
  | @step previous c cs p ps s valid chars taken lexemes width rest ih =>
      obtain ⟨-, hps⟩ := List.forall_mem_cons.1 hps
      rw [lexemesOf_cons]
      refine List.isChain_append.2 ⟨p.isChain, ih hps, fun l hl m hm => ?_⟩
      have hm' := hshaped hps m (List.mem_of_head? hm)
      have hl' := (Piece.shaped valid (List.mem_of_getLast? hl)).nonempty
      by_cases hspace : isCodeSpace c = true
      · -- white space is taken to its end, so what follows is no line feed
        rw [chars] at width
        have hstop := takeWhile_of_step hspace taken width
        intro hsplits
        have hhead := hsplits.2
        rw [← head?_charsOf hm hm', charsOf_lexemesOf] at hhead
        obtain ⟨tail, htail⟩ := List.head?_eq_some_iff.1 hhead
        rw [htail] at hstop
        exact absurd hstop (by simp [isCodeSpace])
      · have hstops := stops_step taken (by simpa using hspace)
        rw [← List.cons_append, ← chars, ← width, ← p.charsOf_lexemes] at hstops
        refine apart_of_stops (fun hreturn => hstops ?_) m
        rw [getLast?_charsOf hl hl', hreturn]

/-- A row of lexemes that splits no line break is passed like its text. -/
theorem foldl_advance {ls : List Lexeme} (h : ls.IsChain Apart)
    (hne : ∀ l ∈ ls, l.text.toList ≠ []) (p : Position) :
    ls.foldl (fun p l => p.advance l.text.toList) p = p.advance (charsOf ls) := by
  induction ls generalizing p with
  | nil => simp
  | cons l ls ih =>
      obtain ⟨hl, hls⟩ := List.isChain_cons.1 h
      rw [List.foldl_cons, ih hls (fun m hm => hne m (List.mem_cons_of_mem _ hm)), charsOf_cons,
        Position.advance_append]
      intro hsplits
      cases hhead : ls.head? with
      | none =>
          rw [List.head?_eq_none_iff.1 hhead] at hsplits
          exact absurd hsplits.2 (by simp)
      | some m =>
          have hm := hne m (List.mem_cons_of_mem _ (List.mem_of_head? hhead))
          rw [Splits, head?_charsOf hhead hm] at hsplits
          exact hl m hhead hsplits

end Lexer

open Lexer

/-- The text of tokens is that of their lexemes. -/
theorem Token.toList_textOf (ts : List Token) :
    (textOf ts).toList = charsOf (ts.map lexeme) := by
  rw [textOf, String.toList_join, charsOf, List.flatMap_map, List.flatMap_map]
  rfl

namespace Stream

variable {s : Stream} {text : String}

/-- A token behind a row of lexemes that splits no line break stands where the text of the row
ends. -/
theorem position_of_isChain {ls : List Lexeme} {before after : List Token} {t : Token}
    (heq : Token.place 0 Position.start ls = before ++ t :: after)
    (hchain : (before.map Token.lexeme).IsChain Apart)
    (hne : ∀ l ∈ before.map Token.lexeme, l.text.toList ≠ []) :
    t.position = Position.start.advance (Token.textOf before).toList := by
  have hls : ls = before.map Token.lexeme ++ (t :: after).map Token.lexeme := by
    rw [← Token.map_lexeme_place 0 Position.start ls, heq, List.map_append]
  rw [hls, Token.place_append] at heq
  obtain ⟨-, htail⟩ := List.append_inj heq (by simp)
  rw [Token.position_place_zero (t := t) (by rw [htail]; rfl), foldl_advance hchain hne,
    Token.toList_textOf]

/-- The tokens of a source text make up the text, none of them is empty, and each stands on the line
and in the column that are counted from the whole text in front of it. No line break is split
between two tokens. -/
theorem position_exact (h : tokenize text = .ok s) :
    s.text = text ∧
      ∀ before t after, s.tokens.toList = before ++ t :: after →
        t.text ≠ "" ∧
        t.line = 1 + countBreaks (Token.textOf before).toList ∧
        t.column = 1 + (lastLine (Token.textOf before).toList).length ∧
        ¬ Splits (Token.textOf before).toList t.text.toList := by
  obtain ⟨ps, hps, hchars, hreads, hs⟩ := exists_pieces h
  have hmap : s.tokens.toList.map Token.lexeme = lexemesOf ps := by
    rw [hs]
    exact Token.map_lexeme_place 0 Position.start (lexemesOf ps)
  have hne : ∀ l ∈ lexemesOf ps, l.text.toList ≠ [] := by
    intro l hl
    obtain ⟨p, hp, hl⟩ := List.mem_flatMap.1 hl
    exact (Piece.shaped (hps p hp) hl).nonempty
  refine ⟨?_, fun before t after heq => ?_⟩
  · rw [← String.toList_inj, Stream.text, Token.toList_textOf, hmap, charsOf_lexemesOf, hchars]
  · have hplace : Token.place 0 Position.start (lexemesOf ps) = before ++ t :: after := by
      rw [← heq, hs]
      rfl
    rw [heq, List.map_append, List.map_cons] at hmap
    have hchain := hreads.isChain hps
    rw [← hmap] at hchain hne
    obtain ⟨hbefore, -, hmeet⟩ := List.isChain_append.1 hchain
    have hbeforeNe : ∀ l ∈ before.map Token.lexeme, l.text.toList ≠ [] :=
      fun l hl => hne l (List.mem_append_left _ hl)
    have hposition := position_of_isChain hplace hbefore hbeforeNe
    rw [Position.advance_eq] at hposition
    have hline := congrArg Position.line hposition
    have hcolumn := congrArg Position.column hposition
    refine ⟨fun hempty => hne t.lexeme (by simp) (by simp [hempty]), hline, ?_, fun hsplits => ?_⟩
    · rw [Token.position] at hcolumn
      simp only [Position.start] at hcolumn
      split at hcolumn
      · next hunbroken => rw [hcolumn, lastLine_of_unbroken hunbroken]
      · exact hcolumn
    · -- the break would be split between the token and the one before it
      rw [Token.toList_textOf] at hsplits
      cases hlast : (before.map Token.lexeme).getLast? with
      | none =>
          rw [List.getLast?_eq_none_iff.1 hlast] at hsplits
          exact absurd hsplits.1 (by simp)
      | some l =>
          rw [Splits, getLast?_charsOf hlast (hbeforeNe l (List.mem_of_getLast? hlast))] at hsplits
          exact hmeet l hlast t.lexeme (by simp) hsplits

/-- A carriage return with its line feed is one token, and what follows it stands on the second
line. -/
theorem position_return_feed : ∃ s before t, tokenize "<?php\r\n$x" = .ok s ∧
    s.tokens.toList = before ++ [t] ∧ s.text = "<?php\r\n$x" ∧
    t.line = 1 + countBreaks (Token.textOf before).toList ∧
    t.column = 1 + (lastLine (Token.textOf before).toList).length ∧
    ¬ Splits (Token.textOf before).toList t.text.toList ∧ t.position = ⟨2, 1⟩ := by
  have hlex : lex "<?php\r\n$x" =
      ⟨[⟨.openTag, "<?php"⟩, ⟨.whitespace, "\r\n"⟩, ⟨.variable, "$x"⟩], none⟩ := by
    decide +kernel
  have hs : tokenize "<?php\r\n$x" = .ok (ofTokens [⟨.openTag, "<?php", 0, 1, 1⟩,
      ⟨.whitespace, "\r\n", 1, 1, 6⟩, ⟨.variable, "$x", 2, 2, 1⟩]) := by
    rw [tokenize, hlex]
    rfl
  obtain ⟨htext, hposition⟩ := position_exact hs
  obtain ⟨-, hline, hcolumn, hsplits⟩ := hposition
    [⟨.openTag, "<?php", 0, 1, 1⟩, ⟨.whitespace, "\r\n", 1, 1, 6⟩] ⟨.variable, "$x", 2, 2, 1⟩ [] rfl
  exact ⟨_, _, _, hs, rfl, htext, hline, hcolumn, hsplits, rfl⟩

end Stream

end PhpDoc
