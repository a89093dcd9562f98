import PhpDoc.Proofs.Token.Rewrite
import PhpDoc.Text.Cut

/-!
# Reading code

Words, variables and brackets that stand in code as pieces of their own: the lexer takes the
characters of such a piece and stops in front of a character that cannot go on with it
(`reads_word`, `reads_variable`, `reads_parenthesis`).
-/

namespace PhpDoc.Lexer

open Text

variable {previous : Option Lexeme} {c : Char} {cs rest : List Char} {ps : List Piece} {kind : Kind}

/-- A step that takes one lexeme of code. -/
theorem reads_code {text : String} (htext : text.toList = c :: cs) (hkind : kind.isCode = true)
    (hstep : step previous c (cs ++ textOf ps) =
      .ok (take kind (c :: cs).length (c :: cs ++ textOf ps)))
    (hrest : Reads .code (lastSignificant previous [⟨kind, text⟩]) ps) :
    Reads .code previous (.code ⟨kind, text⟩ :: ps) := by
  have htake : (c :: cs ++ textOf ps).take (c :: cs).length = text.toList := by
    rw [List.take_left, htext]
  have hvalid : (Piece.code ⟨kind, text⟩).Valid := ⟨hkind, by simp [htext]⟩
  refine .step hvalid htext hstep ?_ ?_ hrest
  · show [(⟨kind, String.ofList _⟩ : Lexeme)] = [_]
    rw [htake, String.ofList_toList]
  · show text.toList = (text.toList ++ textOf ps).take (c :: cs).length
    rw [htext, List.take_left]

/-- A text with another first character does not start with the piece. -/
theorem startsWith_of_ne (lead : String) {d : Char} {ds : List Char}
    (hlead : lead.toList = d :: ds) (h : c ≠ d) (rest : List Char) :
    startsWith lead (c :: rest) = false := by
  rw [startsWith, hlead, List.isPrefixOf_cons_cons, beq_eq_false_iff_ne.2 h.symm, Bool.false_and]

/-- At a letter, an underscore or a dollar sign no rule applies but the one for words. -/
theorem step_word_of (hc : isLabelStart c = true ∨ c = '$') (previous : Option Lexeme)
    (rest : List Char) : step previous c rest = .ok (word previous c rest) := by
  have hne : ∀ d, isLabelStart d = false → d ≠ '$' → c ≠ d := by
    rintro d hd hdollar rfl
    rcases hc with hc | hc
    · rw [hd] at hc
      cases hc
    · exact hdollar hc
  have hspace : isCodeSpace c = false := by
    simp [isCodeSpace, hne ' ' rfl (by decide), hne '\t' rfl (by decide), hne '\r' rfl (by decide),
      hne '\n' rfl (by decide), hne '\x0c' rfl (by decide), hne '\x0b' rfl (by decide)]
  have hslash : c ≠ '/' := hne '/' rfl (by decide)
  have hclose := startsWith_of_ne "?>" rfl (hne '?' rfl (by decide)) rest
  have hdoc := startsWith_of_ne "/**" rfl hslash rest
  have hblock := startsWith_of_ne "/*" rfl hslash rest
  have hline := startsWith_of_ne "//" rfl hslash rest
  have hhere := startsWith_of_ne "<<<" rfl (hne '<' rfl (by decide)) rest
  simp [step, hspace, hclose, hdoc, hblock, hline, hhere, hne '#' rfl (by decide),
    hne '\'' rfl (by decide), hne '"' rfl (by decide), hne '\x60' rfl (by decide)]

/-- The start of a label is no white space. -/
theorem isCodeSpace_of_isLabelStart (hc : isLabelStart c = true) : isCodeSpace c = false := by
  refine Bool.eq_false_iff.2 fun hspace => ?_
  simp only [isCodeSpace, Bool.or_eq_true, decide_eq_true_eq] at hspace
  rcases hspace with ((((rfl | rfl) | rfl) | rfl) | rfl) | rfl <;> cases hc

/-- The ASCII letters and digits and the underscore. -/
def isLabelPart (c : Char) : Bool :=
  isLabelStart c || c.isDigit

/-- The start of a label is one of its parts. -/
theorem isLabelPart_of_isLabelStart (h : isLabelStart c = true) : isLabelPart c = true := by
  rw [isLabelPart, h, Bool.true_or]

/-- Labels are written in ASCII here. -/
theorem toNat_of_isLabelPart (h : isLabelPart c = true) : c.toNat < 128 := by
  have hbelow {d : Char} (hd : d.toNat < 128) (hle : c.val ≤ d.val) : c.toNat < 128 :=
    Nat.lt_of_le_of_lt hle hd
  rw [isLabelPart, isLabelStart, Bool.or_eq_true, Bool.or_eq_true, decide_eq_true_eq] at h
  rcases h with (halpha | rfl) | hdigit
  · rcases (Bool.or_eq_true _ _).mp halpha with hupper | hlower
    · exact hbelow (by decide) (of_decide_eq_true hupper).2
    · exact hbelow (by decide) (of_decide_eq_true (Bool.and_eq_true_iff.1 hlower).2)
  · decide
  · exact hbelow (by decide) (of_decide_eq_true (Bool.and_eq_true_iff.1 hdigit).2)

/-- Letters, digits and underscores are word characters and no white space. -/
theorem isWord_of_isLabelPart (h : isLabelPart c = true) : isWord c = true ∧ isSpace c = false := by
  have hall : ∀ n : Fin 128, isLabelPart (Char.ofNat n) = true →
      isWord (Char.ofNat n) = true ∧ isSpace (Char.ofNat n) = false := by
    decide +kernel
  have hc := hall ⟨c.toNat, toNat_of_isLabelPart h⟩
  simp only [Char.ofNat_toNat] at hc
  exact hc h

/-- The parts of labels are parts of names. -/
theorem isNamePart_of_isLabelPart (h : isLabelPart c = true) : isNamePart c = true := by
  simp [isNamePart, isVariablePart, (isWord_of_isLabelPart h).1]

/-- The parts of labels are parts of variables. -/
theorem isVariablePart_of_isLabelPart (h : isLabelPart c = true) : isVariablePart c = true := by
  simp [isVariablePart, (isWord_of_isLabelPart h).1]

/-- A word of ASCII letters, digits and underscores. -/
def IsLabel (cs : List Char) : Prop :=
  ∃ c part, cs = c :: part ∧ isLabelStart c = true ∧ ∀ x ∈ part, isLabelPart x = true

/-- The step at a word, which the text behind it ends. -/
theorem word_label (hc : isLabelStart c = true) (hcs : ∀ x ∈ cs, isLabelPart x = true)
    (hstop : ∀ x, rest.head? = some x → isNamePart x = false) (previous : Option Lexeme) :
    word previous c (cs ++ rest) =
      take (classify previous (String.ofList (c :: cs)) rest) (c :: cs).length
        (c :: cs ++ rest) := by
  have hdollar : c ≠ '$' := by
    rintro rfl
    cases hc
  have hslash : c ≠ '\\' := by
    rintro rfl
    cases hc
  have hvariable : variableWidth? (c :: (cs ++ rest)) = none := by
    unfold variableWidth?
    split
    · next heq => exact absurd (List.cons.inj heq).1 hdollar
    · rfl
  have hrun := (takeWhile_run (fun x hx => isNamePart_of_isLabelPart (hcs x hx)) hstop).1
  have hname : nameWidth? (c :: (cs ++ rest)) = some (c :: cs).length := by
    unfold nameWidth?
    split
    · next heq => exact absurd (List.cons.inj heq).1 hslash
    · next heq =>
        obtain ⟨rfl, rfl⟩ := List.cons.inj heq
        rw [hrun, isNameStart, hc, Bool.true_or, if_pos rfl, List.length_cons, Nat.add_comm]
    · next heq => cases heq
  have htake : (c :: (cs ++ rest)).take (c :: cs).length = c :: cs := List.take_left
  have hdrop : (c :: (cs ++ rest)).drop (c :: cs).length = rest := List.drop_left
  rw [word]
  simp only [hvariable, hname, htake, hdrop, List.cons_append]

/-- The step at a variable, which the text behind it ends. -/
theorem word_variable (hc : isLabelStart c = true) (hcs : ∀ x ∈ cs, isLabelPart x = true)
    (hstop : ∀ x, rest.head? = some x → isVariablePart x = false) (previous : Option Lexeme) :
    word previous '$' (c :: cs ++ rest) =
      take .variable ('$' :: c :: cs).length ('$' :: c :: cs ++ rest) := by
  have hrun := (takeWhile_run (fun x hx => isVariablePart_of_isLabelPart (hcs x hx)) hstop).1
  have hvariable : variableWidth? ('$' :: c :: (cs ++ rest)) = some ('$' :: c :: cs).length := by
    rw [variableWidth?, hrun, isNameStart, hc, Bool.true_or, if_pos rfl, List.length_cons,
      List.length_cons, Nat.add_comm]
  rw [word]
  simp only [List.cons_append, hvariable]

/-- The brackets and the comma of a parameter list and of a body. -/
def isDelimiter (c : Char) : Bool :=
  c = '(' || c = ')' || c = ',' || c = '\x7b' || c = '\x7d'

/-- A delimiter is taken alone, whatever stands around it. -/
theorem step_delimiter (hc : isDelimiter c = true) (previous : Option Lexeme) (rest : List Char) :
    step previous c rest = .ok (take (punctuation c) 1 (c :: rest)) := by
  simp only [isDelimiter, Bool.or_eq_true, decide_eq_true_eq] at hc
  rcases hc with (((rfl | rfl) | rfl) | rfl) | rfl <;> cases rest <;> rfl

/-- A word is read in front of a text that ends it. -/
theorem reads_word {text : String} (htext : IsLabel text.toList)
    (hstop : ∀ x, (textOf ps).head? = some x → isNamePart x = false)
    (hkind : classify previous text (textOf ps) = kind) (htrivia : kind.isTrivia = false)
    (hrest : Reads .code (some ⟨kind, text⟩) ps) :
    Reads .code previous (.code ⟨kind, text⟩ :: ps) := by
  obtain ⟨c, cs, heq, hc, hcs⟩ := htext
  have hword := word_label hc hcs hstop previous
  rw [← heq, String.ofList_toList, hkind, heq] at hword
  refine reads_code heq (hkind ▸ isCode_classify previous text _) ?_ ?_
  · rw [step_word_of (.inl hc), hword]
  · simpa [lastSignificant, htrivia] using hrest

/-- A variable is read in front of a text that ends it. -/
theorem reads_variable {name : String} (hname : IsLabel name.toList)
    (hstop : ∀ x, (textOf ps).head? = some x → isVariablePart x = false)
    (hrest : Reads .code (some ⟨.variable, "$" ++ name⟩) ps) :
    Reads .code previous (.code ⟨.variable, "$" ++ name⟩ :: ps) := by
  obtain ⟨c, cs, heq, hc, hcs⟩ := hname
  have htext : ("$" ++ name).toList = '$' :: c :: cs := by simp [heq]
  refine reads_code htext rfl ?_ hrest
  rw [step_word_of (.inr rfl), word_variable hc hcs hstop]

/-- A bracket or comma is read in front of any text. -/
theorem reads_delimiter (hc : isDelimiter c = true)
    (hrest : Reads .code (some ⟨punctuation c, String.singleton c⟩) ps) :
    Reads .code previous (.code ⟨punctuation c, String.singleton c⟩ :: ps) := by
  refine reads_code (String.toList_singleton c) (isCode_punctuation c) ?_ ?_
  · exact step_delimiter hc previous (textOf ps)
  · have htrivia : (punctuation c).isTrivia = false := by
      unfold punctuation
      split <;> rfl
    simpa [lastSignificant, htrivia] using hrest

end PhpDoc.Lexer
