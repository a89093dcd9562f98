import PhpDoc.Proofs.Token.Cut

/-!
# What a step of the lexer ends with

A rule of the lexer for code never ends between a carriage return and its line feed: white space
apart, what a step takes does not end with a carriage return (`stops_step`). A rule that takes a run
of a class has no carriage return in it at all; comments, strings and heredocs end with their own
closing marks.
-/

namespace PhpDoc

open Text

namespace Lexer

/-- The text does not end with a carriage return. -/
def Stops (cs : List Char) : Prop :=
  cs.getLast? ≠ some '\r'

/-- Whether a text stops is found by its last character. -/
instance (cs : List Char) : Decidable (Stops cs) :=
  inferInstanceAs (Decidable (_ ≠ _))

/-- A text without carriage returns does not end with one. -/
theorem stops_of_not_mem {cs : List Char} (h : '\r' ∉ cs) : Stops cs :=
  fun hlast => h (List.mem_of_getLast? hlast)

/-- What ends with a text that is not empty stops where that text does. -/
theorem stops_append {cs ds : List Char} (hne : ds ≠ []) (hds : Stops ds) : Stops (cs ++ ds) := by
  intro hlast
  rw [List.getLast?_append_of_ne_nil _ hne] at hlast
  exact hds hlast

/-- A run of a class without the carriage return. -/
theorem not_mem_takeWhile {p : Char → Bool} (hp : p '\r' = false) (cs : List Char) :
    '\r' ∉ cs.takeWhile p := by
  intro hmem
  have := List.mem_takeWhile_imp hmem
  rw [hp] at this
  cases this

/-- What a line comment takes is no line break. -/
theorem unbroken_lineComment (cs : List Char) : Unbroken (cs.take (lineCommentWidth cs)) := by
  fun_induction lineCommentWidth cs with
  | case1 => exact unbroken_nil
  | case2 cs => exact unbroken_nil
  | case3 c cs _ hc => exact unbroken_nil
  | case4 c cs _ hc ih =>
      rw [List.take_succ_cons]
      exact unbroken_cons.2 ⟨by simpa using hc, ih⟩

/-- A literal ends with its quote. -/
theorem getLast?_closingQuote {quote : Char} {cs : List Char} {width : Nat}
    (h : closingQuote? quote cs = some width) : (cs.take width).getLast? = some quote := by
  fun_induction closingQuote? quote cs generalizing width with
  | case1 => cases h
  | case2 => cases h
  | case3 c cs ih =>
      obtain ⟨k, hk, rfl⟩ := Option.map_eq_some_iff.1 h
      have hlast := ih hk
      rw [List.take_succ_cons, List.take_succ_cons]
      rw [List.getLast?_cons, List.getLast?_cons, hlast]
      rfl
  | case4 cs =>
      cases h
      rfl
  | case5 c cs _ _ hc ih =>
      obtain ⟨k, hk, rfl⟩ := Option.map_eq_some_iff.1 h
      have hlast := ih hk
      rw [List.take_succ_cons, List.getLast?_cons, hlast]
      rfl

/-- A heredoc ends with its closing label. -/
theorem exists_heredocEnd {label cs : List Char} {lineStart : Bool} {width : Nat}
    (h : heredocEnd? label lineStart cs = some width) :
    ∃ front, cs.take width = front ++ label := by
  have hclosing : ∀ {cs : List Char} {width : Nat}, closingLabel? label cs = some width →
      ∃ front, cs.take width = front ++ label := by
    intro cs width h
    unfold closingLabel? at h
    simp only at h
    split at h
    · next hlabel =>
        cases h
        rw [Bool.and_eq_true] at hlabel
        obtain ⟨rest, hrest⟩ := List.isPrefixOf_iff_prefix.1 hlabel.1
        refine ⟨cs.takeWhile isBlank, ?_⟩
        rw [List.take_add, take_length_takeWhile, ← hrest, List.take_left]
    · cases h
  induction cs generalizing lineStart width with
  | nil =>
      rw [heredocEnd?] at h
      split at h
      · exact hclosing h
      · cases h
  | cons c cs ih =>
      rw [heredocEnd?] at h
      split at h
      · next hfound =>
          cases h
          split at hfound
          · exact hclosing hfound
          · cases hfound
      · obtain ⟨k, hk, rfl⟩ := Option.map_eq_some_iff.1 h
        obtain ⟨front, hfront⟩ := ih hk
        exact ⟨c :: front, by rw [List.take_succ_cons, hfront, List.cons_append]⟩

/-- A heredoc, or the operator that could have opened one, ends with another character than a
carriage return. -/
theorem stops_heredoc {rest : List Char} {s : Step}
    (h : heredoc ('<' :: '<' :: '<' :: rest) rest = .ok s) :
    Stops (('<' :: '<' :: '<' :: rest).take s.width) := by
  unfold heredoc at h
  split at h
  · cases h
    show Stops ['<', '<', '<']
    decide
  · next label width hopener =>
      obtain ⟨hne, hlabel⟩ := opener_spec hopener
      simp only at h
      split at h
      · next stop hstop =>
          cases h
          obtain ⟨front, hfront⟩ := exists_heredocEnd hstop
          have hsplit : ('<' :: '<' :: '<' :: rest).take (3 + width + stop) =
              '<' :: '<' :: '<' :: (rest.take width ++ front) ++ label := by
            rw [show 3 + width + stop = width + stop + 1 + 1 + 1 by omega, List.take_succ_cons,
              List.take_succ_cons, List.take_succ_cons, List.take_add, hfront]
            simp
          rw [take_width, hsplit]
          refine stops_append hne (stops_of_not_mem fun hmem => ?_)
          rcases hlabel _ hmem with hstart | hword
          · exact absurd hstart (by decide)
          · exact absurd hword (by decide)
      · cases h

/-- A variable holds no carriage return. -/
theorem not_mem_variable {cs : List Char} {width : Nat} (h : variableWidth? cs = some width) :
    '\r' ∉ cs.take width := by
  unfold variableWidth? at h
  split at h
  · next c cs =>
      split at h
      · next hstart =>
          cases h
          have hc : c ≠ '\r' := by
            rintro rfl
            exact absurd hstart (by decide)
          rw [Nat.add_comm, List.take_succ_cons, List.take_succ_cons, take_length_takeWhile]
          simpa [hc.symm] using not_mem_takeWhile (by decide) cs
      · cases h
  · cases h

/-- A name holds no carriage return. -/
theorem not_mem_name {cs : List Char} {width : Nat} (h : nameWidth? cs = some width) :
    '\r' ∉ cs.take width := by
  have hpart : isNamePart '\r' = false := by decide
  have hne : ∀ {c : Char}, isNameStart c = true → '\r' ≠ c := by
    rintro c hstart rfl
    exact absurd hstart (by decide)
  unfold nameWidth? at h
  split at h
  · next c cs =>
      split at h
      · next hstart =>
          cases h
          rw [Nat.add_comm, List.take_succ_cons, List.take_succ_cons, take_length_takeWhile]
          simpa [hne hstart] using not_mem_takeWhile hpart cs
      · cases h
  · next c cs _ =>
      split at h
      · next hstart =>
          cases h
          rw [Nat.add_comm, List.take_succ_cons, take_length_takeWhile]
          simpa [hne hstart] using not_mem_takeWhile hpart cs
      · cases h
  · cases h

/-- The fraction of a number holds no carriage return. -/
theorem not_mem_fraction (cs : List Char) : '\r' ∉ cs.take (fractionWidth cs) := by
  unfold fractionWidth
  split
  · next d cs =>
      split
      · next hdecimal =>
          have hd : '\r' ≠ d := by
            rintro rfl
            exact absurd hdecimal (by decide)
          rw [Nat.add_comm, List.take_succ_cons, List.take_succ_cons, take_length_takeWhile]
          simpa [hd] using not_mem_takeWhile (by decide) cs
      · simp
  · simp

/-- An exponent whose sign is known takes the sign and the digits behind it, or nothing. -/
theorem exponentWidth_of_sign {e : Char} (sign rest : List Char)
    (h : exponentWidth (e :: (sign ++ rest)) = if e = 'e' || e = 'E' then
        match rest.takeWhile isDecimal with
        | [] => 0
        | digits => 1 + sign.length + digits.length
      else 0) :
    exponentWidth (e :: (sign ++ rest)) = 0 ∨ (e = 'e' ∨ e = 'E') ∧
      exponentWidth (e :: (sign ++ rest)) =
        1 + sign.length + (rest.takeWhile isDecimal).length := by
  split at h
  · next he =>
      split at h
      · exact .inl h
      · exact .inr ⟨by simpa using he, h⟩
  · exact .inl h

/-- The exponent of a number is a letter, a sign and digits, or it is missing. -/
theorem exponentWidth_cons (e : Char) (cs : List Char) :
    ∃ sign rest, cs = sign ++ rest ∧ '\r' ∉ sign ∧
      (exponentWidth (e :: cs) = 0 ∨ (e = 'e' ∨ e = 'E') ∧
        exponentWidth (e :: cs) = 1 + sign.length + (rest.takeWhile isDecimal).length) := by
  cases cs with
  | nil => exact ⟨[], [], rfl, by simp, exponentWidth_of_sign [] [] rfl⟩
  | cons d rest =>
      by_cases hplus : d = '+'
      · subst hplus
        exact ⟨['+'], rest, rfl, by decide, exponentWidth_of_sign ['+'] rest rfl⟩
      · by_cases hminus : d = '-'
        · subst hminus
          exact ⟨['-'], rest, rfl, by decide, exponentWidth_of_sign ['-'] rest rfl⟩
        · refine ⟨[], d :: rest, rfl, by simp, exponentWidth_of_sign [] (d :: rest) ?_⟩
          rw [List.nil_append, exponentWidth]
          · rfl
          · rintro tail heq
            exact hplus (List.cons.inj heq).1
          · rintro tail heq
            exact hminus (List.cons.inj heq).1

/-- The exponent of a number holds no carriage return. -/
theorem not_mem_exponent (cs : List Char) : '\r' ∉ cs.take (exponentWidth cs) := by
  cases cs with
  | nil => simp
  | cons e cs =>
      obtain ⟨sign, rest, rfl, hsign, h | ⟨he, h⟩⟩ := exponentWidth_cons e cs
      · simp [h]
      · have he' : '\r' ≠ e := by
          rintro rfl
          simp at he
        rw [h, Nat.add_assoc, Nat.add_comm, List.take_succ_cons, List.take_add, List.take_left,
          List.drop_left, take_length_takeWhile]
        simpa [he', hsign] using not_mem_takeWhile (by decide) rest

/-- A number with a base holds no carriage return. -/
theorem not_mem_based {cs : List Char} {width : Nat} (h : basedWidth? cs = some width) :
    '\r' ∉ cs.take width := by
  unfold basedWidth? at h
  split at h
  · next base cs =>
      simp only at h
      split at h
      · cases h
      · next hdigits =>
          cases h
          have hbase : '\r' ≠ base := by
            rintro rfl
            exact hdigits (by simp)
          rw [Nat.add_comm, List.take_succ_cons, List.take_succ_cons, take_length_takeWhile]
          rw [List.mem_cons, List.mem_cons, not_or, not_or]
          refine ⟨by decide, hbase, not_mem_takeWhile ?_ cs⟩
          split
          · decide
          · split
            · decide
            · rfl
  · cases h

/-- A decimal number holds no carriage return. -/
theorem not_mem_decimal {cs : List Char} {width : Nat} (h : decimalWidth? cs = some width) :
    '\r' ∉ cs.take width := by
  unfold decimalWidth? at h
  split at h
  · next d cs =>
      split at h
      · next hd =>
          cases h
          have hd' : '\r' ≠ d := by
            rintro rfl
            exact absurd hd (by decide)
          rw [List.take_add, List.take_add, List.mem_append, List.mem_append, not_or, not_or]
          refine ⟨⟨?_, not_mem_fraction _⟩, not_mem_exponent _⟩
          rw [Nat.add_comm, List.take_succ_cons, take_length_takeWhile]
          simpa [hd'] using not_mem_takeWhile (by decide) cs
      · cases h
  · cases h

/-- A number that starts with its point holds no carriage return. -/
theorem not_mem_point {cs : List Char} {width : Nat} (h : pointWidth? cs = some width) :
    '\r' ∉ cs.take width := by
  unfold pointWidth? at h
  split at h
  · next cs =>
      split at h
      · cases h
      · cases h
        rw [Nat.add_comm, List.take_succ_cons, take_length_takeWhile]
        simpa using not_mem_takeWhile (by decide) cs
  · cases h

/-- A number holds no carriage return. -/
theorem not_mem_number {cs : List Char} {width : Nat} (h : numberWidth? cs = some width) :
    '\r' ∉ cs.take width := by
  unfold numberWidth? at h
  rcases Option.or_eq_some_iff.1 h with h | ⟨-, h⟩
  · exact not_mem_based h
  · rcases Option.or_eq_some_iff.1 h with h | ⟨-, h⟩
    · exact not_mem_decimal h
    · exact not_mem_point h

/-- A comment ends with its close marker. -/
theorem stops_close {lead rest : List Char} {offset : Nat}
    (h : offsetOf? ['*', '/'] rest = some offset) :
    Stops ((lead ++ rest).take (lead.length + (offset + 2))) := by
  obtain ⟨tail, htail⟩ := offsetOf?_eq_some h
  have hlen : (rest.take offset).length = offset := by
    have := congrArg List.length htail
    simp only [List.length_append, List.length_take, List.length_cons, List.length_nil] at this
    simp only [List.length_take]
    omega
  have htake : (rest.drop offset).take 2 = ['*', '/'] := by
    conv => lhs; rw [htail, List.drop_append_of_le_length (by omega)]
    simp
  rw [List.take_add, List.take_left, List.drop_left, List.take_add, htake]
  exact stops_append (by simp) (stops_append (by simp) (by decide))

/-- A word that does not start with a carriage return does not end with one. -/
theorem stops_word {previous : Option Lexeme} {c : Char} (hc : c ≠ '\r') (rest : List Char) :
    Stops ((c :: rest).take (word previous c rest).width) := by
  unfold word
  simp only
  split
  · next h => exact stops_of_not_mem (not_mem_variable h)
  · next h => exact stops_of_not_mem (not_mem_name h)
  · next h => exact stops_of_not_mem (not_mem_number h)
  · unfold operator
    split
    · next op hop =>
        have hno : ∀ op ∈ operators, '\r' ∉ op.toList := by decide
        have hfound : startsWith op (c :: rest) = true := by simpa using List.find?_some hop
        obtain ⟨tail, htail⟩ := startsWith_eq_true.1 hfound
        rw [take_width, htail, ← String.length_toList, List.take_left]
        exact stops_of_not_mem (hno op (List.mem_of_find?_eq_some hop))
    · rw [take_width]
      simpa [Stops] using hc

/-- What a step takes ends with a carriage return only when it is white space. -/
theorem stops_step {previous : Option Lexeme} {c : Char} {rest : List Char} {s : Step}
    (h : step previous c rest = .ok s) (hspace : isCodeSpace c = false) :
    Stops ((c :: rest).take s.width) := by
  have hc : c ≠ '\r' := by
    rintro rfl
    exact absurd hspace (by decide)
  -- the branches of the lexer in order: close tag, doc comment, block comment, line comment,
  -- attribute mark, quoted literal, heredoc, word
  unfold step at h
  simp only [hspace] at h
  split at h
  · next htag =>
      cases h
      obtain ⟨tail, htail⟩ := startsWith_eq_true.1 htag
      rw [htail]
      show Stops ['?', '>']
      decide
  rw [if_neg (by decide)] at h
  split at h
  · next hdoc =>
      rw [Bool.and_eq_true] at hdoc
      obtain ⟨tail, htail⟩ := startsWith_eq_true.1 hdoc.1
      obtain ⟨rfl, rfl⟩ : c = '/' ∧ rest = '*' :: '*' :: tail := by simpa using htail
      unfold docStep at h
      split at h
      · next offset hoffset =>
          cases h
          have := @stops_close ['/', '*', '*'] _ _ hoffset
          rwa [show ['/', '*', '*'].length + (offset + 2) = offset + 5 by simp; omega] at this
      · cases h
  split at h
  · next hblock =>
      obtain ⟨tail, htail⟩ := startsWith_eq_true.1 hblock
      obtain ⟨rfl, rfl⟩ : c = '/' ∧ rest = '*' :: tail := by simpa using htail
      unfold blockStep at h
      split at h
      · next offset hoffset =>
          cases h
          have := @stops_close ['/', '*'] _ _ hoffset
          rwa [show ['/', '*'].length + (offset + 2) = offset + 4 by simp; omega] at this
      · cases h
  split at h
  · cases h
    refine stops_of_not_mem fun hmem => ?_
    have := unbroken_lineComment (c :: rest) _ hmem
    simp [isLineBreak] at this
  split at h
  · cases h
    simpa [Stops] using hc
  split at h
  · next hquote =>
      split at h
      · next width hclosed =>
          cases h
          have hlast := getLast?_closingQuote hclosed
          rw [take_width, List.take_succ_cons]
          intro hreturn
          rw [List.getLast?_cons, hlast] at hreturn
          exact hc (by simpa using hreturn)
      · cases h
  split at h
  · next hheredoc =>
      obtain ⟨tail, htail⟩ := startsWith_eq_true.1 hheredoc
      obtain ⟨rfl, rfl⟩ : c = '<' ∧ rest = '<' :: '<' :: tail := by simpa using htail
      exact stops_heredoc h
  · cases h
    exact stops_word hc rest

end Lexer

end PhpDoc
