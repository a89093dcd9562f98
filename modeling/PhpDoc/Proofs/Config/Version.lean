import PhpDoc.Config.Version
import PhpDoc.Proofs.Text.Join
import PhpDoc.Proofs.Text.Lines

/-!
# Reading versions

A version is packed or dotted, and a text that is neither is no version (`parts_eq_malformed_iff`).
A text that looks like a version is not always one: among the digit characters that make a text
packed there are some without a place in a decimal number, and a number that is too long is not
read at all. `parts_eq_unreadable_iff` says of exactly which texts that is true, and
`parts_eq_ok_iff` what is read from the others.
-/

namespace PhpDoc.Version

open Text

variable {text : String} {cs digits major : List Char} {rest : List (List Char)}

/-! ## Numbers -/

/-- The number that decimal digits write. -/
def value (digits : List Char) : Nat :=
  digits.foldl (fun n c => n * 10 + (decimalValue? c).getD 0) 0

/-- The digits can be read as a number: they are decimal digits, and not too many. -/
def Legible (digits : List Char) : Prop :=
  digits.length ≤ maxDigits ∧ ∀ c ∈ digits, isDecimal c = true

/-- Whether digits are legible is found by counting and looking at them. -/
instance (digits : List Char) : Decidable (Legible digits) :=
  inferInstanceAs (Decidable (_ ∧ _))

/-- The values of digits are those of decimal digits. -/
theorem mapM_decimalValue? (h : ∀ c ∈ digits, isDecimal c = true) :
    digits.mapM decimalValue? = some (digits.map fun c => (decimalValue? c).getD 0) := by
  induction digits with
  | nil => rfl
  | cons c digits ih =>
      obtain ⟨hc, hdigits⟩ := List.forall_mem_cons.1 h
      obtain ⟨d, hd⟩ := Option.isSome_iff_exists.1 hc
      rw [List.mapM_cons, ih hdigits, List.map_cons, hd]
      rfl

/-- A single character that is no decimal digit leaves the digits without values. -/
theorem mapM_decimalValue?_eq_none {c : Char} (hc : c ∈ digits) (h : isDecimal c = false) :
    digits.mapM decimalValue? = none := by
  induction digits with
  | nil => cases hc
  | cons d digits ih =>
      rw [List.mapM_cons]
      rcases List.mem_cons.1 hc with rfl | hc
      · rw [isDecimal, Option.isSome_eq_false_iff, Option.isNone_iff_eq_none] at h
        rw [h]
        rfl
      · rw [ih hc]
        cases decimalValue? d <;> rfl

/-- Legible digits are read as the number that they write. -/
theorem number?_of_legible (h : Legible digits) : number? digits = some (value digits) := by
  rw [number?, if_neg (Nat.not_lt.2 h.1), mapM_decimalValue? h.2, Option.map_some, List.foldl_map,
    value]

/-- Digits that are not legible are no number. -/
theorem number?_of_not_legible (h : ¬ Legible digits) : number? digits = none := by
  unfold number?
  split
  · rfl
  · next hlength =>
      rw [Legible, not_and, Classical.not_forall] at h
      obtain ⟨c, hc⟩ := h (Nat.not_lt.1 hlength)
      obtain ⟨hmem, hdecimal⟩ := Classical.not_imp.1 hc
      rw [mapM_decimalValue?_eq_none hmem (Bool.eq_false_iff.2 hdecimal), Option.map_none]

/-! ## The two forms -/

/-- The text is one number of at least five digit characters. -/
def Packed (cs : List Char) : Prop :=
  5 ≤ cs.length ∧ ∀ c ∈ cs, isDigit c = true

/-- Whether a text is packed is found by counting and looking at its characters. -/
instance (cs : List Char) : Decidable (Packed cs) :=
  inferInstanceAs (Decidable (_ ∧ _))

/-- The text is a run of decimal digits, with up to two further ones behind dots. -/
structure Dotted (cs major : List Char) (rest : List (List Char)) : Prop where
  text : cs = major ++ rest.flatMap ('.' :: ·)
  length : rest.length ≤ 2
  decimal : ∀ run ∈ major :: rest, run ≠ [] ∧ ∀ c ∈ run, isDecimal c = true

/-- The dotted form is read run by run. -/
theorem dotted?_eq_some_iff {runs : List (List Char)} :
    dotted? cs = some runs ↔ ∃ major rest, runs = major :: rest ∧ Dotted cs major rest := by
  obtain ⟨major, rest, hsplit⟩ := List.exists_cons_of_ne_nil (splitOn_ne_nil '.' cs)
  unfold dotted?
  simp only [hsplit]
  constructor
  · intro h
    split at h
    · next hform =>
        cases h
        simp only [Bool.and_eq_true, decide_eq_true_eq, List.all_eq_true, Bool.not_eq_true',
          List.isEmpty_eq_false_iff] at hform
        exact ⟨major, rest, rfl, eq_of_splitOn hsplit, Nat.le_of_succ_le_succ hform.1, hform.2⟩
    · cases h
  · rintro ⟨other, others, rfl, htext, hlength, hdecimal⟩
    have hclear : ∀ run ∈ other :: others, '.' ∉ run := fun run hrun hmem => by
      have := (hdecimal run hrun).2 '.' hmem
      revert this
      decide
    rw [htext, splitOn_flatMap hclear] at hsplit
    cases hsplit
    rw [if_pos]
    simp only [Bool.and_eq_true, decide_eq_true_eq, List.all_eq_true, Bool.not_eq_true',
      List.isEmpty_eq_false_iff]
    exact ⟨Nat.succ_le_succ hlength, hdecimal⟩

/-- The run that gives the minor part, a zero where there is none. -/
def minorRun (rest : List (List Char)) : List Char :=
  rest.headD ['0']

/-- The minor part of a dotted text is written in decimal digits. -/
theorem Dotted.decimal_minorRun (h : Dotted cs major rest) :
    ∀ c ∈ minorRun rest, isDecimal c = true := by
  cases rest with
  | nil => decide
  | cons minor rest => exact (h.decimal minor (by simp)).2

/-! ## Reading a text -/

/-- The text of a version without the white space around it. -/
def body (text : String) : List Char :=
  trim isSpace text.toList

/-- A packed text is unpacked if its number can be read. -/
theorem parts_of_packed (h : Packed (body text)) : parts text =
    if Legible (body text) then .ok (unpack (value (body text))) else .error .unreadable := by
  have hpacked : (5 ≤ (body text).length && (body text).all isDigit) = true := by
    simpa [Packed] using h
  have hread : parts text = ((number? (body text)).map unpack).elim (.error .unreadable) .ok :=
    if_pos hpacked
  rw [hread]
  split
  · next hlegible =>
      rw [number?_of_legible hlegible]
      rfl
  · next hlegible =>
      rw [number?_of_not_legible hlegible]
      rfl

/-- A text that is not packed is read in its dotted form. -/
theorem parts_of_not_packed (h : ¬ Packed (body text)) : parts text =
    match dotted? (body text) with
    | none => .error (.malformed text)
    | some [] => .error (.malformed text)
    | some (major :: rest) =>
        match number? major, number? (minorRun rest) with
        | some a, some b => .ok (a, b)
        | _, _ => .error .unreadable := by
  have hpacked : ¬ (5 ≤ (body text).length && (body text).all isDigit) = true := by
    simpa [Packed] using h
  exact if_neg hpacked

/-- A dotted text is read run by run if its major and its minor run can be read. -/
theorem parts_of_dotted (h : ¬ Packed (body text)) (hdotted : Dotted (body text) major rest) :
    parts text =
      if Legible major ∧ Legible (minorRun rest) then .ok (value major, value (minorRun rest))
      else .error .unreadable := by
  rw [parts_of_not_packed h, dotted?_eq_some_iff.2 ⟨major, rest, rfl, hdotted⟩]
  simp only
  by_cases hmajor : Legible major
  · rw [number?_of_legible hmajor]
    by_cases hminor : Legible (minorRun rest)
    · rw [number?_of_legible hminor, if_pos ⟨hmajor, hminor⟩]
    · rw [number?_of_not_legible hminor, if_neg fun hboth => hminor hboth.2]
  · rw [number?_of_not_legible hmajor, if_neg fun hboth => hmajor hboth.1]

/-- A text in neither form is refused as no version. -/
theorem parts_of_neither (h : ¬ Packed (body text))
    (hdotted : ∀ major rest, ¬ Dotted (body text) major rest) :
    parts text = .error (.malformed text) := by
  have hnone : dotted? (body text) = none := by
    refine Option.eq_none_iff_forall_ne_some.2 fun runs hruns => ?_
    obtain ⟨major, rest, -, hform⟩ := dotted?_eq_some_iff.1 hruns
    exact hdotted major rest hform
  rw [parts_of_not_packed h, hnone]

/-! ## What comes of a text -/

/-- The text spells the version: it is packed or dotted, and its numbers can be read. -/
inductive Spells (cs : List Char) : Nat → Nat → Prop
  | packed : Packed cs → Legible cs → Spells cs (value cs / 10000) (value cs / 100 % 100)
  | dotted {major : List Char} {rest : List (List Char)} : ¬ Packed cs → Dotted cs major rest →
      Legible major → Legible (minorRun rest) → Spells cs (value major) (value (minorRun rest))

/-- The text has the form of a version, and a number of it cannot be read: a packed version has a
digit character that is no decimal digit, or there are too many digits. -/
inductive Unreadable (cs : List Char) : Prop
  | packed : Packed cs → (maxDigits < cs.length ∨ ∃ c ∈ cs, isDecimal c = false) → Unreadable cs
  | dotted {major : List Char} {rest : List (List Char)} : ¬ Packed cs → Dotted cs major rest →
      (maxDigits < major.length ∨ maxDigits < (minorRun rest).length) → Unreadable cs

/-- Digits are not legible when there are too many, or when one of them is no decimal digit. -/
theorem not_legible_iff : ¬ Legible digits ↔
    maxDigits < digits.length ∨ ∃ c ∈ digits, isDecimal c = false := by
  simp only [Legible, Classical.not_and_iff_not_or_not, Nat.not_le, Classical.not_forall,
    exists_prop, Bool.not_eq_true]

/-- Decimal digits cannot be read only when there are too many. -/
theorem not_legible_of_decimal (h : ∀ c ∈ digits, isDecimal c = true) :
    ¬ Legible digits ↔ maxDigits < digits.length := by
  rw [Legible, and_iff_left h, Nat.not_le]

/-- A text is read as the version that it spells. -/
theorem Spells.parts_eq {a b : Nat} (h : Spells (body text) a b) : parts text = .ok (a, b) := by
  cases h with
  | packed hpacked hlegible =>
      rw [parts_of_packed hpacked, if_pos hlegible]
      rfl
  | dotted hpacked hdotted hmajor hminor =>
      rw [parts_of_dotted hpacked hdotted, if_pos ⟨hmajor, hminor⟩]

/-- A text with numbers that cannot be read is refused for them. -/
theorem Unreadable.parts_eq (h : Unreadable (body text)) : parts text = .error .unreadable := by
  cases h with
  | packed hpacked hlegible => rw [parts_of_packed hpacked, if_neg (not_legible_iff.2 hlegible)]
  | @dotted major rest hpacked hdotted hlong =>
      rw [parts_of_dotted hpacked hdotted, if_neg]
      rintro ⟨hmajor, hminor⟩
      rcases hlong with hlong | hlong
      · exact (not_legible_of_decimal (hdotted.decimal major (by simp)).2).2 hlong hmajor
      · exact (not_legible_of_decimal hdotted.decimal_minorRun).2 hlong hminor

/-- A text spells a version, has numbers that cannot be read, or has neither form. -/
theorem spells_or_unreadable_or_neither (cs : List Char) :
    (∃ a b, Spells cs a b) ∨ Unreadable cs ∨
      ¬ Packed cs ∧ ∀ major rest, ¬ Dotted cs major rest := by
  by_cases hpacked : Packed cs
  · by_cases hlegible : Legible cs
    · exact .inl ⟨_, _, .packed hpacked hlegible⟩
    · exact .inr (.inl (.packed hpacked (not_legible_iff.1 hlegible)))
  · by_cases hform : ∃ major rest, Dotted cs major rest
    · obtain ⟨major, rest, hdotted⟩ := hform
      by_cases hlegible : Legible major ∧ Legible (minorRun rest)
      · exact .inl ⟨_, _, .dotted hpacked hdotted hlegible.1 hlegible.2⟩
      · rw [Classical.not_and_iff_not_or_not] at hlegible
        refine .inr (.inl (.dotted hpacked hdotted ?_))
        exact hlegible.imp (not_legible_of_decimal (hdotted.decimal major (by simp)).2).1
          (not_legible_of_decimal hdotted.decimal_minorRun).1
    · exact .inr (.inr ⟨hpacked, fun major rest hdotted => hform ⟨major, rest, hdotted⟩⟩)

/-- A text is read as the version that it spells, and no other text is read. -/
theorem parts_eq_ok_iff {a b : Nat} : parts text = .ok (a, b) ↔ Spells (body text) a b := by
  refine ⟨fun h => ?_, Spells.parts_eq⟩
  rcases spells_or_unreadable_or_neither (body text) with ⟨c, d, hspells⟩ | hunreadable | hneither
  · rw [hspells.parts_eq] at h
    cases h
    exact hspells
  · rw [hunreadable.parts_eq] at h
    cases h
  · rw [parts_of_neither hneither.1 hneither.2] at h
    cases h

/-- The numbers of a text cannot be read exactly when it has the form of a version with such
numbers. -/
theorem parts_eq_unreadable_iff : parts text = .error .unreadable ↔ Unreadable (body text) := by
  refine ⟨fun h => ?_, Unreadable.parts_eq⟩
  rcases spells_or_unreadable_or_neither (body text) with ⟨c, d, hspells⟩ | hunreadable | hneither
  · rw [hspells.parts_eq] at h
    cases h
  · exact hunreadable
  · rw [parts_of_neither hneither.1 hneither.2] at h
    cases h

/-- Five superscripts look like a packed version and are no number. -/
example : Unreadable (body "²²²²²") :=
  .packed (by decide +kernel) (.inr ⟨'²', by decide +kernel, by decide +kernel⟩)

/-- A text is refused as no version exactly when it has neither form. -/
theorem parts_eq_malformed_iff {found : String} : parts text = .error (.malformed found) ↔
    found = text ∧ ¬ Packed (body text) ∧ ∀ major rest, ¬ Dotted (body text) major rest := by
  constructor
  · intro h
    rcases spells_or_unreadable_or_neither (body text) with ⟨c, d, hspells⟩ | hunreadable | hneither
    · rw [hspells.parts_eq] at h
      cases h
    · rw [hunreadable.parts_eq] at h
      cases h
    · rw [parts_of_neither hneither.1 hneither.2] at h
      cases h
      exact ⟨rfl, hneither⟩
  · rintro ⟨rfl, hpacked, hneither⟩
    exact parts_of_neither hpacked hneither

/-- A version that was read keeps the text from which it was read. -/
theorem text_of_parse {v : Version} (h : parse text = .ok v) : v.text = text := by
  unfold parse at h
  cases hparts : parts text with
  | error e =>
      rw [hparts] at h
      cases h
  | ok found =>
      rw [hparts] at h
      cases h
      rfl

/-- A version can be read again from its text. -/
theorem parse_text {v : Version} (h : parse text = .ok v) : parse v.text = .ok v := by
  rw [text_of_parse h, h]

/-- A version is refused for its numbers exactly when its text is unreadable. -/
theorem parse_eq_unreadable_iff : parse text = .error .unreadable ↔ Unreadable (body text) := by
  rw [← parts_eq_unreadable_iff, parse]
  cases parts text with
  | ok found => exact iff_of_false nofun nofun
  | error e => simp only [Except.map, Except.error.injEq]

end PhpDoc.Version
