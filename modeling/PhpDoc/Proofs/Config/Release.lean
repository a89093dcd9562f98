import PhpDoc.Config.Basic
import PhpDoc.Proofs.Config.Version
import PhpDoc.Proofs.Text.Digit
import Mathlib.Data.List.Basic

/-!
# Spellings of one release

The version of a release is written with dots, or packed into one number with two places each for
the minor part and the patch. Both spellings are read as the same version, also with white space
around them (`Release.parts_packed`, `Release.parts_dotted`): the one as a whole, by division and
remainder, the other run by run. So what depends on the version does not depend on its spelling,
and scalar types that can be declared in one release can be declared in all later ones
(`releases_agree`).
-/

namespace PhpDoc

namespace Text

/-- The text is the given one with white space around it. -/
def Surrounds (text body : String) : Prop :=
  ∃ front back : List Char, (∀ c ∈ front, isSpace c = true) ∧ (∀ c ∈ back, isSpace c = true) ∧
    text.toList = front ++ body.toList ++ back

/-- Trimming takes the white space off again, and nothing of a text that has none. -/
theorem Surrounds.trim_eq {text body : String} (h : Surrounds text body)
    (hbody : ∀ c ∈ body.toList, isSpace c = false) : trim isSpace text.toList = body.toList := by
  obtain ⟨front, back, hfront, hback, htext⟩ := h
  have hdrop : text.toList.dropWhile isSpace = (body.toList ++ back).dropWhile isSpace := by
    rw [htext, List.append_assoc, List.dropWhile_append_of_pos hfront]
  rw [trim, hdrop]
  cases hchars : body.toList with
  | nil =>
      have hnone : back.dropWhile isSpace = [] := List.dropWhile_eq_nil_iff.2 hback
      rw [List.nil_append, hnone]
      rfl
  | cons c cs =>
      have hc : isSpace c = false := hbody c (by simp [hchars])
      rw [List.cons_append, List.dropWhile_cons_of_neg (by simp [hc]), ← List.cons_append,
        trimEnd_append hback]
      refine trimEnd_eq_self fun d hd => hbody d ?_
      rw [hchars]
      exact List.mem_of_getLast? hd

end Text

namespace Version

open Text

variable {n : Nat}

/-! ## Decimal texts of numbers -/

/-- The text of a number is read as the number. -/
theorem value_toString (n : Nat) : value (toString n).toList = n := by
  have hstep : value (toString n).toList = Nat.ofDigitChars 10 (toString n).toList 0 := by
    refine List.foldl_ext _ _ _ fun read c hc => ?_
    rw [decimalValue?_of_isDigit (isDigit_of_mem_toString hc), Option.getD_some, Nat.mul_comm]
  rw [hstep, ofDigitChars_toString]

/-- The text of a number can be read when it has not too many digits. -/
theorem legible_toString_iff : Legible (toString n).toList ↔ n < 10 ^ maxDigits := by
  rw [Legible, length_toString_le_iff (by decide)]
  exact and_iff_left fun c hc => isDecimal_of_mem_toString hc

/-! ## Releases -/

/-- A release with two places each for the minor part and the patch. -/
structure Release where
  major : Nat
  minor : Nat
  patch : Nat
  one_le_major : 1 ≤ major
  minor_lt : minor < 100
  patch_lt : patch < 100

namespace Release

variable {r s : Release} {text : String}

/-- The number into which the release is packed. -/
def packed (r : Release) : Nat :=
  10000 * r.major + 100 * r.minor + r.patch

/-- The release packed into one number. -/
def packedText (r : Release) : String :=
  toString r.packed

/-- The release with dots. -/
def dottedText (r : Release) : String :=
  toString r.major ++ "." ++ toString r.minor ++ "." ++ toString r.patch

/-- The text is one of the spellings of the release, maybe with white space around it. -/
def Spelled (r : Release) (text : String) : Prop :=
  Surrounds text r.packedText ∨ Surrounds text r.dottedText

/-- The release comes before the other one, or differs from it in the patch only. -/
def Before (r s : Release) : Prop :=
  r.major < s.major ∨ r.major = s.major ∧ r.minor ≤ s.minor

/-- The parts of a release can be taken out of the packed number again. -/
theorem unpack_packed (r : Release) : unpack r.packed = (r.major, r.minor) := by
  have hminor := r.minor_lt
  have hpatch := r.patch_lt
  have hmajor : r.packed / 10000 = r.major := by
    rw [packed]
    omega
  have hrest : r.packed / 100 % 100 = r.minor := by
    rw [packed]
    omega
  rw [unpack, hmajor, hrest]

/-- A release packed into a number has at least five digits. -/
theorem packed_packedText (r : Release) : Packed r.packedText.toList := by
  constructor
  · have hlong : ¬ r.packedText.toList.length ≤ 4 := by
      have hmajor := r.one_le_major
      rw [packedText, length_toString_le_iff (by decide), packed]
      omega
    omega
  · intro c hc
    rw [isDigit, isDecimal_of_mem_toString hc, Bool.true_or]

/-- A packed release is read as its parts. -/
theorem parts_packed (hlegible : Legible r.packedText.toList)
    (htext : Surrounds text r.packedText) : parts text = .ok (r.major, r.minor) := by
  have hbody : body text = r.packedText.toList :=
    htext.trim_eq fun c hc => isSpace_of_isDigit (isDigit_of_mem_toString hc)
  have hpacked : Packed (body text) := by
    rw [hbody]
    exact r.packed_packedText
  rw [parts_of_packed hpacked, hbody, if_pos hlegible, packedText, value_toString, unpack_packed]

/-- The dotted text of a release is its three numbers with dots between them. -/
theorem toList_dottedText (r : Release) : r.dottedText.toList =
    (toString r.major).toList ++
      [(toString r.minor).toList, (toString r.patch).toList].flatMap ('.' :: ·) := by
  simp [dottedText]

/-- The dotted text of a release holds dots and common digits only. -/
theorem mem_dottedText {c : Char} (h : c ∈ r.dottedText.toList) : c = '.' ∨ c.isDigit = true := by
  rw [toList_dottedText] at h
  simp only [List.flatMap_cons, List.flatMap_nil, List.append_nil, List.mem_append,
    List.mem_cons] at h
  obtain h | (h | h) | h | h := h
  · exact .inr (isDigit_of_mem_toString h)
  · exact .inl h
  · exact .inr (isDigit_of_mem_toString h)
  · exact .inl h
  · exact .inr (isDigit_of_mem_toString h)

/-- A release with dots consists of the texts of its three numbers. -/
theorem dotted_dottedText (r : Release) : Dotted r.dottedText.toList (toString r.major).toList
    [(toString r.minor).toList, (toString r.patch).toList] where
  text := r.toList_dottedText
  length := Nat.le_refl 2
  decimal := by
    intro run hrun
    simp only [List.mem_cons, List.not_mem_nil, or_false] at hrun
    obtain rfl | rfl | rfl := hrun
    all_goals exact ⟨toList_toString_ne_nil _, fun c hc => isDecimal_of_mem_toString hc⟩

/-- The dotted text of a release is not packed, because a dot is no digit. -/
theorem not_packed_dottedText (r : Release) : ¬ Packed r.dottedText.toList := by
  intro hpacked
  have hdot : '.' ∈ r.dottedText.toList := by simp [dottedText]
  have hdigit := hpacked.2 '.' hdot
  revert hdigit
  decide +kernel

/-- A release with dots is read as its parts. -/
theorem parts_dotted (hlegible : Legible (toString r.major).toList)
    (htext : Surrounds text r.dottedText) : parts text = .ok (r.major, r.minor) := by
  have hbody : body text = r.dottedText.toList := by
    refine htext.trim_eq fun c hc => ?_
    obtain rfl | hdigit := mem_dottedText hc
    · decide +kernel
    · exact isSpace_of_isDigit hdigit
  have hpacked : ¬ Packed (body text) := by
    rw [hbody]
    exact r.not_packed_dottedText
  have hdotted : Dotted (body text) (toString r.major).toList
      [(toString r.minor).toList, (toString r.patch).toList] := by
    rw [hbody]
    exact r.dotted_dottedText
  have hminor : Legible (minorRun [(toString r.minor).toList, (toString r.patch).toList]) := by
    have htwo : 10 ^ 2 ≤ 10 ^ maxDigits := Nat.pow_le_pow_right (by decide) (by decide)
    exact legible_toString_iff.2 (Nat.lt_of_lt_of_le r.minor_lt htwo)
  rw [parts_of_dotted hpacked hdotted, if_pos ⟨hlegible, hminor⟩, value_toString]
  exact congrArg (fun minor => Except.ok (r.major, minor)) (value_toString r.minor)

/-- The major part has fewer digits than the packed number. -/
theorem legible_major (h : Legible r.packedText.toList) : Legible (toString r.major).toList := by
  have hle : r.major ≤ r.packed := by
    rw [packed]
    omega
  exact legible_toString_iff.2 (Nat.lt_of_le_of_lt hle (legible_toString_iff.1 h))

/-- Every spelling of a release is read as its parts. -/
theorem Spelled.parts_eq (h : r.Spelled text) (hlegible : Legible r.packedText.toList) :
    parts text = .ok (r.major, r.minor) := by
  obtain h | h := h
  · exact parts_packed hlegible h
  · exact parts_dotted (legible_major hlegible) h

/-- Scalar types can be declared since 7.0, however the release is spelled. -/
theorem Spelled.scalarHints_eq (h : r.Spelled text) (hlegible : Legible r.packedText.toList)
    {c : Config} (hc : parse text = .ok c.version) : c.scalarHints = decide (7 ≤ r.major) := by
  rw [parse, h.parts_eq hlegible] at hc
  have hversion : ⟨text, r.major, r.minor⟩ = c.version := Except.ok.inj hc
  rw [Config.scalarHints, ← hversion, atLeast, Bool.eq_iff_iff]
  simp only [Nat.zero_le, decide_true, Bool.and_true, Bool.or_eq_true, decide_eq_true_eq,
    beq_iff_eq]
  omega

end Release

/-- Packed and dotted versions agree: for every release whose digits can be read, both spellings are
read as its major and minor part, with or without white space around them. So configurations with
either spelling have scalar types or not alike, and one for a later release has them if one for an
earlier release has them. -/
theorem releases_agree (r : Release) (hlegible : Legible r.packedText.toList)
    {packed dotted : String} (hpacked : Surrounds packed r.packedText)
    (hdotted : Surrounds dotted r.dottedText) :
    parts packed = parts dotted ∧ parts packed = .ok (r.major, r.minor) ∧
      (∀ c d : Config, parse packed = .ok c.version → parse dotted = .ok d.version →
        c.scalarHints = d.scalarHints) ∧
      ∀ s : Release, Legible s.packedText.toList → r.Before s → ∀ earlier later : String,
        r.Spelled earlier → s.Spelled later → ∀ c d : Config, parse earlier = .ok c.version →
          parse later = .ok d.version → c.scalarHints = true → d.scalarHints = true := by
  have hfirst : r.Spelled packed := .inl hpacked
  have hsecond : r.Spelled dotted := .inr hdotted
  refine ⟨?_, hfirst.parts_eq hlegible, ?_, ?_⟩
  · rw [hfirst.parts_eq hlegible, hsecond.parts_eq hlegible]
  · intro c d hc hd
    rw [hfirst.scalarHints_eq hlegible hc, hsecond.scalarHints_eq hlegible hd]
  · intro s hs hbefore earlier later hearlier hlater c d hc hd hhints
    rw [hearlier.scalarHints_eq hlegible hc, decide_eq_true_eq] at hhints
    rw [hlater.scalarHints_eq hs hd, decide_eq_true_eq]
    have hle : r.major ≤ s.major := by
      obtain hlt | heq := hbefore
      · exact Nat.le_of_lt hlt
      · exact Nat.le_of_eq heq.1
    exact Nat.le_trans hhints hle

/-- The release 7.4.3. -/
def Release.sevenFour : Release := ⟨7, 4, 3, by decide, by decide, by decide⟩

/-- The release 8.0.0. -/
def Release.eight : Release := ⟨8, 0, 0, by decide, by decide, by decide⟩

/-- The release 7.4.3 in both spellings, with white space around them, and a later release. -/
theorem releases_agree_seven_four :
    Legible Release.sevenFour.packedText.toList ∧ Legible Release.eight.packedText.toList ∧
      Surrounds " 70403\n" Release.sevenFour.packedText ∧
      Surrounds "7.4.3\t" Release.sevenFour.dottedText ∧ Release.eight.Spelled "8.0.0" ∧
      Release.sevenFour.Before Release.eight ∧
      parts " 70403\n" = parts "7.4.3\t" ∧ parts " 70403\n" = .ok (7, 4) ∧
      ∃ c d e : Config, parse " 70403\n" = .ok c.version ∧ parse "7.4.3\t" = .ok d.version ∧
        parse "8.0.0" = .ok e.version ∧ c.scalarHints = d.scalarHints ∧ c.scalarHints = true ∧
        e.scalarHints = true := by
  have hlegible : Legible Release.sevenFour.packedText.toList := by decide +kernel
  have hlater : Legible Release.eight.packedText.toList := by decide +kernel
  have hpacked : Surrounds " 70403\n" Release.sevenFour.packedText :=
    ⟨[' '], ['\n'], by decide +kernel, by decide +kernel, by decide +kernel⟩
  have hdotted : Surrounds "7.4.3\t" Release.sevenFour.dottedText :=
    ⟨[], ['\t'], by decide +kernel, by decide +kernel, by decide +kernel⟩
  have height : Release.eight.Spelled "8.0.0" :=
    .inr ⟨[], [], by decide +kernel, by decide +kernel, by decide +kernel⟩
  have hbefore : Release.sevenFour.Before Release.eight := .inl (by decide)
  obtain ⟨hsame, hread, hhints, hmono⟩ :=
    releases_agree Release.sevenFour hlegible hpacked hdotted
  let c : Config := { Config.default with version := ⟨" 70403\n", 7, 4⟩ }
  let d : Config := { Config.default with version := ⟨"7.4.3\t", 7, 4⟩ }
  let e : Config := { Config.default with version := ⟨"8.0.0", 8, 0⟩ }
  have hc : parse " 70403\n" = .ok c.version := by decide +kernel
  have hd : parse "7.4.3\t" = .ok d.version := by decide +kernel
  have he : parse "8.0.0" = .ok e.version := by decide +kernel
  have hscalar : c.scalarHints = true := by decide
  exact ⟨hlegible, hlater, hpacked, hdotted, height, hbefore, hsame, hread, c, d, e, hc, hd, he,
    hhints c d hc hd, hscalar, hmono Release.eight hlater hbefore _ _ (.inl hpacked) height c e hc
      he hscalar⟩

end Version

end PhpDoc
