import PhpDoc.Text.Digit
import PhpDoc.Text.Cut
import Mathlib.Algebra.Group.Nat.Defs
import Mathlib.Data.List.Basic

/-!
# Numbers in decimal digits

A number is written with the ten common digits. They are decimal digits with their own values
(`decimalValue?_of_isDigit`), they are not white space, and a number is known by its digits
(`toString_inj`).
-/

namespace PhpDoc.Text

variable {n m : Nat} {c : Char}

/-- The common digits stand in one block of code points. -/
theorem toNat_of_isDigit (h : c.isDigit = true) : 48 ≤ c.toNat ∧ c.toNat ≤ 57 := by
  simpa [Char.isDigit, UInt32.le_iff_toNat_le] using h

/-- The common digits are decimal digits with their own values. -/
theorem decimalValue?_of_isDigit (h : c.isDigit = true) :
    decimalValue? c = some (c.toNat - '0'.toNat) := by
  have hrange := toNat_of_isDigit h
  have hfirst : (decide (48 ≤ c.toNat) && decide (c.toNat < 48 + 10)) = true := by
    simp only [Bool.and_eq_true, decide_eq_true_eq]
    omega
  have hfound : decimalZeros.find? (fun low => low ≤ c.toNat && c.toNat < low + 10) = some 48 :=
    List.find?_cons_of_pos hfirst
  rw [decimalValue?, hfound]
  rfl

/-- A common digit is no white space. -/
theorem isSpace_of_isDigit (h : c.isDigit = true) : isSpace c = false := by
  have hrange := toNat_of_isDigit h
  simp [isSpace, spaceRanges, Ranges.contains]
  omega

/-- A number is written in common digits. -/
theorem isDigit_of_mem_toString (h : c ∈ (toString n).toList) : c.isDigit = true := by
  rw [Nat.toString_eq_repr, Nat.toList_repr] at h
  exact Nat.isDigit_of_mem_toDigits (by decide) (by decide) h

/-- A number is written in decimal digits. -/
theorem isDecimal_of_mem_toString (h : c ∈ (toString n).toList) : isDecimal c = true := by
  rw [isDecimal, decimalValue?_of_isDigit (isDigit_of_mem_toString h)]
  rfl

/-- A number has at least one digit. -/
theorem toList_toString_ne_nil (n : Nat) : (toString n).toList ≠ [] := by
  rw [Nat.toString_eq_repr, Nat.toList_repr]
  exact Nat.toDigits_ne_nil

/-- The digits of a number give the number. -/
theorem ofDigitChars_toString (n : Nat) : Nat.ofDigitChars 10 (toString n).toList 0 = n := by
  rw [Nat.toString_eq_repr, Nat.toList_repr, Nat.ofDigitChars_ten_toDigits]

/-- Numbers with the same digits are the same. -/
theorem toString_inj (h : (toString n).toList = (toString m).toList) : n = m := by
  rw [← ofDigitChars_toString n, h, ofDigitChars_toString]

/-- A number has at most so many digits when it is below that power of ten. -/
theorem length_toString_le_iff {width : Nat} (h : 0 < width) :
    (toString n).toList.length ≤ width ↔ n < 10 ^ width := by
  rw [Nat.toString_eq_repr, Nat.toList_repr]
  exact Nat.length_toDigits_le_iff (by decide) h

end PhpDoc.Text
