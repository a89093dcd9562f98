import Mathlib.Data.List.Basic
import Mathlib.Tactic.SplitIfs
import PhpDoc.Text.Utf8

/-!
# Writing and reading UTF-8

Bytes are read character by character: a first byte and the bytes that have to follow it, a
`Spelling`. Every character is written as a spelling (`spelling_encodeChar`), and every spelling is
what is written for the character that it stands for (`Spelling.encodeChar_codePoint`). Hence the
bytes of a text are read as the text (`decode_encode`), and bytes that can be read are those of the
text that they are read as (`encode_of_decode`).
-/

namespace PhpDoc.Utf8

variable {first b : UInt8} {part rest : List UInt8} {offset place width : Nat}

/-! ## Bytes as numbers -/

/-- The number of bytes of a character depends on the range in which its first byte lies. -/
theorem width?_eq (b : UInt8) :
    width? b =
      if b.toNat < 128 then some 1
      else if b.toNat < 194 then none
      else if b.toNat < 224 then some 2
      else if b.toNat < 240 then some 3
      else if b.toNat < 245 then some 4
      else none :=
  rfl

/-- The first byte tells the width of a character. -/
theorem width?_eq_some_iff :
    width? first = some width ↔
      width = 1 ∧ first.toNat < 128 ∨ width = 2 ∧ 194 ≤ first.toNat ∧ first.toNat < 224 ∨
        width = 3 ∧ 224 ≤ first.toNat ∧ first.toNat < 240 ∨
        width = 4 ∧ 240 ≤ first.toNat ∧ first.toNat < 245 := by
  have hsome (n : Nat) : some n = some width ↔ width = n := by simp [eq_comm]
  rw [width?_eq]
  split_ifs <;> simp only [hsome, false_iff] <;> omega

/-- Which second bytes are allowed depends on the first one. -/
theorem isSecond_iff :
    isSecond first b = true ↔ 128 ≤ b.toNat ∧ b.toNat < 192 ∧
      (first.toNat = 224 → 160 ≤ b.toNat) ∧ (first.toNat = 237 → b.toNat < 160) ∧
      (first.toNat = 240 → 144 ≤ b.toNat) ∧ (first.toNat = 244 → b.toNat < 144) := by
  simp only [isSecond, Bool.and_eq_true, Bool.not_eq_true', Bool.and_eq_false_iff,
    decide_eq_true_eq, decide_eq_false_iff_not, beq_eq_false_iff_ne, ne_eq, UInt8.le_iff_toNat_le,
    UInt8.lt_iff_toNat_lt, ← UInt8.toNat_inj]
  simp only [UInt8.reduceToNat]
  omega

/-- Whether a byte may stand behind the second place of a character. -/
def IsLater (b : UInt8) : Prop :=
  128 ≤ b.toNat ∧ b.toNat < 192

/-- From the third byte on, every continuation byte is allowed. -/
theorem isPart_later_iff : isPart first (place + 2) b = true ↔ IsLater b := by
  simp [isPart, IsLater, UInt8.le_iff_toNat_le, UInt8.lt_iff_toNat_lt]

/-- There are at most as many well-formed bytes as bytes. -/
theorem wellFormed_le (first : UInt8) (place : Nat) (part : List UInt8) :
    wellFormed first place part ≤ part.length := by
  induction part generalizing place with
  | nil => exact Nat.le_refl 0
  | cons b part ih =>
      rw [wellFormed, List.length_cons]
      split
      · exact Nat.succ_le_succ (ih _)
      · exact Nat.zero_le _

/-- All bytes are well-formed when the first one is and the others are. -/
theorem wellFormed_cons_iff :
    wellFormed first place (b :: rest) = (b :: rest).length ↔
      isPart first place b = true ∧ wellFormed first (place + 1) rest = rest.length := by
  rw [wellFormed]
  split
  · next h => simp [h]
  · next h => simp [h]

/-! ## Spellings -/

/-- A first byte and the bytes that follow it in a character. -/
inductive Spelling : UInt8 → List UInt8 → Prop where
  | one {first : UInt8} (lead : first.toNat < 128) : Spelling first []
  | two {first b : UInt8} (lead : 194 ≤ first.toNat ∧ first.toNat < 224)
      (second : isSecond first b = true) : Spelling first [b]
  | three {first b c : UInt8} (lead : 224 ≤ first.toNat ∧ first.toNat < 240)
      (second : isSecond first b = true) (third : IsLater c) : Spelling first [b, c]
  | four {first b c d : UInt8} (lead : 240 ≤ first.toNat ∧ first.toNat < 245)
      (second : isSecond first b = true) (third : IsLater c) (fourth : IsLater d) :
      Spelling first [b, c, d]

/-- A spelling has as many bytes as the first one says, and all of them are well-formed. -/
theorem spelling_iff :
    Spelling first part ↔
      width? first = some (part.length + 1) ∧ wellFormed first 1 part = part.length := by
  constructor
  · rintro (lead | ⟨lead, second⟩ | ⟨lead, second, third⟩ | ⟨lead, second, third, fourth⟩)
    · exact ⟨width?_eq_some_iff.2 (by simp [lead]), rfl⟩
    · exact ⟨width?_eq_some_iff.2 (by simp [lead]), wellFormed_cons_iff.2 ⟨second, rfl⟩⟩
    · exact ⟨width?_eq_some_iff.2 (by simp [lead]), wellFormed_cons_iff.2 ⟨second,
        wellFormed_cons_iff.2 ⟨isPart_later_iff.2 third, rfl⟩⟩⟩
    · exact ⟨width?_eq_some_iff.2 (by simp [lead]), wellFormed_cons_iff.2 ⟨second,
        wellFormed_cons_iff.2 ⟨isPart_later_iff.2 third,
          wellFormed_cons_iff.2 ⟨isPart_later_iff.2 fourth, rfl⟩⟩⟩⟩
  · rintro ⟨hwidth, hgood⟩
    rw [width?_eq_some_iff] at hwidth
    match part with
    | [] => exact .one (by simpa using hwidth)
    | [b] =>
        obtain ⟨second, -⟩ := wellFormed_cons_iff.1 hgood
        exact .two (by simpa using hwidth) second
    | [b, c] =>
        obtain ⟨second, hgood⟩ := wellFormed_cons_iff.1 hgood
        obtain ⟨third, -⟩ := wellFormed_cons_iff.1 hgood
        exact .three (by simpa using hwidth) second (isPart_later_iff.1 third)
    | [b, c, d] =>
        obtain ⟨second, hgood⟩ := wellFormed_cons_iff.1 hgood
        obtain ⟨third, hgood⟩ := wellFormed_cons_iff.1 hgood
        obtain ⟨fourth, -⟩ := wellFormed_cons_iff.1 hgood
        exact .four (by simpa using hwidth) second (isPart_later_iff.1 third)
          (isPart_later_iff.1 fourth)
    | b :: c :: d :: e :: part =>
        simp only [List.length_cons] at hwidth
        omega

/-! ## Code points -/

/-- A single byte is its own code point. -/
theorem codePoint_one (first : UInt8) : codePoint first [] = first.toNat :=
  rfl

/-- Two bytes give five and six bits. -/
theorem codePoint_two (first b : UInt8) :
    codePoint first [b] = first.toNat % 32 * 64 + b.toNat % 64 :=
  rfl

/-- Three bytes give four, six and six bits. -/
theorem codePoint_three (first b c : UInt8) :
    codePoint first [b, c] = (first.toNat % 16 * 64 + b.toNat % 64) * 64 + c.toNat % 64 :=
  rfl

/-- Four bytes give three, six, six and six bits. -/
theorem codePoint_four (first b c d : UInt8) :
    codePoint first [b, c, d] =
      ((first.toNat % 8 * 64 + b.toNat % 64) * 64 + c.toNat % 64) * 64 + d.toNat % 64 :=
  rfl

/-- The bytes of a character are a spelling with its code point. -/
theorem spelling_encodeChar (x : Char) :
    ∃ first part, String.utf8EncodeChar x = first :: part ∧ Spelling first part ∧
      codePoint first part = x.toNat := by
  have hvalid : x.toNat < 55296 ∨ 57343 < x.toNat ∧ x.toNat < 1114112 := x.valid
  have hval : x.val.toNat = x.toNat := rfl
  simp only [String.utf8EncodeChar, hval]
  -- the cases of the encoder are those of spellings
  split_ifs with hone htwo hthree
  · refine ⟨_, _, rfl, .one ?_, ?_⟩ <;>
      simp only [codePoint_one, UInt8.toNat_ofNat'] <;> omega
  · refine ⟨_, _, rfl, .two ?_ (isSecond_iff.2 ?_), ?_⟩ <;>
      simp only [codePoint_two, UInt8.toNat_ofNat'] <;> omega
  · refine ⟨_, _, rfl, .three ?_ (isSecond_iff.2 ?_) ?_, ?_⟩ <;>
      simp only [codePoint_three, IsLater, UInt8.toNat_ofNat'] <;> omega
  · refine ⟨_, _, rfl, .four ?_ (isSecond_iff.2 ?_) ?_ ?_, ?_⟩ <;>
      simp only [codePoint_four, IsLater, UInt8.toNat_ofNat'] <;> omega

/-- The bytes of the character of a code point. -/
theorem encodeChar_ofNat {n : Nat} (h : n.isValidChar) :
    String.utf8EncodeChar (Char.ofNat n) =
      if n ≤ 127 then [UInt8.ofNat n]
      else if n ≤ 2047 then [UInt8.ofNat (n / 64 % 32 + 192), UInt8.ofNat (n % 64 + 128)]
      else if n ≤ 65535 then
        [UInt8.ofNat (n / 4096 % 16 + 224), UInt8.ofNat (n / 64 % 64 + 128),
          UInt8.ofNat (n % 64 + 128)]
      else
        [UInt8.ofNat (n / 262144 % 8 + 240), UInt8.ofNat (n / 4096 % 64 + 128),
          UInt8.ofNat (n / 64 % 64 + 128), UInt8.ofNat (n % 64 + 128)] := by
  have hval : (Char.ofNat n).val.toNat = n := by
    rw [Char.ofNat, dif_pos h]
    rfl
  rw [String.utf8EncodeChar, hval]

/-- A spelling is what is written for the character of its code point. -/
theorem Spelling.encodeChar_codePoint (h : Spelling first part) :
    String.utf8EncodeChar (Char.ofNat (codePoint first part)) = first :: part := by
  cases h with
  | one lead =>
      have hcode := codePoint_one first
      rw [encodeChar_ofNat (.inl (by omega)), if_pos (by omega), hcode, UInt8.ofNat_toNat]
  | @two b lead second =>
      have hcode := codePoint_two first b
      rw [isSecond_iff] at second
      rw [encodeChar_ofNat (.inl (by omega)), if_neg (by omega), if_pos (by omega)]
      simp only [List.cons.injEq, ← UInt8.toNat_inj, UInt8.toNat_ofNat', and_true]
      omega
  | @three b c lead second third =>
      have hcode := codePoint_three first b c
      rw [isSecond_iff] at second
      rw [IsLater] at third
      rw [encodeChar_ofNat (by rw [Nat.isValidChar]; omega), if_neg (by omega), if_neg (by omega),
        if_pos (by omega)]
      simp only [List.cons.injEq, ← UInt8.toNat_inj, UInt8.toNat_ofNat', and_true]
      omega
  | @four b c d lead second third fourth =>
      have hcode := codePoint_four first b c d
      rw [isSecond_iff] at second
      rw [IsLater] at third fourth
      rw [encodeChar_ofNat (by rw [Nat.isValidChar]; omega), if_neg (by omega), if_neg (by omega),
        if_neg (by omega)]
      simp only [List.cons.injEq, ← UInt8.toNat_inj, UInt8.toNat_ofNat', and_true]
      omega

/-! ## Reading -/

/-- A spelling is read as the character of its code point. -/
theorem Spelling.decodeFrom_append (h : Spelling first part) (offset : Nat) (rest : List UInt8) :
    decodeFrom offset (first :: (part ++ rest)) =
      (decodeFrom (offset + (part.length + 1)) rest).map
        (Char.ofNat (codePoint first part) :: ·) := by
  obtain ⟨hwidth, hgood⟩ := spelling_iff.1 h
  rw [decodeFrom, hwidth]
  simp only [Nat.add_sub_cancel, List.take_left', List.drop_left', hgood, ↓reduceIte]

/-- Bytes that can be read start with a spelling, and the others can be read as well. -/
theorem exists_spelling_of_decodeFrom {cs : List Char}
    (h : decodeFrom offset (first :: rest) = .ok cs) :
    ∃ part rest' cs', rest = part ++ rest' ∧ Spelling first part ∧
      decodeFrom (offset + (part.length + 1)) rest' = .ok cs' ∧
      cs = Char.ofNat (codePoint first part) :: cs' := by
  rw [decodeFrom] at h
  split at h
  · cases h
  · next width hwidth =>
      simp only at h
      split at h
      · next hgood =>
          have hle := wellFormed_le first 1 (rest.take (width - 1))
          have hlength := List.length_take_le (width - 1) rest
          -- the well-formed bytes are all that the width asks for, so that none is cut off
          have hpart : (rest.take (width - 1)).length + 1 = width := by omega
          cases hrest : decodeFrom (offset + width) (rest.drop (width - 1)) with
          | error e =>
              rw [hrest] at h
              cases h
          | ok cs' =>
              rw [hrest] at h
              cases h
              refine ⟨_, _, cs', (List.take_append_drop (width - 1) rest).symm,
                spelling_iff.2 ⟨?_, by omega⟩, ?_, rfl⟩
              · rw [hwidth, hpart]
              · rw [hpart, hrest]
      · split at h <;> cases h

/-! ## Texts -/

/-- The bytes of an array of bytes, as a list. -/
theorem toList_byteArray (bytes : ByteArray) : bytes.toList = bytes.data.toList := by
  have hloop : ∀ (i : Nat) (read : List UInt8),
      ByteArray.toList.loop bytes i read = read.reverse ++ bytes.data.toList.drop i := by
    intro i read
    fun_induction ByteArray.toList.loop bytes i read with
    | case1 i read hlt ih =>
        have hdrop : bytes.data.toList.drop i =
            bytes.data[i] :: bytes.data.toList.drop (i + 1) := by
          rw [List.drop_eq_getElem_cons (by simpa using hlt)]
          simp
        have hget : bytes.get! i = bytes.data[i] := getElem!_pos bytes.data i hlt
        rw [ih, hdrop, hget]
        simp
    | case2 i read hlt =>
        rw [List.drop_eq_nil_of_le (by simpa using Nat.le_of_not_lt hlt), List.append_nil]
  rw [ByteArray.toList]
  simpa using hloop 0 []

/-- A text is written character by character. -/
theorem encode_eq (text : String) : encode text = text.toList.flatMap String.utf8EncodeChar := by
  have hbytes : text.toUTF8 = (text.toList.flatMap String.utf8EncodeChar).toByteArray :=
    (congrArg String.toByteArray (String.ofList_toList (s := text))).symm
  rw [encode, hbytes, toList_byteArray, List.toList_data_toByteArray]

/-- The bytes of characters are read as the characters. -/
theorem decodeFrom_encodeChars (cs : List Char) (offset : Nat) :
    decodeFrom offset (cs.flatMap String.utf8EncodeChar) = .ok cs := by
  induction cs generalizing offset with
  | nil => rw [List.flatMap_nil, decodeFrom]
  | cons c cs ih =>
      obtain ⟨first, part, hbytes, hspelling, hcode⟩ := spelling_encodeChar c
      rw [List.flatMap_cons, hbytes, List.cons_append, hspelling.decodeFrom_append, ih, hcode,
        Char.ofNat_toNat]
      rfl

/-- Bytes that can be read are those of the characters. -/
theorem encodeChars_of_decodeFrom {bytes : List UInt8} {cs : List Char}
    (h : decodeFrom offset bytes = .ok cs) : cs.flatMap String.utf8EncodeChar = bytes := by
  induction hn : bytes.length using Nat.strongRecOn generalizing offset bytes cs with
  | ind n ih =>
      match bytes with
      | [] =>
          rw [decodeFrom] at h
          cases h
          rfl
      | first :: rest =>
          obtain ⟨part, rest', cs', rfl, hspelling, hrest, rfl⟩ := exists_spelling_of_decodeFrom h
          have hshorter : rest'.length < n := by
            rw [← hn, List.length_cons, List.length_append]
            omega
          rw [List.flatMap_cons, hspelling.encodeChar_codePoint, ih _ hshorter hrest rfl,
            List.cons_append]

/-- The bytes of a text are read as the text. -/
theorem decode_encode (text : String) : decode (encode text) = .ok text := by
  rw [decode, encode_eq, decodeFrom_encodeChars]
  exact congrArg Except.ok String.ofList_toList

/-- Texts with the same bytes are the same. -/
theorem encode_inj {text other : String} : encode text = encode other ↔ text = other := by
  refine ⟨fun h => ?_, congrArg encode⟩
  exact Except.ok.inj ((decode_encode text).symm.trans (h ▸ decode_encode other))

/-- Bytes that can be read are the bytes of the text that they are read as. -/
theorem encode_of_decode {bytes : List UInt8} {text : String} (h : decode bytes = .ok text) :
    encode text = bytes := by
  rw [decode] at h
  cases hcs : decodeFrom 0 bytes with
  | error e =>
      rw [hcs] at h
      cases h
  | ok cs =>
      rw [hcs] at h
      cases h
      rw [encode_eq, String.toList_ofList, encodeChars_of_decodeFrom hcs]

end PhpDoc.Utf8
