import PhpDoc.Data.Json
import PhpDoc.Proofs.Text.Digit
import PhpDoc.Proofs.Text.Join
import Mathlib.Data.List.Basic

/-!
# Reading JSON text back

Nothing is lost in a JSON text of one line without spaces: values of the kinds that JSON has are
the same when their texts are (`render_compact_inj`). The reason is that every part of the text
tells where it ends. An escape can be undone without looking further (`unescape_escape`), a string
ends at the first quote that is not escaped, a number at the first character that is no digit, and a
list or mapping at its closing bracket (`Delimited`).
-/

namespace PhpDoc

namespace Quoted

/-- The value of a hexadecimal digit. -/
def hexValue (c : Char) : Nat :=
  "0123456789abcdef".toList.idxOf c

/-- A hexadecimal digit has the value that it writes. -/
theorem hexValue_hexDigit (n : Nat) : hexValue (hexDigit n) = n % 16 := by
  have hall : ∀ d < 16, hexValue (hexDigit d) = d := by decide +kernel
  have hmod : hexDigit n = hexDigit (n % 16) := by
    rw [hexDigit, hexDigit, Nat.mod_mod]
  rw [hmod, hall _ (Nat.mod_lt _ (by decide))]

/-- Four hexadecimal digits. -/
theorem hex_four (n : Nat) :
    hex 4 n = [hexDigit (n / 4096), hexDigit (n / 256), hexDigit (n / 16), hexDigit n] := by
  simp [hex, Nat.div_div_eq_div_mul]

end Quoted

namespace Json

open Quoted

variable {c d : Char} {rest others : List Char}

/-! ## Strings -/

/-- The UTF-16 unit of four hexadecimal digits, with the text behind them. -/
def readUnit : List Char → Option (Nat × List Char)
  | a :: b :: c :: d :: rest =>
      some (4096 * hexValue a + 256 * hexValue b + 16 * hexValue c + hexValue d, rest)
  | _ => none

/-- A unit that was written with four digits is read again, and the rest is left. -/
theorem readUnit_hex {n : Nat} (h : n < 0x10000) (rest : List Char) :
    readUnit (hex 4 n ++ rest) = some (n, rest) := by
  rw [hex_four]
  simp only [List.cons_append, List.nil_append, readUnit, hexValue_hexDigit, Option.some.injEq,
    Prod.mk.injEq, and_true]
  omega

/-- The character of an escape of one letter. -/
def shortEscape (c : Char) : Char :=
  if c = 'n' then '\n'
  else if c = 'r' then '\r'
  else if c = 't' then '\t'
  else if c = 'b' then '\x08'
  else if c = 'f' then '\x0c'
  else c

/-- The first character of the content of a string, with the text behind it. -/
def unescape : List Char → Option (Char × List Char)
  | '\\' :: 'u' :: rest => do
      let (n, rest) ← readUnit rest
      if n < 0xd800 || 0xdc00 ≤ n then some (Char.ofNat n, rest)
      else
        let (m, rest) ← readUnit (rest.drop 2)
        some (Char.ofNat (0x10000 + 0x400 * (n - 0xd800) + (m - 0xdc00)), rest)
  | '\\' :: c :: rest => some (shortEscape c, rest)
  | c :: rest => some (c, rest)
  | [] => none

/-- A character that is no surrogate is read from its unit. -/
theorem unescape_unit (h : c.toNat < 0x10000) (rest : List Char) :
    unescape (unit c.toNat ++ rest) = some (c, rest) := by
  have hvalid : c.toNat < 0xd800 ∨ 0xdfff < c.toNat := by
    have := c.valid
    simp only [UInt32.isValidChar, Nat.isValidChar] at this
    have htoNat : c.val.toNat = c.toNat := rfl
    omega
  have hunit : (decide (c.toNat < 0xd800) || decide (0xdc00 ≤ c.toNat)) = true := by
    simp
    omega
  rw [unit, List.cons_append, List.cons_append, unescape, readUnit_hex h]
  simp only [Option.bind_eq_bind, Option.bind_some, hunit, ↓reduceIte, Char.ofNat_toNat]

/-- A pair of surrogates is read as the character for which it stands. -/
theorem unescape_surrogates {high low : Nat} (hhigh : high < 0x400) (hlow : low < 0x400)
    (rest : List Char) : unescape (unit (0xd800 + high) ++ unit (0xdc00 + low) ++ rest) =
      some (Char.ofNat (0x10000 + 0x400 * high + low), rest) := by
  have hsurrogate : (decide (0xd800 + high < 0xd800) || decide (0xdc00 ≤ 0xd800 + high)) = false := by
    simp only [Bool.or_eq_false_iff, decide_eq_false_iff_not]
    omega
  rw [unit, unit, List.append_assoc, List.cons_append, List.cons_append, unescape,
    readUnit_hex (by omega)]
  simp only [Option.bind_eq_bind, Option.bind_some, hsurrogate, Bool.false_eq_true, ↓reduceIte,
    List.cons_append, List.drop_succ_cons, List.drop_zero]
  rw [readUnit_hex (by omega), Option.bind_some, Nat.add_sub_cancel_left, Nat.add_sub_cancel_left]

/-- A character beyond the units is read from its pair of surrogates. -/
theorem unescape_pair (h : 0x10000 ≤ c.toNat) (rest : List Char) :
    unescape (unit (0xd800 + (c.toNat - 0x10000) / 0x400) ++
      unit (0xdc00 + (c.toNat - 0x10000) % 0x400) ++ rest) = some (c, rest) := by
  have hmax : c.toNat < 0x110000 := by
    have := c.valid
    simp only [UInt32.isValidChar, Nat.isValidChar] at this
    have htoNat : c.val.toNat = c.toNat := rfl
    omega
  have hcode : 0x10000 + 0x400 * ((c.toNat - 0x10000) / 0x400) + (c.toNat - 0x10000) % 0x400 =
      c.toNat := by
    omega
  rw [unescape_surrogates (by omega) (by omega), hcode, Char.ofNat_toNat]

/-- The written form of a character is read as the character, whatever follows. -/
theorem unescape_escape (c : Char) (rest : List Char) :
    unescape (escape c ++ rest) = some (c, rest) := by
  unfold escape
  split
  · next hself =>
      have hself : c = '"' ∨ c = '\\' := by simpa using hself
      obtain rfl | rfl := hself
      · rfl
      · rfl
  split
  · next hself _ =>
      have hself : c ≠ '"' ∧ c ≠ '\\' := by simpa using hself
      rw [List.singleton_append]
      unfold unescape
      split
      · next heq => exact absurd (List.cons.inj heq).1 hself.2
      · next heq => exact absurd (List.cons.inj heq).1 hself.2
      · next heq => rw [(List.cons.inj heq).1, (List.cons.inj heq).2]
      · next heq => cases heq
  split
  · next heq =>
      subst heq
      rfl
  split
  · next heq =>
      subst heq
      rfl
  split
  · next heq =>
      subst heq
      rfl
  split
  · next heq =>
      subst heq
      rfl
  split
  · next heq =>
      subst heq
      rfl
  split
  · next hunit => exact unescape_unit hunit rest
  · next hunit => exact unescape_pair (Nat.not_lt.1 hunit) rest

/-- Every character is written in some form, and none begins like the end of a string. -/
theorem exists_escape (c : Char) : ∃ first more, escape c = first :: more ∧ first ≠ '"' := by
  unfold escape
  split
  · exact ⟨_, _, rfl, by decide⟩
  split
  · next hself _ =>
      have hself : c ≠ '"' ∧ c ≠ '\\' := by simpa using hself
      exact ⟨_, _, rfl, hself.1⟩
  repeat' split
  all_goals exact ⟨_, _, rfl, by decide⟩

/-- The content of a string ends at the first quote that is not escaped. -/
theorem content_inj {cs ds : List Char}
    (h : cs.flatMap escape ++ '"' :: rest = ds.flatMap escape ++ '"' :: others) :
    cs = ds ∧ rest = others := by
  induction cs generalizing ds with
  | nil =>
      cases ds with
      | nil => exact ⟨rfl, (List.cons.inj h).2⟩
      | cons d ds =>
          obtain ⟨first, more, hd, hfirst⟩ := exists_escape d
          rw [List.flatMap_cons, hd] at h
          exact absurd (List.cons.inj h).1.symm hfirst
  | cons c cs ih =>
      cases ds with
      | nil =>
          obtain ⟨first, more, hc, hfirst⟩ := exists_escape c
          rw [List.flatMap_cons, hc] at h
          exact absurd (List.cons.inj h).1 hfirst
      | cons d ds =>
          rw [List.flatMap_cons, List.flatMap_cons, List.append_assoc, List.append_assoc] at h
          have hread := congrArg unescape h
          rw [unescape_escape, unescape_escape, Option.some.injEq, Prod.mk.injEq] at hread
          obtain ⟨rfl, hrest⟩ := hread
          obtain ⟨rfl, hothers⟩ := ih hrest
          exact ⟨rfl, hothers⟩

/-- A text is written character by character between double quotes. -/
theorem toList_string (s : String) :
    (string s).toList = '"' :: (s.toList.flatMap escape ++ ['"']) := by
  simp [string]

/-- A string tells where it ends. -/
theorem string_inj {s t : String}
    (h : (string s).toList ++ rest = (string t).toList ++ others) : s = t ∧ rest = others := by
  rw [toList_string, toList_string, List.cons_append, List.cons_append, List.append_assoc,
    List.append_assoc] at h
  obtain ⟨hcontent, hrest⟩ := content_inj (List.cons.inj h).2
  exact ⟨String.toList_inj.1 hcontent, hrest⟩

/-! ## Numbers -/

/-- The text does not go on with a digit. -/
def Ends (rest : List Char) : Prop :=
  ∀ c ∈ rest.head?, c.isDigit = false

/-- A number ends in front of a character that is no digit. -/
theorem ends_cons {c : Char} (h : c.isDigit = false) (rest : List Char) : Ends (c :: rest) := by
  intro d hd
  rwa [← Option.some.inj hd]

/-- A run of digits ends where no digit follows. -/
theorem digits_inj {ds es : List Char} (hds : ∀ c ∈ ds, c.isDigit = true)
    (hes : ∀ c ∈ es, c.isDigit = true) (hrest : Ends rest) (hothers : Ends others)
    (h : ds ++ rest = es ++ others) : ds = es ∧ rest = others := by
  have htake := congrArg (List.takeWhile Char.isDigit) h
  have hstop : ∀ text, Ends text → text.takeWhile Char.isDigit = [] := by
    intro text htext
    cases text with
    | nil => rfl
    | cons c cs => rw [List.takeWhile_cons_of_neg (by simp [htext c rfl])]
  rw [List.takeWhile_append_of_pos hds, List.takeWhile_append_of_pos hes, hstop _ hrest,
    hstop _ hothers, List.append_nil, List.append_nil] at htake
  subst htake
  exact ⟨rfl, List.append_cancel_left h⟩

/-- A whole number tells where it ends, unless a digit follows. -/
theorem number_inj {n m : Nat} (hrest : Ends rest) (hothers : Ends others)
    (h : (toString n).toList ++ rest = (toString m).toList ++ others) : n = m ∧ rest = others := by
  obtain ⟨hdigits, hrest⟩ := digits_inj (fun c hc => Text.isDigit_of_mem_toString hc)
    (fun c hc => Text.isDigit_of_mem_toString hc) hrest hothers h
  exact ⟨Text.toString_inj hdigits, hrest⟩

/-- A negative number is a minus sign with a positive number behind it. -/
theorem toList_negSucc (n : Nat) :
    (toString (Int.negSucc n)).toList = '-' :: (toString (n + 1)).toList := by
  have htext : toString (Int.negSucc n) = "-" ++ toString (n + 1) := rfl
  rw [htext, String.toList_append]
  rfl

/-- The text of a whole number begins with a digit, or with a sign when it is negative. -/
theorem exists_int (n : Int) : ∃ first more, (toString n).toList = first :: more ∧
    (first = '-' ∨ first.isDigit = true) ∧ (first.isDigit = true ↔ 0 ≤ n) := by
  cases n with
  | ofNat n =>
      obtain ⟨first, more, hfirst⟩ :=
        List.exists_cons_of_ne_nil (Text.toList_toString_ne_nil n)
      have hdigit : first.isDigit = true := by
        refine Text.isDigit_of_mem_toString (n := n) ?_
        rw [hfirst]
        exact List.mem_cons_self
      exact ⟨first, more, hfirst, .inr hdigit, iff_of_true hdigit (Int.natCast_nonneg n)⟩
  | negSucc n =>
      have hnegative : ¬ 0 ≤ Int.negSucc n := Int.not_le.2 (Int.negSucc_lt_zero n)
      exact ⟨'-', _, toList_negSucc n, .inl rfl, iff_of_false (by decide) hnegative⟩

/-- The texts of whole numbers begin alike only when both have a sign or none has. -/
theorem sign_congr {n m : Int}
    (h : (toString n).toList ++ rest = (toString m).toList ++ others) : 0 ≤ n ↔ 0 ≤ m := by
  obtain ⟨first, more, hn, -, hfirst⟩ := exists_int n
  obtain ⟨other, less, hm, -, hother⟩ := exists_int m
  rw [hn, hm] at h
  obtain rfl : first = other := (List.cons.inj h).1
  exact hfirst.symm.trans hother

/-- Two whole numbers with the same text, up to where they end, are the same. -/
theorem int_inj {n m : Int} (hrest : Ends rest) (hothers : Ends others)
    (h : (toString n).toList ++ rest = (toString m).toList ++ others) : n = m ∧ rest = others := by
  have hsign := sign_congr h
  cases n with
  | ofNat n =>
      cases m with
      | ofNat m =>
          obtain ⟨rfl, hrest⟩ := number_inj hrest hothers h
          exact ⟨rfl, hrest⟩
      | negSucc m =>
          exact absurd (hsign.1 (Int.natCast_nonneg n)) (Int.not_le.2 (Int.negSucc_lt_zero m))
  | negSucc n =>
      cases m with
      | ofNat m =>
          exact absurd (hsign.2 (Int.natCast_nonneg m)) (Int.not_le.2 (Int.negSucc_lt_zero n))
      | negSucc m =>
          rw [toList_negSucc, toList_negSucc] at h
          obtain ⟨hnumber, hrest⟩ := number_inj hrest hothers (List.cons.inj h).2
          obtain rfl := Nat.succ.inj hnumber
          exact ⟨rfl, hrest⟩

/-! ## Rows -/

/-- The texts of a row with commas between them, up to the bracket that closes it. -/
def row (close : Char) : List (List Char) → List Char
  | [] => [close]
  | part :: parts => part ++ (parts.flatMap (',' :: ·) ++ [close])

/-- The joined texts of a row stand between commas. -/
theorem toList_intercalate (part : String) (parts : List String) :
    (Text.join "," (part :: parts)).toList =
      part.toList ++ (parts.map String.toList).flatMap (',' :: ·) := by
  induction parts generalizing part with
  | nil => simp
  | cons next parts ih =>
      rw [Text.toList_join_cons_cons, ih]
      rfl

/-- Enclosed parts are a row between the two brackets, on one line. -/
theorem toList_enclose (depth : Nat) {opener closer : String} {first last : Char}
    (hopener : opener.toList = [first]) (hcloser : closer.toList = [last]) (parts : List String) :
    (Style.compact.enclose depth opener closer parts).toList =
      first :: row last (parts.map String.toList) := by
  unfold Style.enclose
  cases parts with
  | nil => simp [hopener, hcloser, row]
  | cons part parts =>
      have hjoin := toList_intercalate part parts
      rw [Text.join] at hjoin
      simp [Style.newline, Style.compact, hopener, hcloser, row, hjoin]

variable {α : Type} {close : Char} {code : α → List Char} {p : α → Prop} {as bs : List α}

/-- The written form of `a` is not the one of anything else with the property, and it tells where
it ends, unless a digit follows. -/
def Delimited (p : α → Prop) (code : α → List Char) (a : α) : Prop :=
  ∀ {b rest others}, p b → Ends rest → Ends others → code a ++ rest = code b ++ others →
    a = b ∧ rest = others

/-- What goes on with a comma or with the closing bracket does not go on with a digit. -/
theorem ends_more (hclose : close.isDigit = false) (parts : List (List Char)) :
    Ends (parts.flatMap (',' :: ·) ++ close :: rest) := by
  cases parts with
  | nil => exact ends_cons hclose rest
  | cons part parts =>
      rw [List.flatMap_cons, List.cons_append, List.cons_append]
      exact ends_cons (by decide) _

/-- What stands behind the first of a row tells where it ends. -/
theorem more_inj (hcomma : close ≠ ',') (hclose : close.isDigit = false)
    (has : ∀ a ∈ as, Delimited p code a) (hbs : ∀ b ∈ bs, p b)
    (h : (as.map code).flatMap (',' :: ·) ++ close :: rest =
      (bs.map code).flatMap (',' :: ·) ++ close :: others) : as = bs ∧ rest = others := by
  induction as generalizing bs with
  | nil =>
      cases bs with
      | nil => exact ⟨rfl, (List.cons.inj h).2⟩
      | cons b bs => exact absurd (List.cons.inj h).1 hcomma
  | cons a as ih =>
      cases bs with
      | nil => exact absurd (List.cons.inj h).1.symm hcomma
      | cons b bs =>
          obtain ⟨ha, hlater⟩ := List.forall_mem_cons.1 has
          obtain ⟨hb, hfurther⟩ := List.forall_mem_cons.1 hbs
          rw [List.map_cons, List.map_cons, List.flatMap_cons, List.flatMap_cons,
            List.append_assoc, List.append_assoc] at h
          obtain ⟨hsame, hmore⟩ :=
            ha hb (ends_more hclose _) (ends_more hclose _) (List.cons.inj h).2
          obtain ⟨hrow, hrest⟩ := ih hlater hfurther hmore
          exact ⟨by rw [hsame, hrow], hrest⟩

/-- A row tells where it ends, when nothing in it begins like its closing bracket. -/
theorem row_inj (hcomma : close ≠ ',') (hclose : close.isDigit = false)
    (hfirst : ∀ a, p a → ∃ first more, code a = first :: more ∧ first ≠ close)
    (has : ∀ a ∈ as, p a ∧ Delimited p code a) (hbs : ∀ b ∈ bs, p b)
    (h : row close (as.map code) ++ rest = row close (bs.map code) ++ others) :
    as = bs ∧ rest = others := by
  cases as with
  | nil =>
      cases bs with
      | nil => exact ⟨rfl, (List.cons.inj h).2⟩
      | cons b bs =>
          obtain ⟨first, more, hb, hne⟩ := hfirst b (hbs b List.mem_cons_self)
          simp only [List.map_cons, List.map_nil, row, hb, List.cons_append] at h
          exact absurd (List.cons.inj h).1.symm hne
  | cons a as =>
      obtain ⟨⟨hpa, ha⟩, hlater⟩ := List.forall_mem_cons.1 has
      cases bs with
      | nil =>
          obtain ⟨first, more, hcode, hne⟩ := hfirst a hpa
          simp only [List.map_cons, List.map_nil, row, hcode, List.cons_append] at h
          exact absurd (List.cons.inj h).1 hne
      | cons b bs =>
          obtain ⟨hb, hfurther⟩ := List.forall_mem_cons.1 hbs
          simp only [List.map_cons, row, List.append_assoc, List.singleton_append] at h
          obtain ⟨hsame, hmore⟩ := ha hb (ends_more hclose _) (ends_more hclose _) h
          obtain ⟨hrow, hrest⟩ :=
            more_inj hcomma hclose (fun a ha => (hlater a ha).2) hfurther hmore
          exact ⟨by rw [hsame, hrow], hrest⟩

/-! ## Values -/

/-- A value that is known by its JSON text. Left out are dates and moments, which are written like
texts, and decimal numbers, of which several are written alike. -/
inductive Exact : Value → Prop
  | null : Exact .null
  | bool (b : Bool) : Exact (.bool b)
  | int (n : Int) : Exact (.int n)
  | text (s : String) : Exact (.text s)
  | list {items : List Value} : (∀ v ∈ items, Exact v) → Exact (.list items)
  | map {fields : List (String × Value)} : (∀ f ∈ fields, Exact f.2) → Exact (.map fields)

/-- The kinds of value that can be told apart by the first character of the text. -/
inductive Form where
  | nothing
  | truth (b : Bool)
  | number
  | text
  | list
  | mapping
  deriving DecidableEq

/-- The form of a value. -/
def form : Value → Form
  | .null => .nothing
  | .bool b => .truth b
  | .text _ => .text
  | .list _ => .list
  | .map _ => .mapping
  | _ => .number

/-- The form of the values whose texts begin with a character. -/
def formOf (first : Char) : Form :=
  if first = 'n' then .nothing
  else if first = 't' then .truth true
  else if first = 'f' then .truth false
  else if first = '"' then .text
  else if first = '[' then .list
  else if first = '\x7b' then .mapping
  else .number

/-- The characters of the text of a value on one line without spaces. -/
def chars (depth : Nat) (v : Value) : List Char :=
  (renderAt .compact depth v).toList

/-- The characters of a key with its value. -/
def fieldChars (depth : Nat) (field : String × Value) : List Char :=
  (string field.1).toList ++ (':' :: chars depth field.2)

/-- The items of a list are written one by one. -/
theorem renderItems_eq (style : Style) (depth : Nat) (items : List Value) :
    renderItems style depth items = items.map (renderAt style depth) := by
  induction items with
  | nil => rfl
  | cons v items ih => rw [renderItems, ih, List.map_cons]

/-- The fields of a mapping are written one by one, each as key and value. -/
theorem renderFields_eq (style : Style) (depth : Nat) (fields : List (String × Value)) :
    renderFields style depth fields = fields.map fun field =>
      string field.1 ++ style.keySeparator ++ renderAt style depth field.2 := by
  induction fields with
  | nil => rfl
  | cons field fields ih => rw [renderFields, ih, List.map_cons]

/-- The text of a list is a row of its items. -/
theorem chars_list (depth : Nat) (items : List Value) :
    chars depth (.list items) = '[' :: row ']' (items.map (chars (depth + 1))) := by
  rw [chars, renderAt, toList_enclose depth rfl rfl, renderItems_eq, List.map_map]
  rfl

/-- The text of a field is its key, a colon and its value. -/
theorem toList_field (depth : Nat) (field : String × Value) :
    (string field.1 ++ Style.compact.keySeparator ++ renderAt .compact depth field.2).toList =
      fieldChars depth field := by
  rw [String.toList_append, String.toList_append, List.append_assoc]
  rfl

/-- The text of a mapping is a row of its fields. -/
theorem chars_map (depth : Nat) (fields : List (String × Value)) :
    chars depth (.map fields) = '\x7b' :: row '\x7d' (fields.map (fieldChars (depth + 1))) := by
  rw [chars, renderAt, toList_enclose depth rfl rfl, renderFields_eq, List.map_map]
  refine congrArg (fun parts => '\x7b' :: row '\x7d' parts) ?_
  exact List.map_congr_left fun field _ => toList_field (depth + 1) field

/-- The first character of the text of a value tells its form. -/
theorem exists_chars {v : Value} (hv : Exact v) (depth : Nat) :
    ∃ first more, chars depth v = first :: more ∧ formOf first = form v ∧ first ≠ ']' := by
  cases hv with
  | null => exact ⟨'n', ['u', 'l', 'l'], by rw [chars, renderAt]; rfl, rfl, by decide⟩
  | bool b =>
      cases b with
      | false => exact ⟨'f', ['a', 'l', 's', 'e'], by rw [chars, renderAt]; rfl, rfl, by decide⟩
      | true => exact ⟨'t', ['r', 'u', 'e'], by rw [chars, renderAt]; rfl, rfl, by decide⟩
  | int n =>
      obtain ⟨first, more, hn, hfirst, -⟩ := exists_int n
      refine ⟨first, more, hn, ?_⟩
      obtain rfl | hdigit := hfirst
      · exact ⟨rfl, by decide⟩
      · have hne : ∀ c, c.isDigit = false → first ≠ c := by
          intro c hc heq
          rw [heq, hc] at hdigit
          cases hdigit
        simp [formOf, form, hne]
  | text s => exact ⟨_, _, toList_string s, rfl, by decide⟩
  | list => exact ⟨_, _, chars_list depth _, rfl, by decide⟩
  | map => exact ⟨_, _, chars_map depth _, rfl, by decide⟩

/-- The form of a value can be read off the start of its text. -/
theorem form_congr {v w : Value} (hv : Exact v) (hw : Exact w) {depth : Nat}
    (h : chars depth v ++ rest = chars depth w ++ others) : form v = form w := by
  obtain ⟨first, more, hfirst, hform, -⟩ := exists_chars hv depth
  obtain ⟨other, less, hother, hform', -⟩ := exists_chars hw depth
  rw [hfirst, hother] at h
  obtain rfl : first = other := (List.cons.inj h).1
  exact hform.symm.trans hform'

/-- A key with a value is delimited when the value is. -/
theorem delimited_field {field : String × Value} {depth : Nat}
    (h : Delimited Exact (chars depth) field.2) :
    Delimited (fun f => Exact f.2) (fieldChars depth) field := by
  intro other rest others hother hrest hothers heq
  rw [fieldChars, fieldChars, List.append_assoc, List.append_assoc] at heq
  obtain ⟨hkey, hvalue⟩ := string_inj heq
  obtain ⟨hsame, hrest⟩ := h hother hrest hothers (List.cons.inj hvalue).2
  exact ⟨Prod.ext hkey hsame, hrest⟩

/-- The text of a value tells where it ends, unless a digit follows. The induction is on the value:
what stands in a list or mapping is delimited already. -/
theorem Exact.delimited {v : Value} (hv : Exact v) :
    ∀ depth, Delimited Exact (chars depth) v := by
  induction hv with
  | null =>
      intro depth w rest others hw hrest hothers h
      have hform := form_congr .null hw h
      cases hw with
      | null => exact ⟨rfl, List.append_cancel_left h⟩
      | _ => cases hform
  | bool b =>
      intro depth w rest others hw hrest hothers h
      have hform := form_congr (.bool b) hw h
      cases hw with
      | bool c =>
          obtain rfl : b = c := Form.truth.inj hform
          exact ⟨rfl, List.append_cancel_left h⟩
      | _ => cases hform
  | int n =>
      intro depth w rest others hw hrest hothers h
      have hform := form_congr (.int n) hw h
      cases hw with
      | int m =>
          obtain ⟨rfl, hrest⟩ := int_inj hrest hothers h
          exact ⟨rfl, hrest⟩
      | _ => cases hform
  | text s =>
      intro depth w rest others hw hrest hothers h
      have hform := form_congr (.text s) hw h
      cases hw with
      | text t =>
          obtain ⟨rfl, hrest⟩ := string_inj h
          exact ⟨rfl, hrest⟩
      | _ => cases hform
  | list hitems ih =>
      intro depth w rest others hw hrest hothers h
      have hform := form_congr (.list hitems) hw h
      cases hw with
      | list hothers =>
          rw [chars_list, chars_list] at h
          have hfirst : ∀ v, Exact v →
              ∃ first more, chars (depth + 1) v = first :: more ∧ first ≠ ']' := by
            intro v hv
            obtain ⟨first, more, hchars, -, hne⟩ := exists_chars hv (depth + 1)
            exact ⟨first, more, hchars, hne⟩
          obtain ⟨rfl, hrest⟩ := row_inj (by decide) (by decide) hfirst
            (fun v hv => ⟨hitems v hv, ih v hv (depth + 1)⟩) hothers (List.cons.inj h).2
          exact ⟨rfl, hrest⟩
      | _ => cases hform
  | map hfields ih =>
      intro depth w rest others hw hrest hothers h
      have hform := form_congr (.map hfields) hw h
      cases hw with
      | map hothers =>
          rw [chars_map, chars_map] at h
          have hfirst : ∀ f : String × Value, Exact f.2 →
              ∃ first more, fieldChars (depth + 1) f = first :: more ∧ first ≠ '\x7d' := by
            intro f _
            rw [fieldChars, toList_string]
            exact ⟨_, _, rfl, by decide⟩
          obtain ⟨rfl, hrest⟩ := row_inj (by decide) (by decide) hfirst
            (fun f hf => ⟨hfields f hf, delimited_field (ih f hf (depth + 1))⟩) hothers
            (List.cons.inj h).2
          exact ⟨rfl, hrest⟩
      | _ => cases hform

/-- Two values of the kinds that JSON has are the same when their texts are. -/
theorem render_compact_inj {v w : Value} (hv : Exact v) (hw : Exact w) :
    render .compact v = render .compact w ↔ v = w := by
  constructor
  · intro h
    have hchars : chars 0 v ++ [] = chars 0 w ++ [] :=
      congrArg (fun text : String => text.toList ++ []) h
    have hends : Ends [] := nofun
    exact (hv.delimited 0 hw hends hends hchars).1
  · intro h
    rw [h]

end Json

end PhpDoc
