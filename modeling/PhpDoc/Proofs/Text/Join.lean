import PhpDoc.Text.Cut

/-!
# Joining and splitting

A text that is put together from parts is split into the same parts again when none of them holds
the separator (`splitOn_flatMap`, `splitOn_join`). What every part has, the whole has
(`forall_mem_join`), and what a part holds occurs in the whole (`infix_join`).
-/

namespace PhpDoc.Text

/-! ## Splitting -/

/-- Splitting a text at a separator is splitting the list of its characters. -/
theorem splitOn_eq (sep : Char) (cs : List Char) : splitOn sep cs = cs.splitOn sep := by
  induction cs with
  | nil => rfl
  | cons c cs ih =>
      rw [splitOn, List.splitOn_cons_eq_if_modifyHead, ih]
      by_cases hsep : c = sep
      · rw [if_pos hsep, if_pos (by simpa using hsep)]
      · rw [if_neg hsep, if_neg (by simpa using hsep)]
        cases hparts : List.splitOn sep cs with
        | nil => exact absurd hparts (List.splitOn_ne_nil _ _)
        | cons part parts => rfl

/-- Splitting leaves at least one part. -/
theorem splitOn_ne_nil (sep : Char) (cs : List Char) : splitOn sep cs ≠ [] := by
  rw [splitOn_eq]
  exact List.splitOn_ne_nil _ _

/-- The parts of a text hold its characters, but for the separator. -/
theorem mem_of_mem_splitOn {sep c : Char} {cs part : List Char} (hpart : part ∈ splitOn sep cs)
    (h : c ∈ part) : c ∈ cs ∧ c ≠ sep := by
  induction cs generalizing part with
  | nil =>
      rw [splitOn, List.mem_singleton] at hpart
      rw [hpart] at h
      cases h
  | cons d cs ih =>
      rw [splitOn] at hpart
      by_cases hsep : d = sep
      · rw [if_pos hsep] at hpart
        rcases List.mem_cons.1 hpart with rfl | hpart
        · cases h
        · exact (ih hpart h).imp_left (List.mem_cons_of_mem _)
      · rw [if_neg hsep] at hpart
        obtain ⟨first, parts, hsplit⟩ := List.exists_cons_of_ne_nil (splitOn_ne_nil sep cs)
        simp only [hsplit] at hpart ih
        rcases List.mem_cons.1 hpart with rfl | hpart
        · rcases List.mem_cons.1 h with rfl | h
          · exact ⟨List.mem_cons_self, hsep⟩
          · exact (ih List.mem_cons_self h).imp_left (List.mem_cons_of_mem _)
        · exact (ih (List.mem_cons_of_mem _ hpart) h).imp_left (List.mem_cons_of_mem _)

/-- A text is its first part and, with the separator in front of each of them, the others. -/
theorem eq_of_splitOn {sep : Char} {cs part : List Char} {others : List (List Char)}
    (h : splitOn sep cs = part :: others) : cs = part ++ others.flatMap (sep :: ·) := by
  induction cs generalizing part others with
  | nil =>
      cases h
      rfl
  | cons c cs ih =>
      obtain ⟨first, rest, hsplit⟩ := List.exists_cons_of_ne_nil (splitOn_ne_nil sep cs)
      rw [splitOn, hsplit] at h
      split at h
      · next heq =>
          cases h
          rw [List.nil_append, List.flatMap_cons, List.cons_append, ← ih hsplit, heq]
      · cases h
        rw [List.cons_append, ← ih hsplit]

/-- The parts of a text stand in it. -/
theorem infix_of_mem_splitOn {sep : Char} {cs part : List Char} (h : part ∈ splitOn sep cs) :
    part <:+: cs := by
  induction cs generalizing part with
  | nil =>
      rw [splitOn, List.mem_singleton] at h
      exact h ▸ List.nil_infix
  | cons c cs ih =>
      obtain ⟨first, rest, hsplit⟩ := List.exists_cons_of_ne_nil (splitOn_ne_nil sep cs)
      rw [splitOn, hsplit] at h
      rw [hsplit] at ih
      split at h
      · rcases List.mem_cons.1 h with rfl | hpart
        · exact List.nil_infix
        · exact List.infix_cons (ih hpart)
      · rcases List.mem_cons.1 h with rfl | hpart
        · -- the first part goes up to the first separator
          rw [eq_of_splitOn hsplit]
          exact (List.prefix_append (c :: first) _).isInfix
        · exact List.infix_cons (ih (List.mem_cons_of_mem _ hpart))

/-- A text without the separator is a single part. -/
theorem splitOn_of_not_mem {sep : Char} {cs : List Char} (h : sep ∉ cs) :
    splitOn sep cs = [cs] := by
  rw [splitOn_eq]
  exact List.splitOn_eq_singleton h

/-- Parts without the separator are found again. -/
theorem splitOn_flatMap {sep : Char} {part : List Char} {others : List (List Char)}
    (h : ∀ p ∈ part :: others, sep ∉ p) :
    splitOn sep (part ++ others.flatMap (sep :: ·)) = part :: others := by
  induction others generalizing part with
  | nil =>
      rw [List.flatMap_nil, List.append_nil]
      exact splitOn_of_not_mem (h part List.mem_cons_self)
  | cons next others ih =>
      obtain ⟨hpart, hothers⟩ := List.forall_mem_cons.1 h
      have hclear : ∀ c ∈ part, (c == sep) = false := fun c hc =>
        beq_false_of_ne fun heq => hpart (heq ▸ hc)
      rw [List.flatMap_cons, List.cons_append, splitOn_eq, List.splitOn,
        List.splitOnP_append_cons_of_forall_mem hclear sep (beq_self_eq_true sep), ← List.splitOn,
        ← splitOn_eq, ih hothers]

/-! ## Joining -/

variable {sep : String} {parts : List String}

/-- No parts make up the empty text. -/
@[simp] theorem join_nil (sep : String) : join sep [] = "" :=
  String.intercalate_nil

/-- A single part is joined to itself. -/
@[simp] theorem join_singleton (sep part : String) : join sep [part] = part :=
  String.intercalate_singleton

/-- The separator stands between the first part and the next one. -/
theorem toList_join_cons_cons (sep first next : String) (parts : List String) :
    (join sep (first :: next :: parts)).toList =
      first.toList ++ (sep.toList ++ (join sep (next :: parts)).toList) := by
  rw [join, String.intercalate_cons_cons, String.toList_append, String.toList_append,
    List.append_assoc, join]

/-- What holds of the parts holds of the joined text, when it is kept by putting two texts together
with the separator between them. -/
theorem join_induction {P : List Char → Prop} (hnil : P [])
    (hsep : ∀ {cs ds}, P cs → P ds → P (cs ++ (sep.toList ++ ds)))
    (h : ∀ part ∈ parts, P part.toList) : P (join sep parts).toList := by
  induction parts with
  | nil => simpa using hnil
  | cons first parts ih =>
      obtain ⟨hfirst, hparts⟩ := List.forall_mem_cons.1 h
      cases parts with
      | nil => simpa using hfirst
      | cons next parts =>
          rw [toList_join_cons_cons]
          exact hsep hfirst (ih hparts)

/-- What is true of all characters of the parts and of the separator is true of the joined text. -/
theorem forall_mem_join {P : Char → Prop} (hsep : ∀ c ∈ sep.toList, P c)
    (h : ∀ part ∈ parts, ∀ c ∈ part.toList, P c) : ∀ c ∈ (join sep parts).toList, P c :=
  join_induction (P := fun cs => ∀ c ∈ cs, P c) (by simp)
    (fun hcs hds => List.forall_mem_append.2 ⟨hcs, List.forall_mem_append.2 ⟨hsep, hds⟩⟩) h

/-- Every part occurs in the joined text. -/
theorem infix_join {part : String} (h : part ∈ parts) :
    part.toList <:+: (join sep parts).toList := by
  induction parts with
  | nil => cases h
  | cons first parts ih =>
      cases parts with
      | nil =>
          obtain rfl : part = first := List.mem_singleton.1 h
          exact ⟨[], [], by simp⟩
      | cons next parts =>
          rw [toList_join_cons_cons]
          rcases List.mem_cons.1 h with rfl | h
          · exact (List.prefix_append _ _).isInfix
          · exact ((ih h).trans (List.suffix_append _ _).isInfix).trans
              (List.suffix_append _ _).isInfix

/-- The parts that a text is joined from are read from it. -/
theorem splitOn_join {c : Char} (hsep : sep.toList = [c]) (hne : parts ≠ [])
    (h : ∀ part ∈ parts, c ∉ part.toList) :
    splitOn c (join sep parts).toList = parts.map String.toList := by
  rw [splitOn_eq, join, String.toList_intercalate, hsep, List.splitOn_intercalate]
  · simpa using h
  · simpa using hne

end PhpDoc.Text
