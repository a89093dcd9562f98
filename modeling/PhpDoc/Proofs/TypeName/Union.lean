import PhpDoc.Proofs.Text.Join
import PhpDoc.Proofs.Token.Breaks
import PhpDoc.Proofs.TypeName.Spelling

/-!
# Spelling unions

A union in its preferred spelling is taken apart into the same names again (`names_join`). So it
keeps its spelling when no shape in it is empty (`normalize_normalize`). A shape in which there was
only white space is spelled once more, and then the spelling is final (`normalize_settles`). No
spelling leaves the line of its type (`unbroken_normalize`) or closes a comment that the type does
not close (`unclosed_normalize`).
-/

namespace PhpDoc.TypeName

open Text Lexer

/-! ## Lists without repetitions -/

/-- Nothing is left twice. -/
theorem nodup_eraseDups {α : Type} [BEq α] [LawfulBEq α] (xs : List α) : xs.eraseDups.Nodup := by
  induction hn : xs.length using Nat.strong_induction_on generalizing xs with
  | _ n ih =>
      cases xs with
      | nil => simp
      | cons x xs =>
          have hlength := List.length_filter_le (fun y => !y == x) xs
          rw [List.length_cons] at hn
          rw [List.eraseDups_cons, List.nodup_cons]
          exact ⟨by simp, ih _ (by omega) _ rfl⟩

/-- Where nothing is there twice, all is left. -/
theorem eraseDups_of_nodup {α : Type} [BEq α] [LawfulBEq α] {xs : List α} (h : xs.Nodup) :
    xs.eraseDups = xs := by
  induction xs with
  | nil => rfl
  | cons x xs ih =>
      obtain ⟨hx, hxs⟩ := List.nodup_cons.1 h
      have hfilter : xs.filter (fun y => !y == x) = xs := by
        rw [List.filter_eq_self]
        intro y hy
        have hne : y ≠ x := fun heq => hx (heq ▸ hy)
        simpa using hne
      rw [List.eraseDups_cons, hfilter, ih hxs]

/-! ## The names of a union -/

/-- The names of a union in their preferred spelling, each once. -/
def names (type : String) : List String :=
  ((splitOn '|' type.toList).map fun cs => suggest (String.ofList cs)).eraseDups

/-- The preferred spelling joins the names of a type. -/
theorem normalize_eq (type : String) : normalize type = join "|" (names type) := rfl

/-- Every name is the spelling of a part of the type. -/
theorem exists_part_of_mem_names {type name : String} (h : name ∈ names type) :
    ∃ part ∈ splitOn '|' type.toList, name.toList = suggestChars part := by
  obtain ⟨part, hpart, rfl⟩ := List.mem_map.1 (List.mem_eraseDups.1 h)
  exact ⟨part, hpart, by rw [suggest, String.toList_ofList, String.toList_ofList]⟩

/-- Every type has a name. -/
theorem names_ne_nil (type : String) : names type ≠ [] := by
  obtain ⟨part, parts, hsplit⟩ :=
    List.exists_cons_of_ne_nil (splitOn_ne_nil '|' type.toList)
  rw [names, hsplit, List.map_cons, List.eraseDups_cons]
  exact List.cons_ne_nil _ _

/-- No name of a union holds the sign that joins them. -/
theorem not_mem_of_mem_names {type name : String} (h : name ∈ names type) :
    '|' ∉ name.toList := by
  obtain ⟨part, hpart, heq⟩ := exists_part_of_mem_names h
  rw [heq]
  intro hmem
  refine forall_mem_suggestChars (P := (· ≠ '|')) (by decide) (by decide) (by decide) ?_ _ hmem rfl
  rintro c hc rfl
  exact (mem_of_mem_splitOn hpart hc).2 rfl

/-- The names of joined parts are their spellings, each once. -/
theorem names_join {parts : List String} (hne : parts ≠ [])
    (h : ∀ part ∈ parts, '|' ∉ part.toList) :
    names (join "|" parts) = (parts.map suggest).eraseDups := by
  have hsuggest : (fun cs => suggest (String.ofList cs)) ∘ String.toList = suggest := by
    funext name
    exact congrArg suggest String.ofList_toList
  rw [names, splitOn_join rfl hne h, List.map_map, hsuggest]

/-- The names of the preferred spelling are those of its names. -/
theorem names_normalize (type : String) :
    names (normalize type) = ((names type).map suggest).eraseDups :=
  names_join (names_ne_nil type) fun _ => not_mem_of_mem_names

/-- A union of which every name keeps its spelling keeps its spelling. -/
theorem normalize_of_settled {type : String} (h : ∀ name ∈ names type, suggest name = name) :
    normalize (normalize type) = normalize type := by
  have hmap : (names type).map suggest = names type :=
    (List.map_congr_left h).trans (List.map_id _)
  have hnames : (names type).eraseDups = names type := eraseDups_of_nodup (nodup_eraseDups _)
  rw [normalize_eq (normalize type), names_normalize, hmap, hnames, normalize_eq]

/-! ## Spellings of unions -/

/-- The preferred spelling of a type on one line is on one line. -/
theorem unbroken_normalize {type : String} (h : Unbroken type.toList) :
    Unbroken (normalize type).toList := by
  refine forall_mem_join (by decide) fun name hname => ?_
  obtain ⟨part, hpart, heq⟩ := exists_part_of_mem_names hname
  rw [heq]
  exact forall_mem_suggestChars (by decide) (by decide) (by decide)
    fun c hc => h c (mem_of_mem_splitOn hpart hc).1

/-- The preferred spelling of a union has no close marker that the union does not have. -/
theorem unclosed_normalize {type : String} (h : Unclosed type.toList) :
    Unclosed (normalize type).toList := by
  refine join_induction unclosed_nil (fun hcs hds => ?_) fun name hname => ?_
  · refine unclosed_append.2 ⟨hcs, unclosed_append_right (by decide) (by decide) hds, ?_⟩
    simp
  · obtain ⟨part, hpart, heq⟩ := exists_part_of_mem_names hname
    rw [heq]
    exact unclosed_suggestChars (h.of_isInfix (infix_of_mem_splitOn hpart))

/-- A type whose spelling holds no empty shape is spelled once and for all. -/
theorem normalize_normalize {type : String} (h : contains "array()" (normalize type) = false) :
    normalize (normalize type) = normalize type := by
  refine normalize_of_settled fun name hname => ?_
  obtain ⟨part, -, heq⟩ := exists_part_of_mem_names hname
  have hoccurs : ¬ "array()".toList <:+: name.toList := fun hoccurs => by
    have hwhole : name.toList <:+: (normalize type).toList := infix_join hname
    rw [contains_iff_isInfix.2 (hoccurs.trans hwhole)] at h
    cases h
  have hsettled := (spelled_suggestChars part).settled (heq ▸ hoccurs)
  rw [suggest, heq, hsettled, ← heq, String.ofList_toList]

/-- The spelling of a spelling is final. -/
theorem normalize_settles (type : String) :
    normalize (normalize (normalize type)) = normalize (normalize type) := by
  refine normalize_of_settled fun name hname => ?_
  rw [names_normalize, List.mem_eraseDups] at hname
  obtain ⟨first, hfirst, rfl⟩ := List.mem_map.1 hname
  obtain ⟨part, -, heq⟩ := exists_part_of_mem_names hfirst
  simp only [suggest, String.toList_ofList, heq, (spelled_suggestChars part).settles]

/-- A shape with white space in it loses the white space first and the parentheses then. -/
theorem normalize_blank_shape :
    normalize "array( )" = "array()" ∧ normalize (normalize "array( )") = "array" := by
  decide +kernel

end PhpDoc.TypeName
