import PhpDoc.Proofs.Token.DocLine
import PhpDoc.Proofs.Token.Place

/-!
# The content of a line

Every text on one line without blanks at its ends is what a line of a doc comment can say
(`Content.exists_of_isString`). The content of a line starts and ends with a tag or a string, and no
star, marker or line break stands in it.
-/

namespace PhpDoc.Lexer.Content

open Text

variable {content : Content} {starless : Bool} {l : Lexeme}

/-- A text on one line with no blank at either end is a string, a tag, or a tag with a value. -/
theorem exists_of_isString {cs : List Char} (h : IsString cs) :
    ∃ content : Content, content.Proper false ∧ charsOf content.lexemes = cs := by
  cases hwidth : tagWidth? cs with
  | none =>
      refine ⟨.plain cs, ⟨h, tagWidth?_eq_none_iff.1 hwidth, fun hstar => ?_⟩, by simp [lexemes]⟩
      cases hstar
  | some width =>
      obtain ⟨part, rest, rfl, hne, hpart, hstop, -⟩ := tagWidth?_eq_some_iff.1 hwidth
      have htag : IsTag ('@' :: part) := ⟨part, rfl, hne, hpart⟩
      by_cases hrest : rest = []
      · subst hrest
        exact ⟨.tag ('@' :: part), htag, by simp [lexemes]⟩
      · have hsuffix : rest <:+ '@' :: (part ++ rest) := ⟨'@' :: part, by simp⟩
        have hlast : ∀ c, rest.getLast? = some c → isBlank c = false := by
          intro c hc
          refine h.last c ?_
          rw [← List.cons_append, List.getLast?_append_of_ne_nil _ hrest]
          exact hc
        have hstring : IsString (rest.dropWhile isBlank) :=
          isString_dropWhile (h.unbroken.sublist hsuffix.sublist) hlast
            fun hnil => hrest (eq_nil_of_dropWhile hlast hnil)
        refine ⟨.valued ('@' :: part) (rest.takeWhile isBlank) (rest.dropWhile isBlank),
          ⟨htag, fun c hc => List.mem_takeWhile_imp hc, hstring, fun hpad c hc => hstop c ?_⟩, ?_⟩
        · rw [← List.takeWhile_append_dropWhile (p := isBlank) (l := rest), hpad]
          exact hc
        · simp [lexemes, List.takeWhile_append_dropWhile]

/-- Content starts with a tag or a string. -/
theorem exists_first (content : Content) :
    ∃ l ls, content.lexemes = l :: ls ∧ l.kind.isDocContent = true := by
  cases content with
  | plain string => exact ⟨_, _, rfl, rfl⟩
  | tag name => exact ⟨_, _, rfl, rfl⟩
  | valued name pad string => exact ⟨_, _, rfl, rfl⟩

/-- Content ends with a tag or a string. -/
theorem exists_last (content : Content) :
    ∃ ls l, content.lexemes = ls ++ [l] ∧ l.kind.isDocContent = true := by
  cases content with
  | plain string => exact ⟨[], _, rfl, rfl⟩
  | tag name => exact ⟨[], _, rfl, rfl⟩
  | valued name pad string => exact ⟨_ :: lexeme? .docBlank pad, _, rfl, rfl⟩

/-- The content of a line is made of a tag, blanks and a string. -/
theorem kind_of_mem (h : l ∈ content.lexemes) :
    l.kind = .docTag ∨ l.kind = .docBlank ∨ l.kind = .docString := by
  cases content with
  | plain string =>
      rw [List.mem_singleton.1 h]
      exact .inr (.inr rfl)
  | tag name =>
      rw [List.mem_singleton.1 h]
      exact .inl rfl
  | valued name pad string =>
      rcases List.mem_cons.1 h with rfl | h
      · exact .inl rfl
      · rcases List.mem_append.1 h with h | h
        · unfold lexeme? at h
          split at h
          · cases h
          · rw [List.mem_singleton.1 h]
            exact .inr (.inl rfl)
        · rw [List.mem_singleton.1 h]
          exact .inr (.inr rfl)

/-- The content of a line is on one line. -/
theorem unbroken_of_mem (h : content.Proper starless) (hl : l ∈ content.lexemes) :
    Unbroken l.text.toList :=
  (isString h).unbroken.sublist (List.sublist_flatten_of_mem (List.mem_map_of_mem hl))

end PhpDoc.Lexer.Content

namespace PhpDoc

open Text Lexer

/-- Tokens with the content of a line, from a tag or a string to a tag or a string. -/
structure Token.ContentRun (ts : List Token) (first last : Token) : Prop where
  starts : ∃ more, ts = first :: more
  ends : ∃ front, ts = front ++ [last]
  kind_first : first.kind.isDocContent = true
  kind_last : last.kind.isDocContent = true
  starless : ∀ t ∈ ts, t.kind ≠ .docStar
  unbroken : ∀ t ∈ ts, Unbroken t.text.toList

/-- The tokens of proper content are a run with a first and a last content. -/
theorem Token.exists_contentRun {content : Content} {starless : Bool}
    (hcontent : content.Proper starless) {ts : List Token}
    (hts : ts.map Token.lexeme = content.lexemes) : ∃ first last, ContentRun ts first last := by
  obtain ⟨l, ls, hstart, hstartKind⟩ := content.exists_first
  obtain ⟨ms, m, hend, hendKind⟩ := content.exists_last
  obtain ⟨first, more, hmore, hfirst, -⟩ := List.map_eq_cons_iff.1 (hts.trans hstart)
  obtain ⟨front, tail, hfront, -, htail⟩ := List.map_eq_append_iff.1 (hts.trans hend)
  obtain ⟨last, none, rfl, hlast, hnone⟩ := List.map_eq_cons_iff.1 htail
  obtain rfl := List.map_eq_nil_iff.1 hnone
  have hmem : ∀ t ∈ ts, t.lexeme ∈ content.lexemes := fun t ht => hts ▸ List.mem_map_of_mem ht
  refine ⟨first, last, ⟨more, hmore⟩, ⟨front, hfront⟩, ?_, ?_, fun t ht => ?_, fun t ht => ?_⟩
  · rwa [← Token.lexeme_kind, hfirst]
  · rwa [← Token.lexeme_kind, hlast]
  · rw [← Token.lexeme_kind]
    rcases Content.kind_of_mem (hmem t ht) with h | h | h <;> simp only [h] <;> decide
  · exact Content.unbroken_of_mem hcontent (hmem t ht)

end PhpDoc
