import PhpDoc.Proofs.Token.DocLine

/-!
# Rows of lexemes

A row runs through the automaton of the line grammar without the condition that line breaks are kept
apart. Written out, a lone carriage return and the line feed behind it become one line break; the
rest is read back as it stands (`Row.exists_run`), so the content of a row is the content that is
read from its text (`Row.contentOf_docBody`). This is how the lexemes of a rewritten comment are
known.
-/

namespace PhpDoc.Lexer

open Text

/-- The sequences of lexemes from one spot to another, whatever they make up when joined. -/
inductive Row : Spot → List Lexeme → Spot → Prop where
  | nil {p : Spot} : Row p [] p
  | cons {p q r : Spot} {l : Lexeme} {ls : List Lexeme} (step : Move p l q) (rest : Row q ls r) :
      Row p (l :: ls) r

/-- The tags and strings among the lexemes. -/
def contentOf (ls : List Lexeme) : List Lexeme :=
  ls.filter (·.kind.isDocContent)

/-- No lexemes have no content. -/
@[simp] theorem contentOf_nil : contentOf [] = [] := rfl

/-- The content of lexemes in a row is that of the first ones and that of the others. -/
@[simp] theorem contentOf_append (ls ms : List Lexeme) :
    contentOf (ls ++ ms) = contentOf ls ++ contentOf ms :=
  List.filter_append _ _

/-- A filler adds nothing to the content. -/
theorem contentOf_cons_of_filler {l : Lexeme} (h : l.kind.isDocContent = false) (ls : List Lexeme) :
    contentOf (l :: ls) = contentOf ls := by
  rw [contentOf, List.filter_cons, if_neg (by simp [h])]
  rfl

/-- Fillers have no content. -/
theorem contentOf_eq_nil {ls : List Lexeme} (h : ∀ l ∈ ls, l.kind.isDocContent = false) :
    contentOf ls = [] := by
  rw [contentOf, List.filter_eq_nil_iff]
  intro l hl
  simp [h l hl]

/-- A single move is a row. -/
theorem Row.single {p q : Spot} {l : Lexeme} (h : Move p l q) : Row p [l] q :=
  .cons h .nil

/-- Rows may follow each other. -/
theorem Row.append {p q r : Spot} {ls ms : List Lexeme} (h : Row p ls q) (h' : Row q ms r) :
    Row p (ls ++ ms) r := by
  induction h with
  | nil => exact h'
  | cons step rest ih => exact .cons step (ih h')

/-- The optional lexeme of a run of blanks. -/
theorem row_blank? {p q : Spot} {cs : List Char} (hnext : p.afterBlank? = some q)
    (hcs : IsBlanks cs) : Row p (lexeme? .docBlank cs) (if cs = [] then p else q) := by
  by_cases hne : cs = []
  · subst hne
    exact .nil
  · rw [lexeme?_of_ne_nil hne, if_neg hne]
    exact .single (.blank hnext hne hcs)

/-- Blanks have no content. -/
theorem contentOf_blank? (cs : List Char) : contentOf (lexeme? .docBlank cs) = [] := by
  refine contentOf_eq_nil fun l hl => ?_
  unfold lexeme? at hl
  split at hl
  · cases hl
  · rw [List.mem_singleton.1 hl]
    rfl

/-! ## Where a lexeme leads -/

/-- A star, a tag and a string lead to one spot each. -/
theorem Move.leads {p q : Spot} {l : Lexeme} (h : Move p l q) :
    l.kind = .docBlank ∨ (l.kind = .docStar ∧ q = .starred) ∨ (l.kind = .docTag ∧ q = .tagged) ∨
      (l.kind = .docString ∧ q = .written) := by
  cases h <;> simp

/-- A lexeme leads from a spot to one other spot. -/
theorem Move.unique {p q r : Spot} {l : Lexeme} (h : Move p l q) (h' : Move p l r) : q = r := by
  by_cases hkind : l.kind = .docBlank
  · rcases h.blank_or_ending hkind with ⟨hending, rfl⟩ | ⟨hblank, hq⟩
    · rcases h'.blank_or_ending hkind with ⟨-, rfl⟩ | ⟨hblank, -⟩
      · rfl
      · exact absurd (unbroken_of_blank hblank) hending.not_unbroken
    · rcases h'.blank_or_ending hkind with ⟨hending, -⟩ | ⟨-, hr⟩
      · exact absurd (unbroken_of_blank hblank) hending.not_unbroken
      · exact Option.some.inj (hq.symm.trans hr)
  · rcases h.leads with hblank | ⟨hq, rfl⟩ | ⟨hq, rfl⟩ | ⟨hq, rfl⟩
    · exact absurd hblank hkind
    all_goals
      rcases h'.leads with hblank | ⟨hr, rfl⟩ | ⟨hr, rfl⟩ | ⟨hr, rfl⟩
      · exact absurd hblank hkind
      all_goals first | rfl | (rw [hq] at hr; cases hr)

/-- Lexemes lead from a spot to one other spot. -/
theorem Run.unique {p q r : Spot} {ls : List Lexeme} (h : Run p ls q) (h' : Run p ls r) :
    q = r := by
  induction h with
  | nil =>
      cases h'
      rfl
  | cons step apart rest ih =>
      cases h' with
      | cons step' apart' rest' =>
          obtain rfl := step.unique step'
          exact ih rest'

/-- The line that stands at the first spot stands at the second one when it is written without its
indentation. -/
inductive Spot.Sync : Spot → Spot → Prop where
  | refl {p : Spot} : Sync p p
  | unindented : Sync .indented .lineStart

/-- Spots in step are the same, unless the first one is indented. -/
theorem Spot.Sync.eq {p q : Spot} (h : Sync p q) (hp : p ≠ .indented) : q = p := by
  cases h with
  | refl => rfl
  | unindented => exact absurd rfl hp

/-- What may follow the indentation of a line may start the line. -/
theorem Move.sync {p q r : Spot} {l : Lexeme} (h : Move p l r) (hpq : Spot.Sync p q) :
    Move q l r := by
  cases hpq with
  | refl => exact h
  | unindented =>
      cases h with
      | blank next => cases next
      | ending ending => exact .ending ending
      | star takes => exact .star rfl
      | tag takes whole => exact .tag rfl whole
      | string string fits =>
          obtain ⟨hnoTag, hnoStar, -⟩ := fits
          exact .string string ⟨hnoTag, hnoStar, by simp, by simp, by simp⟩

/-! ## Reading a row back -/

/-- A lexeme with a line break at its front is a line break. -/
theorem Move.isEnding {p q : Spot} {l : Lexeme} (h : Move p l q) {c : Char} {cs : List Char}
    (htext : l.text.toList = c :: cs) (hc : isLineBreak c = true) :
    l.kind = .docBlank ∧ IsEnding l.text.toList ∧ q = .lineStart := by
  have hbroken : ¬ Unbroken l.text.toList := by
    intro hunbroken
    rw [htext, unbroken_cons, hc] at hunbroken
    cases hunbroken.1
  have hkind : l.kind = .docBlank := by
    by_contra hkind
    exact hbroken (h.unbroken hkind)
  rcases h.blank_or_ending hkind with ⟨hending, hq⟩ | ⟨hblank, -⟩
  · exact ⟨hkind, hending, hq⟩
  · exact absurd (unbroken_of_blank hblank) hbroken

/-- A carriage return in front of a run that starts with a line feed makes one line break with
it. -/
theorem Run.join {q : Spot} {ls : List Lexeme} (h : Run .lineStart ls q)
    (hhead : (charsOf ls).head? = some '\n') :
    ∃ ms, charsOf ls = '\n' :: charsOf ms ∧ contentOf ms = contentOf ls ∧
      ∀ p, Run p (⟨.docBlank, String.ofList ['\r', '\n']⟩ :: ms) q := by
  cases h with
  | nil => cases hhead
  | @cons _ q' _ l ms step apart rest =>
      obtain ⟨c, cs, htext⟩ := List.exists_cons_of_ne_nil step.text_ne_nil
      have hc : c = '\n' := by
        rw [charsOf_cons, htext] at hhead
        exact Option.some.inj hhead
      subst hc
      -- the first lexeme is the line feed alone, which the joined line break takes the place of
      obtain ⟨hkind, hending, rfl⟩ := step.isEnding htext rfl
      obtain rfl : cs = [] := by
        rcases hending with heq | heq | heq <;> rw [htext] at heq <;> cases heq
        rfl
      refine ⟨ms, ?_, ?_, fun p => .cons (.ending (.inl rfl)) ?_ rest⟩
      · rw [charsOf_cons, htext, List.singleton_append]
      · rw [contentOf_cons_of_filler (by rw [hkind]; rfl)]
      · rw [String.toList_ofList]
        intro hlone
        cases hlone

/-- A row is read back from its text as it stands, apart from line breaks that are joined. -/
theorem Row.exists_run {p q : Spot} {ls : List Lexeme} (h : Row p ls q) :
    ∃ ms, Run p ms q ∧ charsOf ms = charsOf ls ∧ contentOf ms = contentOf ls := by
  induction h with
  | nil => exact ⟨[], .nil, rfl, rfl⟩
  | @cons p q r l ls step rest ih =>
      obtain ⟨ms, hrun, hchars, hcontent⟩ := ih
      by_cases hjoin : l.text.toList = ['\r'] ∧ (charsOf ms).head? = some '\n'
      · -- the two line breaks are one when they are read again
        obtain ⟨hkind, -, rfl⟩ := step.isEnding hjoin.1 rfl
        obtain ⟨ns, hns, hcontent', hrun'⟩ := hrun.join hjoin.2
        have hfiller : l.kind.isDocContent = false := by
          rw [hkind]
          rfl
        refine ⟨_, hrun' p, ?_, ?_⟩
        · rw [charsOf_cons, charsOf_cons, ← hchars, hns, hjoin.1, String.toList_ofList]
          rfl
        · rw [contentOf_cons_of_filler hfiller, contentOf_cons_of_filler rfl, hcontent', hcontent]
      · refine ⟨l :: ms, .cons step ?_ hrun, ?_, ?_⟩
        · intro hlone hhead
          exact hjoin ⟨hlone, hhead⟩
        · rw [charsOf_cons, charsOf_cons, hchars]
        · rw [contentOf, contentOf, List.filter_cons, List.filter_cons]
          unfold contentOf at hcontent
          rw [hcontent]

/-- The content of a row is the content of what is read from its text. -/
theorem Row.contentOf_docBody {q : Spot} {ls : List Lexeme} (h : Row .opened ls q) :
    contentOf (docBody (charsOf ls)) = contentOf ls := by
  obtain ⟨ms, hrun, hchars, hcontent⟩ := h.exists_run
  rw [← hchars, docBody_of_run hrun, hcontent]

end PhpDoc.Lexer
