import PhpDoc.Comment.Star
import PhpDoc.Proofs.Token.Sound

/-!
# The lines of a doc comment

Where the tokens of a doc comment stand, by the line grammar: no token lies in two comments
(`Frames.eq_of_mem`), a string is the last content of its line (`line_lt_of_string`), and a star
stands at the start of its line or behind the blank that indents the line (`lineIndent?_of_star`).
-/

namespace PhpDoc

open Text Lexer

/-- Fillers are no content. -/
theorem Kind.isDocContent_of_isFiller {k : Kind} (h : k.isFiller = true) :
    k.isDocContent = false := by
  cases k <;> first | rfl | cases h

/-- Content is no filler. -/
theorem Kind.isFiller_of_isDocContent {k : Kind} (h : k.isDocContent = true) :
    k.isFiller = false := by
  cases k <;> first | rfl | cases h

namespace Lexer

/-- Behind a string a line takes nothing more than a blank. -/
def Spot.isWritten : Spot → Bool
  | written | trailed => true
  | _ => false

/-- Behind the string of a line there is a line break in front of everything but a blank. -/
theorem Run.exists_ending {p q : Spot} {ls : List Lexeme} (h : Run p ls q)
    (hp : p.isWritten = true) (hq : q.isWritten = false) :
    ∃ l ∈ ls, l.kind = .docBlank ∧ IsEnding l.text.toList := by
  induction h with
  | nil =>
      rw [hp] at hq
      cases hq
  | @cons p q r l ls move apart rest ih =>
      cases move with
      | blank next nonempty blanks =>
          have hwritten : q.isWritten = true := by
            cases p <;> simp [Spot.afterBlank?, Spot.isWritten] at next hp ⊢
            simp [← next]
          obtain ⟨l, hl, hending⟩ := ih hwritten hq
          exact ⟨l, List.mem_cons_of_mem _ hl, hending⟩
      | ending ending => exact ⟨_, List.mem_cons_self, rfl, by simpa using ending⟩
      | star takes => cases p <;> simp [Spot.takesStar, Spot.isWritten] at takes hp
      | tag takes => cases p <;> simp [Spot.takesTag, Spot.isWritten] at takes hp
      | string string fits => cases p <;> simp [StringAt, Spot.isWritten] at fits hp

/-- Tags and strings stand at spots where their line takes content. -/
theorem Move.not_isWritten {p q : Spot} {l : Lexeme} (h : Move p l q)
    (hcontent : l.kind.isDocContent = true) : p.isWritten = false := by
  cases h with
  | blank => simp [Kind.isDocContent] at hcontent
  | ending => simp [Kind.isDocContent] at hcontent
  | star => simp [Kind.isDocContent] at hcontent
  | tag takes => cases p <;> simp [Spot.takesTag, Spot.isWritten] at takes ⊢
  | string string fits => cases p <;> simp [StringAt, Spot.isWritten] at fits ⊢

/-- Behind a string its line is written. -/
theorem Move.eq_written {p q : Spot} {l : Lexeme} (h : Move p l q) (hkind : l.kind = .docString) :
    q = .written := by
  cases h with
  | string => rfl
  | blank => cases hkind
  | ending => cases hkind
  | star => cases hkind
  | tag => cases hkind

/-- A star stands where its line starts. -/
theorem Move.takesStar {p q : Spot} {l : Lexeme} (h : Move p l q) (hkind : l.kind = .docStar) :
    p = .lineStart ∨ p = .indented := by
  cases h with
  | star takes => cases p <;> simp [Spot.takesStar] at takes ⊢
  | blank => cases hkind
  | ending => cases hkind
  | tag => cases hkind
  | string => cases hkind

/-- A line starts behind a line break. -/
theorem Move.of_lineStart {p : Spot} {l : Lexeme} (h : Move p l .lineStart) :
    l.kind = .docBlank ∧ IsEnding l.text.toList := by
  cases h with
  | blank next => cases p <;> simp [Spot.afterBlank?] at next
  | ending ending => exact ⟨rfl, by simpa using ending⟩

/-- Behind a line start there is the indentation. -/
theorem Move.of_indented {p : Spot} {l : Lexeme} (h : Move p l .indented) :
    p = .lineStart ∧ l.kind = .docBlank ∧ ∀ c ∈ l.text.toList, isBlank c = true := by
  cases h with
  | blank next nonempty blanks =>
      refine ⟨?_, rfl, by simpa using blanks⟩
      cases p <;> simp [Spot.afterBlank?] at next ⊢

end Lexer

namespace Stream.Frames

variable {s : Stream} {c : CommentSpan} {t u : Token}

/-- The tokens of the comment run through the line grammar. -/
theorem run (hc : s.Frames c) : ∃ q, Run .opened ((s.inside c).map Token.lexeme) q := by
  obtain ⟨body, -, hbody⟩ := hc.body
  rw [hbody]
  exact run_docBody body

/-- Every token of the comment has its spot in the line grammar. -/
theorem exists_move (hc : s.Frames c) (ht : s.Has t) (hfrom : c.opener.index < t.index)
    (hto : t.index < c.closer.index) :
    ∃ p q r, Run .opened ((s.between (c.opener.index + 1) t.index).map Token.lexeme) p ∧
      Move p t.lexeme q ∧
      Run q ((s.between (t.index + 1) c.closer.index).map Token.lexeme) r := by
  obtain ⟨r, hrun⟩ := hc.run
  rw [inside, between_split ht hfrom hto, List.map_append, List.map_cons] at hrun
  obtain ⟨p, hfront, hrest⟩ := hrun.split
  cases hrest with
  | cons move apart rest => exact ⟨p, _, r, hfront, move, rest⟩

/-- The first token of a comment is an open marker. -/
theorem openerKind (hc : s.Frames c) : c.opener.kind = .docOpen :=
  congrArg Lexeme.kind hc.opens

/-- The last token of a comment is a close marker. -/
theorem closerKind (hc : s.Frames c) : c.closer.kind = .docClose :=
  congrArg Lexeme.kind hc.closes

/-- Every open marker is written in the same way. -/
theorem openerText (hc : s.Frames c) : c.opener.text = "/**" :=
  congrArg Lexeme.text hc.opens

/-- Every close marker is written in the same way. -/
theorem closerText (hc : s.Frames c) : c.closer.text = "*/" :=
  congrArg Lexeme.text hc.closes

/-- A token between the markers is a blank, a star, a tag or a string. -/
theorem kind (hc : s.Frames c) (ht : s.Has t) (hfrom : c.opener.index < t.index)
    (hto : t.index < c.closer.index) :
    t.kind = .docBlank ∨ t.kind = .docStar ∨ t.kind = .docTag ∨ t.kind = .docString := by
  obtain ⟨_, _, _, _, move, _⟩ := hc.exists_move ht hfrom hto
  exact move.kind

/-- The content of a comment is what is no filler. -/
theorem isFiller_eq_false (hc : s.Frames c) (ht : s.Has t) (hfrom : c.opener.index < t.index)
    (hto : t.index < c.closer.index) :
    t.kind.isFiller = false ↔ t.kind.isDocContent = true := by
  rcases hc.kind ht hfrom hto with h | h | h | h <;> rw [h] <;> decide

/-- Comments with one open marker are one comment. -/
theorem eq {d : CommentSpan} (hc : s.Frames c) (hd : s.Frames d) (h : c.opener = d.opener) :
    c = d := by
  have hle : ∀ {c d : CommentSpan}, s.Frames c → s.Frames d → c.opener = d.opener →
      c.closer.index ≤ d.closer.index := by
    intro c d hc hd h
    by_contra hlt
    have hkind := hc.kind hd.closer (h ▸ hd.lt) (by omega)
    rw [hd.closerKind] at hkind
    simp at hkind
  have hindex := Nat.le_antisymm (hle hc hd h) (hle hd hc h.symm)
  have hcloser := hc.closer.eq hd.closer hindex
  have htags : c.tags = d.tags := by
    rw [hc.tags, hd.tags, inside, inside, h, hcloser]
  cases c
  cases d
  simp only at h hcloser htags
  rw [h, hcloser, htags]

/-- The kinds of the tokens of a comment are those of doc comments. -/
theorem isDoc_of_mem (hc : s.Frames c) (ht : s.Has t) (hfrom : c.opener.index ≤ t.index)
    (hto : t.index ≤ c.closer.index) : t.kind.isDoc = true := by
  rcases Nat.eq_or_lt_of_le hfrom with heq | hlt
  · rw [← hc.opener.eq ht heq, hc.openerKind]
    rfl
  · rcases Nat.eq_or_lt_of_le hto with heq | hlt'
    · rw [ht.eq hc.closer heq, hc.closerKind]
      rfl
    · rcases hc.kind ht hlt hlt' with h | h | h | h <;> rw [h] <;> rfl

/-- Comments that share a token are one comment. -/
theorem eq_of_mem {d : CommentSpan} (hc : s.Frames c) (hd : s.Frames d)
    (hfrom : c.opener.index ≤ t.index) (hto : t.index ≤ c.closer.index)
    (hfrom' : d.opener.index ≤ t.index) (hto' : t.index ≤ d.closer.index) : c = d := by
  have hle : ∀ {c d : CommentSpan}, s.Frames c → s.Frames d → t.index ≤ c.closer.index →
      d.opener.index ≤ t.index → d.opener.index ≤ c.opener.index := by
    intro c d hc hd hto hfrom
    by_contra hlt
    rcases Nat.eq_or_lt_of_le (Nat.le_trans hfrom hto) with heq | hinside
    · have hkind := congrArg Token.kind (hd.opener.eq hc.closer heq)
      rw [hd.openerKind, hc.closerKind] at hkind
      cases hkind
    · have hkind := hc.kind hd.opener (by omega) hinside
      rw [hd.openerKind] at hkind
      simp at hkind
  exact hc.eq hd (hc.opener.eq hd.opener
    (Nat.le_antisymm (hle hd hc hto' hfrom) (hle hc hd hto hfrom')))

/-- Apart from the blanks, the tokens of a comment hold no line break. -/
theorem unbroken (hc : s.Frames c) (ht : s.Has t) (hfrom : c.opener.index ≤ t.index)
    (hto : t.index ≤ c.closer.index) (hkind : t.kind ≠ .docBlank) : Unbroken t.text.toList := by
  rcases Nat.eq_or_lt_of_le hfrom with heq | hfrom
  · rw [← hc.opener.eq ht heq, hc.openerText]
    exact unbroken_open
  · rcases Nat.eq_or_lt_of_le hto with heq | hto
    · rw [ht.eq hc.closer heq, hc.closerText]
      exact unbroken_close
    · obtain ⟨_, _, _, _, move, _⟩ := hc.exists_move ht hfrom hto
      exact move.unbroken hkind

/-- The tokens of a comment end at most one line each. -/
theorem short (hc : s.Frames c) (ht : s.Has t) (hfrom : c.opener.index ≤ t.index)
    (hto : t.index ≤ c.closer.index) : t.Short := by
  by_cases hkind : t.kind = .docBlank
  · have hlt : c.opener.index < t.index := by
      rcases Nat.eq_or_lt_of_le hfrom with heq | hlt
      · rw [← hc.opener.eq ht heq, hc.openerKind] at hkind
        cases hkind
      · exact hlt
    have hgt : t.index < c.closer.index := by
      rcases Nat.eq_or_lt_of_le hto with heq | hgt
      · rw [ht.eq hc.closer heq, hc.closerKind] at hkind
        cases hkind
      · exact hgt
    obtain ⟨_, _, _, _, move, _⟩ := hc.exists_move ht hlt hgt
    exact Token.short_of_lined move.lined
  · exact Token.short_of_unbroken (hc.unbroken ht hfrom hto hkind)

/-- The close marker, and everything behind a token of a comment that ends no line, goes on with the
line of that token. -/
theorem line_next (hs : s.Placed) (hc : s.Frames c) (ht : s.Has t) (hu : s.Has u)
    (hindex : u.index = t.index + 1) (hfrom : c.opener.index ≤ t.index)
    (hto : t.index ≤ c.closer.index) (hkind : t.kind ≠ .docBlank) :
    u.line = t.line ∧ u.column = t.column + t.text.length :=
  hs.unbroken_next ht hu hindex (hc.unbroken ht hfrom hto hkind)

/-- A token behind a line break stands on a later line. -/
theorem line_lt_of_ending (hs : s.Placed) (ht : s.Has t) (hu : s.Has u) (hlt : t.index < u.index)
    (hending : IsEnding t.text.toList) : t.line < u.line := by
  obtain ⟨v, hv, hindex⟩ := hs.has_of_le (i := t.index + 1) hu hlt
  have hpos := hs.position_next ht hv hindex
  rw [Position.advance_ending _ hending] at hpos
  have hline : v.line = t.line + 1 := congrArg Position.line hpos
  have := hs.line_le hv hu (by omega)
  omega

/-- A string is the last content of its line. -/
theorem line_lt_of_string (hs : s.Placed) (hc : s.Frames c) (ht : s.Has t) (hu : s.Has u)
    (hfrom : c.opener.index < t.index) (hto : u.index < c.closer.index)
    (hstring : t.kind = .docString) (hcontent : u.kind.isDocContent = true)
    (hlt : t.index < u.index) : t.line < u.line := by
  obtain ⟨p, q, r, -, move, hrest⟩ := hc.exists_move ht hfrom (by omega)
  rw [between_split hu hlt hto, List.map_append, List.map_cons] at hrest
  obtain ⟨q', hbetween, hafter⟩ := hrest.split
  have hq : q.isWritten = true := by
    rw [move.eq_written hstring]
    rfl
  have hq' : q'.isWritten = false := by
    cases hafter with
    | cons move' apart rest => exact move'.not_isWritten hcontent
  obtain ⟨l, hl, -, hending⟩ := hbetween.exists_ending hq hq'
  obtain ⟨v, hv, rfl⟩ := List.mem_map.1 hl
  obtain ⟨hv, htv, hvu⟩ := hs.mem_between.1 hv
  have hlast := line_lt_of_ending hs hv hu hvu hending
  have hfirst := hs.line_le ht hv (by omega)
  omega

/-- The token of the comment in front of an index, by the line grammar. -/
theorem exists_previous (ht : s.Has t) (hfrom : c.opener.index < t.index) {i : Nat}
    (hindex : i = t.index + 1) {p : Spot}
    (hrun : Run .opened ((s.between (c.opener.index + 1) i).map Token.lexeme) p) :
    ∃ q, Run .opened ((s.between (c.opener.index + 1) t.index).map Token.lexeme) q ∧
      Move q t.lexeme p := by
  rw [hindex, between_append (j := t.index) (by omega) (by omega),
    between_cons ht (Nat.lt_succ_self _), between_eq_nil (Nat.le_refl _)] at hrun
  rw [List.map_append] at hrun
  obtain ⟨q, hfront, hlast⟩ := hrun.split
  cases hlast with
  | cons move apart rest =>
      cases rest
      exact ⟨q, hfront, move⟩

/-- The break at the end of a line ends the line. -/
theorem endsLine_of_isEnding {text : String} (h : IsEnding text.toList) : endsLine text = true := by
  unfold endsLine
  rcases h with h | h | h <;> rw [h] <;> rfl

/-- Spaces and tabs do not end a line. -/
theorem endsLine_of_blank {text : String} (h : ∀ c ∈ text.toList, isBlank c = true) :
    endsLine text = false := by
  unfold endsLine
  split
  · next c hc => exact isLineBreak_of_isBlank (h c (List.mem_of_getLast? hc))
  · rfl

/-- A token at the start of a line has no indentation. -/
theorem lineIndent?_of_lineStart (hs : s.Placed) (hu : s.Has u)
    (hfrom : c.opener.index < u.index)
    (hrun : Run .opened ((s.between (c.opener.index + 1) u.index).map Token.lexeme) .lineStart) :
    s.lineIndent? u.index = some none := by
  obtain ⟨t, ht, hindex⟩ := hs.has_of_le (i := u.index - 1) hu (by omega)
  have hlt : c.opener.index < t.index := by
    by_contra hnot
    rw [between_eq_nil (by omega)] at hrun
    cases hrun
  obtain ⟨q, -, move⟩ := exists_previous ht hlt (by omega) hrun
  have hends : endsLine t.text = true := endsLine_of_isEnding move.of_lineStart.2
  have hbefore : s.before? u.index = some t := hs.before?.2 ⟨ht, by omega⟩
  simp only [lineIndent?, hbefore]
  rw [if_pos hends]

/-- A token behind the indentation of its line is indented by it. -/
theorem lineIndent?_of_indented (hs : s.Placed) (hu : s.Has u)
    (hfrom : c.opener.index < u.index)
    (hrun : Run .opened ((s.between (c.opener.index + 1) u.index).map Token.lexeme) .indented) :
    ∃ t, s.Has t ∧ t.index + 1 = u.index ∧ c.opener.index < t.index ∧
      s.lineIndent? u.index = some (some t) := by
  obtain ⟨t, ht, hindex⟩ := hs.has_of_le (i := u.index - 1) hu (by omega)
  have hlt : c.opener.index < t.index := by
    by_contra hnot
    rw [between_eq_nil (by omega)] at hrun
    cases hrun
  obtain ⟨q, hfront, move⟩ := exists_previous ht hlt (by omega) hrun
  obtain ⟨rfl, hkind, hblank⟩ := move.of_indented
  obtain ⟨w, hw, hwindex⟩ := hs.has_of_le (i := t.index - 1) ht (by omega)
  have hltw : c.opener.index < w.index := by
    by_contra hnot
    rw [between_eq_nil (by omega)] at hfront
    cases hfront
  obtain ⟨_, -, move'⟩ := exists_previous hw hltw (by omega) hfront
  have hends : endsLine w.text = true := endsLine_of_isEnding move'.of_lineStart.2
  have hno : endsLine t.text = false := endsLine_of_blank hblank
  have hbeforeU : s.before? u.index = some t := hs.before?.2 ⟨ht, by omega⟩
  have hbeforeT : s.before? t.index = some w := hs.before?.2 ⟨hw, by omega⟩
  have hkind' : (t.kind == .docBlank) = true := by simpa using hkind
  refine ⟨t, ht, by omega, hlt, ?_⟩
  simp only [lineIndent?, hbeforeU, hbeforeT, hno, hkind', hends]
  rfl

/-- A star leads its line. -/
theorem lineIndent?_of_star (hs : s.Placed) (hc : s.Frames c) (ht : s.Has t)
    (hfrom : c.opener.index < t.index) (hto : t.index < c.closer.index)
    (hstar : t.kind = .docStar) : ∃ indent, s.lineIndent? t.index = some indent := by
  obtain ⟨p, q, r, hfront, move, -⟩ := hc.exists_move ht hfrom hto
  rcases move.takesStar hstar with rfl | rfl
  · exact ⟨none, lineIndent?_of_lineStart hs ht hfrom hfront⟩
  · obtain ⟨b, -, -, -, hb⟩ := lineIndent?_of_indented hs ht hfrom hfront
    exact ⟨some b, hb⟩

end Stream.Frames

end PhpDoc
