import PhpDoc.Proofs.Comment.Keep
import PhpDoc.Proofs.Token.Position

/-!
# Slashes in comments

A slash closes a comment when a star stands in front of it, and it comes to stand behind one when
what is in front of it on its line is dropped. A slash with content in front of it that does not end
with a star is guarded against both (`Lexer.Guarded`). Guarded texts may be put together
(`Guarded.append`), and they may stand between the markers of a comment (`Guarded.closed`).
`Stream.Guards` says which texts may be written for one token of a comment so that the slashes of
the comment stay guarded.
-/

namespace PhpDoc

open Text Lexer

namespace Lexer

/-- A slash behind the text closes no comment, and it would close none if the blanks in front of it
were dropped: the text does not end with a star, and its last line holds more than stars and
blanks. -/
structure Shields (front : List Char) : Prop where
  last : front.getLast? ≠ some '*'
  line : ∃ c ∈ lastLine front, isBlank c = false ∧ c ≠ '*'

/-- Every slash of the text is shielded by what stands in front of it. -/
def Guarded (cs : List Char) : Prop :=
  ∀ front back, cs = front ++ '/' :: back → Shields front

variable {cs ds front : List Char}

/-- Whether a text shields what follows can be read off its last line and its last character. -/
theorem shields_iff : Shields front ↔
    (front.getLast? != some '*' &&
      (lastLine front).any fun c => !isBlank c && c != '*') = true := by
  simp only [Bool.and_eq_true, bne_iff_ne, List.any_eq_true, Bool.not_eq_true']
  exact ⟨fun h => ⟨h.last, h.line⟩, fun h => ⟨h.1, h.2⟩⟩

/-- Whether a text shields what follows is read off its end. -/
instance : Decidable (Shields front) :=
  decidable_of_iff _ shields_iff.symm

/-- The slashes of a text are found by their offsets. -/
theorem guarded_iff :
    Guarded cs ↔ ∀ i < cs.length, cs[i]? = some '/' → Shields (cs.take i) := by
  constructor
  · intro h i hi hslash
    obtain ⟨hlt, hget⟩ := List.getElem?_eq_some_iff.1 hslash
    refine h _ (cs.drop (i + 1)) ?_
    rw [← hget, List.cons_getElem_drop_succ, List.take_append_drop]
  · rintro h front back rfl
    simpa using h front.length (by simp) (by simp)

/-- Whether a text is guarded is found by trying each of its slashes. -/
instance : Decidable (Guarded cs) :=
  decidable_of_iff _ guarded_iff.symm

/-- The empty text shields nothing: a slash at the start could close a comment. -/
theorem not_shields_nil : ¬ Shields [] := by
  rintro ⟨-, c, hc, -⟩
  cases hc

/-- What stands further in front does not matter. -/
theorem Shields.append_left (h : Shields ds) (cs : List Char) : Shields (cs ++ ds) := by
  have hne : ds ≠ [] := by
    rintro rfl
    exact not_shields_nil h
  refine ⟨by rw [List.getLast?_append_of_ne_nil _ hne]; exact h.last, ?_⟩
  obtain ⟨c, hc, hcontent⟩ := h.line
  rw [lastLine_append]
  split
  · next hunbroken =>
      rw [lastLine_of_unbroken hunbroken] at hc
      exact ⟨c, List.mem_append_right _ hc, hcontent⟩
  · exact ⟨c, hc, hcontent⟩

/-- A line with a character of content shields when no star ends it. -/
theorem shields_cons {c : Char} (hblank : isBlank c = false) (hstar : c ≠ '*')
    (hunbroken : Unbroken (c :: cs)) (hlast : cs.getLast? ≠ some '*') : Shields (c :: cs) := by
  refine ⟨?_, c, by simp [lastLine_of_unbroken hunbroken], hblank, hstar⟩
  cases cs with
  | nil => simpa using hstar
  | cons d cs => rwa [List.getLast?_cons_cons]

/-- A text without slashes is guarded. -/
theorem guarded_of_not_mem (h : '/' ∉ cs) : Guarded cs := by
  rintro front back rfl
  exact absurd (by simp) h

/-- Guarded texts may be put together. -/
theorem Guarded.append (h : Guarded cs) (h' : Guarded ds) : Guarded (cs ++ ds) := by
  intro front back heq
  rcases List.append_eq_append_iff.1 heq with ⟨rest, rfl, hds⟩ | ⟨rest, hcs, hrest⟩
  · exact (h' rest back hds).append_left cs
  · cases rest with
    | nil => exact absurd (h' [] back (by simpa using hrest.symm)) not_shields_nil
    | cons d rest =>
        obtain ⟨rfl, -⟩ := List.cons.inj hrest
        exact h front rest hcs

/-- A guarded text may stand between the markers of a comment. -/
theorem Guarded.closed (h : Guarded cs) : Closed cs where
  unclosed := by
    rintro ⟨front, back, rfl⟩
    exact (h (front ++ ['*']) back (by simp)).last (by simp)
  start := by
    intro hstart
    obtain ⟨back, rfl⟩ := List.head?_eq_some_iff.1 hstart
    exact not_shields_nil (h [] back rfl)

/-- The slashes of a text that starts a line are shielded by the text itself. -/
theorem Guarded.of_append (h : Guarded (front ++ cs ++ ds)) (hunbroken : Unbroken cs)
    (hfront : ∀ c ∈ lastLine front, isBlank c = true ∨ c = '*') : Guarded cs := by
  rintro lead back rfl
  have hshields := h (front ++ lead) (back ++ ds) (by simp)
  have hlead := (unbroken_append.1 hunbroken).1
  obtain ⟨c, hc, hblank, hstar⟩ := hshields.line
  rw [lastLine_append, if_pos hlead, List.mem_append] at hc
  have hmem : c ∈ lead := by
    refine hc.resolve_left fun hc => ?_
    rcases hfront c hc with h | h
    · rw [hblank] at h
      cases h
    · exact hstar h
  refine ⟨?_, c, by rwa [lastLine_of_unbroken hlead], hblank, hstar⟩
  have hlast := hshields.last
  rwa [List.getLast?_append_of_ne_nil _ (List.ne_nil_of_mem hmem)] at hlast

/-! ## Characters of appended texts -/

/-- A character behind a text without it is a character of what follows. -/
theorem exists_of_append_left {pre lead tail : List Char} {d : Char}
    (h : lead ++ d :: tail = pre ++ cs) (hpre : d ∉ pre) :
    ∃ inner, cs = inner ++ d :: tail ∧ lead = pre ++ inner := by
  rcases List.append_eq_append_iff.1 h with ⟨rest, rfl, hrest⟩ | ⟨rest, rfl, hrest⟩
  · cases rest with
    | nil => exact ⟨[], hrest.symm, by simp⟩
    | cons e rest =>
        obtain ⟨rfl, -⟩ := List.cons.inj hrest
        exact absurd (by simp) hpre
  · exact ⟨rest, hrest, rfl⟩

/-- A character in front of a text without it is a character of what stands there. -/
theorem exists_of_append_right {post lead tail : List Char} {d : Char}
    (h : lead ++ d :: tail = cs ++ post) (hpost : d ∉ post) : ∃ rest, cs = lead ++ d :: rest := by
  rcases List.append_eq_append_iff.1 h with ⟨rest, rfl, hrest⟩ | ⟨rest, rfl, hrest⟩
  · cases rest with
    | nil => exact absurd (by simp [← (show d :: tail = post from hrest)]) hpost
    | cons e rest =>
        obtain ⟨rfl, -⟩ := List.cons.inj hrest
        exact ⟨rest, rfl⟩
  · exact absurd (hrest ▸ by simp) hpost

/-! ## Slashes and the line grammar -/

/-- Behind a line break the last line is empty. -/
theorem lastLine_of_isEnding (h : IsEnding cs) : lastLine cs = [] := by
  rcases h with rfl | rfl | rfl <;> rfl

variable {p q : Spot} {l : Lexeme}

/-- Only a tag leads to the spot behind a tag. -/
theorem Move.of_tagged (h : Move p l .tagged) : l.kind = .docTag ∧ p.takesTag = true := by
  cases h with
  | blank next => cases p <;> cases next
  | tag takes => exact ⟨rfl, takes⟩

/-- Only a blank leads to the spot behind the padding of a tag. -/
theorem Move.of_padded (h : Move p l .padded) :
    p = .tagged ∧ l.kind = .docBlank ∧ IsBlanks l.text.toList := by
  cases h with
  | blank next nonempty blanks =>
      refine ⟨?_, rfl, by rwa [String.toList_ofList]⟩
      cases p <;> cases next
      rfl

/-- No filler holds a slash. -/
theorem Move.not_mem_of_filler (h : Move p l q) (hkind : l.kind.isFiller = true) :
    '/' ∉ l.text.toList := by
  cases h with
  | blank next nonempty blanks =>
      rw [String.toList_ofList]
      exact IsBlanks.not_mem blanks (by decide)
  | ending ending =>
      rw [String.toList_ofList]
      exact ending.not_mem (by decide)
  | star => decide
  | tag => cases hkind
  | string => cases hkind

/-- Content that does not start its line is the value of a tag. -/
theorem Move.spot_of_value (h : Move p l q) (hcontent : l.kind.isDocContent = true)
    (htakes : p.takesTag = false) : p = .tagged ∨ p = .padded := by
  cases h with
  | blank => cases hcontent
  | ending => cases hcontent
  | star => cases hcontent
  | tag takes =>
      rw [takes] at htakes
      cases htakes
  | string string fits =>
      obtain ⟨-, -, -, hwritten, htrailed⟩ := fits
      cases p <;> simp_all [Spot.takesTag]

/-- A tag is an at sign with a name, in which there is no star. -/
theorem Move.exists_name (h : Move p l q) (hkind : l.kind = .docTag) :
    ∃ name, l.text.toList = '@' :: name ∧ Unbroken name ∧ '*' ∉ name := by
  cases h with
  | tag takes whole =>
      obtain ⟨name, heq, -, hname⟩ := isTag_iff.2 whole
      refine ⟨name, by simpa using heq, fun c hc => ?_, fun hstar => ?_⟩
      · by_contra hbreak
        have hpart := isTagPart_of_isLineBreak (by simpa using hbreak : isLineBreak c = true)
        rw [hname c hc] at hpart
        cases hpart
      · exact absurd (hname '*' hstar) (by decide)
  | blank => cases hkind
  | ending => cases hkind
  | star => cases hkind
  | string => cases hkind

/-- In front of a spot that takes a tag the line holds stars and blanks only. -/
theorem Run.lastLine_of_takesTag {ls : List Lexeme} (h : Run p ls q) (hq : q.takesTag = true)
    (hfront : p.takesTag = true → ∀ c ∈ lastLine front, isBlank c = true ∨ c = '*') :
    ∀ c ∈ lastLine (front ++ charsOf ls), isBlank c = true ∨ c = '*' := by
  induction h generalizing front with
  | nil => simpa using hfront hq
  | @cons p q r l ls step apart rest ih =>
      rw [charsOf_cons, ← List.append_assoc]
      refine ih hq fun htakes => ?_
      cases step with
      | blank next nonempty blanks =>
          have hp : p.takesTag = true := by
            cases p <;> cases next <;> first | rfl | cases htakes
          rw [String.toList_ofList, lastLine_append, if_pos (unbroken_of_blank blanks)]
          intro c hc
          exact (List.mem_append.1 hc).elim (hfront hp c) fun hc => .inl (blanks c hc)
      | ending ending =>
          rw [String.toList_ofList, lastLine_append, if_neg ending.not_unbroken,
            lastLine_of_isEnding ending]
          simp
      | star takes =>
          have hp : p.takesTag = true := by
            cases p <;> first | rfl | cases takes
          rw [lastLine_append, if_pos unbroken_star]
          intro c hc
          exact (List.mem_append.1 hc).elim (hfront hp c) fun hc => .inr (by simpa using hc)
      | tag => cases htakes
      | string => cases htakes

end Lexer

/-! ## Texts for a token -/

namespace Stream

variable {s : Stream} {c : CommentSpan} {t : Token} {cs lead tail : List Char} {p : Spot}

/-- The text may be written for the token of the comment: it brings no slash behind the open marker,
in front of the close marker, to the start of a line or behind a star. What starts a line may get
other text in front of it, and other text behind it if nothing follows it on its line. -/
structure Guards (s : Stream) (c : CommentSpan) (t : Token) (cs : List Char) : Prop where
  opener : t.kind = .docOpen → ∃ tail, cs = t.text.toList ++ tail ∧ '/' ∉ tail
  closer : t.kind = .docClose → ∃ lead, cs = lead ++ t.text.toList ∧ '/' ∉ lead
  filler : t.kind.isFiller = true → '/' ∉ cs
  padding : t.kind = .docBlank → c.SpotAt s (t.index + 1) .padded →
    ∀ d ∈ cs, isLineBreak d = false ∧ d ≠ '*'
  first : t.kind.isDocContent = true → ∀ p, c.SpotAt s t.index p → p.takesTag = true →
    ∃ lead tail, cs = lead ++ t.text.toList ++ tail ∧ '/' ∉ lead ∧ '/' ∉ tail ∧
      (tail = [] ∨ ∀ u, c.Contains s u → t.index < u.index → t.line < u.line)
  value : t.kind.isDocContent = true → ∀ p, c.SpotAt s t.index p → p.takesTag = false →
    ∃ line tail, cs = line ++ tail ∧ Unbroken line ∧ Unclosed line ∧ '/' ∉ tail

/-- A filler may be written without slashes, and the padding of a tag without stars and line breaks,
too. -/
theorem guards_filler (hkind : t.kind.isFiller = true) (hslash : '/' ∉ cs)
    (hpadding : t.kind = .docBlank → c.SpotAt s (t.index + 1) .padded →
      ∀ d ∈ cs, isLineBreak d = false ∧ d ≠ '*') : s.Guards c t cs := by
  have hcontent := Kind.isDocContent_of_isFiller hkind
  refine ⟨fun h => ?_, fun h => ?_, fun _ => hslash, hpadding, fun h => ?_, fun h => ?_⟩
  · rw [h] at hkind
    cases hkind
  · rw [h] at hkind
    cases hkind
  · rw [hcontent] at h
    cases h
  · rw [hcontent] at h
    cases h

/-- Content is guarded when it is written in full without slashes around it where a tag may start,
and as one unclosed line with a tail without slashes elsewhere. -/
theorem guards_content (hkind : t.kind.isDocContent = true)
    (first : ∀ p, c.SpotAt s t.index p → p.takesTag = true →
      ∃ lead tail, cs = lead ++ t.text.toList ++ tail ∧ '/' ∉ lead ∧ '/' ∉ tail ∧
        (tail = [] ∨ ∀ u, c.Contains s u → t.index < u.index → t.line < u.line))
    (value : ∀ p, c.SpotAt s t.index p → p.takesTag = false →
      ∃ line tail, cs = line ++ tail ∧ Unbroken line ∧ Unclosed line ∧ '/' ∉ tail) :
    s.Guards c t cs := by
  refine ⟨fun h => ?_, fun h => ?_, fun h => ?_, fun h => ?_, fun _ => first, fun _ => value⟩
  · rw [h] at hkind
    cases hkind
  · rw [h] at hkind
    cases hkind
  · rw [Kind.isFiller_of_isDocContent hkind] at h
    cases h
  · rw [h] at hkind
    cases hkind

/-- An open marker is guarded when no slash is put behind it. -/
theorem guards_opener (hkind : t.kind = .docOpen) (htail : '/' ∉ tail) :
    s.Guards c t (t.text.toList ++ tail) := by
  refine ⟨fun _ => ⟨tail, rfl, htail⟩, ?_, ?_, ?_, ?_, ?_⟩ <;> rw [hkind] <;> intro h <;> cases h

/-- A close marker is guarded when no slash is put in front of it. -/
theorem guards_closer (hkind : t.kind = .docClose) (hlead : '/' ∉ lead) :
    s.Guards c t (lead ++ t.text.toList) := by
  refine ⟨?_, fun _ => ⟨lead, rfl, hlead⟩, ?_, ?_, ?_, ?_⟩ <;> rw [hkind] <;> intro h <;> cases h

/-- A blank may be replaced by white space on one line. -/
theorem guards_blanks (hkind : t.kind = .docBlank) (hspace : ∀ d ∈ cs, isCodeSpace d = true)
    (hline : Unbroken cs) : s.Guards c t cs := by
  have hno : ∀ {d}, isCodeSpace d = false → d ∉ cs := by
    intro d hd hmem
    rw [hspace d hmem] at hd
    cases hd
  refine guards_filler (by rw [hkind]; rfl) (hno (by decide)) fun _ _ d hd => ⟨hline d hd, ?_⟩
  rintro rfl
  exact hno (by decide) hd

/-- The first content of a line may get text without slashes in front of it. -/
theorem guards_before (ht : t.kind.isDocContent = true) (hp : c.SpotAt s t.index p)
    (htakes : p.takesTag = true) (hlead : '/' ∉ lead) :
    s.Guards c t (lead ++ t.text.toList) := by
  refine guards_content ht (fun p _ _ => ⟨lead, [], by simp, hlead, by simp, .inl rfl⟩)
    fun q hq hnot => ?_
  rw [hq.unique hp, htakes] at hnot
  cases hnot

/-- What does not stand at the start of its line may be written anew without close markers, on one
line. -/
theorem guards_value (ht : t.kind.isDocContent = true) (hp : c.SpotAt s t.index p)
    (htakes : p.takesTag = false) (hline : Unbroken cs) (hunclosed : Unclosed cs) :
    s.Guards c t cs := by
  refine guards_content ht (fun q hq hnot => ?_)
    fun q _ _ => ⟨cs, [], by simp, hline, hunclosed, by simp⟩
  rw [hq.unique hp, htakes] at hnot
  cases hnot

namespace Frames

/-- Content stands on one line. -/
theorem unbroken_content (hc : s.Frames c) (ht : c.Contains s t) : Unbroken t.text.toList := by
  refine hc.unbroken ht.has (Nat.le_of_lt ht.opener_lt) (Nat.le_of_lt ht.lt_closer) ?_
  intro hkind
  have hcontent := ht.content
  rw [hkind] at hcontent
  cases hcontent

/-- A token of a comment holds no close marker. -/
theorem unclosed_text (hc : s.Frames c) (ht : c.Contains s t) : Unclosed t.text.toList := by
  have h := hc.unclosed_lexemes (i := t.index) (j := t.index + 1) ht.opener_lt (Nat.le_succ _)
    ht.lt_closer
  rw [lexemes_single ht.has] at h
  simpa using h

/-- A token may be written as it stands. -/
theorem guards_text (hc : s.Frames c) (ht : s.Has t) (hfrom : c.opener.index ≤ t.index)
    (hto : t.index ≤ c.closer.index) : s.Guards c t t.text.toList := by
  rcases Nat.eq_or_lt_of_le hfrom with hopener | hfrom
  · obtain rfl := hc.opener.eq ht hopener
    have hopen : s.Guards c c.opener (c.opener.text.toList ++ []) :=
      guards_opener hc.openerKind (by simp)
    rwa [List.append_nil] at hopen
  rcases Nat.eq_or_lt_of_le hto with hcloser | hto
  · obtain rfl := ht.eq hc.closer hcloser
    exact guards_closer hc.closerKind (by simp : '/' ∉ [])
  by_cases hcontent : t.kind.isDocContent = true
  · have ht : c.Contains s t := ⟨ht, hfrom, hto, hcontent⟩
    exact guards_content hcontent (fun p _ _ => ⟨[], [], by simp, by simp, by simp, .inl rfl⟩)
      fun p _ _ => ⟨_, [], by simp, hc.unbroken_content ht, hc.unclosed_text ht, by simp⟩
  · have hfiller : t.kind.isFiller = true := by
      by_contra hnot
      exact hcontent ((hc.isFiller_eq_false ht hfrom hto).1 (by simpa using hnot))
    obtain ⟨p, q, r, -, hmove, -⟩ := hc.exists_move ht hfrom hto
    refine guards_filler hfiller (hmove.not_mem_of_filler hfiller) fun _ hpadded => ?_
    obtain ⟨q, -, hmove'⟩ := exists_previous ht hfrom rfl hpadded
    obtain ⟨-, -, hblanks⟩ := hmove'.of_padded
    refine fun d hd => ⟨unbroken_of_blank hblanks d hd, ?_⟩
    rintro rfl
    exact hblanks.not_mem (by decide) hd

/-- The last content of a line may get text without slashes behind it. -/
theorem guards_behind (hc : s.Frames c) (ht : c.Contains s t) (htail : '/' ∉ tail)
    (hlast : ∀ u, c.Contains s u → t.index < u.index → t.line < u.line) :
    s.Guards c t (t.text.toList ++ tail) :=
  guards_content ht.content (fun p _ _ => ⟨[], tail, by simp, by simp, htail, .inr hlast⟩)
    fun p _ _ => ⟨_, tail, rfl, hc.unbroken_content ht, hc.unclosed_text ht, htail⟩

/-! ## Lines of a comment -/

/-- The text of a token that takes the place of the first content of its line is guarded, when the
text of the comment is. -/
theorem guarded_text (hc : s.Frames c) (h : Guarded (s.innerText c))
    (ht : c.Contains s t) (hp : c.SpotAt s t.index p) (htakes : p.takesTag = true) :
    Guarded t.text.toList := by
  have hinside : s.inside c = s.between (c.opener.index + 1) t.index ++
      t :: s.between (t.index + 1) c.closer.index :=
    between_split ht.has ht.opener_lt ht.lt_closer
  have hlast : ∀ d ∈ lastLine ([] ++ charsOf _), isBlank d = true ∨ d = '*' :=
    Run.lastLine_of_takesTag hp htakes fun _ => by simp [lastLine]
  rw [Stream.innerText, hinside, List.map_append, List.map_cons, charsOf_append, charsOf_cons,
    ← List.append_assoc] at h
  exact h.of_append (hc.unbroken_content ht) hlast

/-- In front of a spot within a line there is the token that leads to it. -/
theorem exists_before (hs : s.Placed) (hc : s.Frames c) {i : Nat} (hto : i ≤ c.closer.index)
    (hfrom : c.opener.index < i) (hp : c.SpotAt s i p) (hne : p ≠ .opened) :
    ∃ u q, s.Has u ∧ c.opener.index < u.index ∧ u.index + 1 = i ∧ c.SpotAt s u.index q ∧
      Move q u.lexeme p := by
  obtain ⟨u, hu, hindex⟩ := hs.has_of_le (i := i - 1) hc.closer (by omega)
  have hlt : c.opener.index < u.index := by
    by_contra hnot
    obtain rfl : i = c.opener.index + 1 := by omega
    exact hne (hp.unique (spotAt_opened s c))
  obtain ⟨q, hq, hmove⟩ := exists_previous hu hlt (show i = u.index + 1 by omega) hp
  exact ⟨u, q, hu, hlt, by omega, hq, hmove⟩

/-- The token in front of the spot behind a tag is a tag. -/
theorem exists_tag (hs : s.Placed) (hc : s.Frames c) {i : Nat} (hto : i ≤ c.closer.index)
    (hfrom : c.opener.index < i) (hi : c.SpotAt s i .tagged) :
    ∃ tag q, c.Contains s tag ∧ tag.kind = .docTag ∧ tag.index + 1 = i ∧
      c.SpotAt s tag.index q ∧ q.takesTag = true := by
  obtain ⟨tag, q, htag, hlt, hindex, hq, hmove⟩ := hc.exists_before hs hto hfrom hi (by decide)
  obtain ⟨hkind, htakes⟩ := hmove.of_tagged
  rw [Token.lexeme_kind] at hkind
  exact ⟨tag, q, ⟨htag, hlt, by omega, by rw [hkind]; rfl⟩, hkind, hindex, hq, htakes⟩

/-- In front of a string that does not start its line stands the tag of the line, with at most a
blank in between. -/
theorem exists_tag_of_value (hs : s.Placed) (hc : s.Frames c) (ht : c.Contains s t)
    (hp : c.SpotAt s t.index p) (htakes : p.takesTag = false) :
    ∃ tag q, c.Contains s tag ∧ tag.kind = .docTag ∧ tag.index < t.index ∧ tag.line = t.line ∧
      c.SpotAt s tag.index q ∧ q.takesTag = true ∧
      (tag.index + 1 = t.index ∨ ∃ blank, s.Has blank ∧ blank.kind = .docBlank ∧
        tag.index + 1 = blank.index ∧ blank.index + 1 = t.index ∧
        c.SpotAt s (blank.index + 1) .padded) := by
  have hline : ∀ {tag u : Token}, c.Contains s tag → tag.kind = .docTag → s.Has u →
      tag.index + 1 = u.index → u.line = tag.line := by
    intro tag u htag hkind hu hindex
    exact (hc.line_next hs htag.has hu hindex.symm (Nat.le_of_lt htag.opener_lt)
      (Nat.le_of_lt htag.lt_closer) (by rw [hkind]; decide)).1
  obtain ⟨q, hmove, -⟩ := hc.move_of_spotAt ht.has ht.opener_lt ht.lt_closer hp
  have hto := ht.lt_closer
  rcases hmove.spot_of_value ht.content htakes with rfl | rfl
  · obtain ⟨tag, q, htag, hkind, hindex, hq, htakes⟩ :=
      hc.exists_tag hs (Nat.le_of_lt hto) ht.opener_lt hp
    exact ⟨tag, q, htag, hkind, by omega, (hline htag hkind ht.has hindex).symm, hq, htakes,
      .inl hindex⟩
  · obtain ⟨blank, q, hblank, hlt, hindex, hq, hmove'⟩ :=
      hc.exists_before hs (Nat.le_of_lt hto) ht.opener_lt hp (by decide)
    obtain ⟨rfl, hblankKind, hblanks⟩ := hmove'.of_padded
    obtain ⟨tag, q, htag, hkind, hindex', hq', htakes⟩ :=
      hc.exists_tag hs (i := blank.index) (by omega) hlt hq
    have hsame := hline htag hkind hblank hindex'
    have hsame' := (hs.unbroken_next hblank ht.has hindex.symm (unbroken_of_blank hblanks)).1
    exact ⟨tag, q, htag, hkind, by omega, by omega, hq', htakes,
      .inr ⟨blank, hblank, hblankKind, hindex', hindex, hindex ▸ hp⟩⟩

end Frames

end Stream

end PhpDoc
