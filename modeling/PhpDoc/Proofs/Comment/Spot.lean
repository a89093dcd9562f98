import Mathlib.Data.Nat.Find
import PhpDoc.Proofs.Comment.Geometry
import PhpDoc.Proofs.Token.Row

/-!
# Spots and lines of a comment

Every token of a comment has a spot in the line grammar (`CommentSpan.SpotAt`), and every line that
a comment reaches below another one has a first token (`Stream.FirstOn`), which stands at the start
of a line. So the lines between two tokens are a range of tokens that starts and ends at line starts
(`Stream.Frames.exists_firstOn`).
-/

namespace PhpDoc

open Text Lexer

/-- The token at the index of the comment stands at the spot of its line. -/
def CommentSpan.SpotAt (s : Stream) (c : CommentSpan) (i : Nat) (p : Spot) : Prop :=
  Run .opened ((s.between (c.opener.index + 1) i).map Token.lexeme) p

/-- The tokens with indices from `i` up to, but not including, `j` are stars and blanks. -/
def Stream.Vacant (s : Stream) (i j : Nat) : Prop :=
  ∀ t, s.Has t → i ≤ t.index → t.index < j → t.kind.isFiller = true

/-- The token is a tag or a string of the comment. -/
structure CommentSpan.Contains (s : Stream) (c : CommentSpan) (t : Token) : Prop where
  has : s.Has t
  opener_lt : c.opener.index < t.index
  lt_closer : t.index < c.closer.index
  content : t.kind.isDocContent = true

/-- The token is the first one of the stream on the line. -/
structure Stream.FirstOn (s : Stream) (t : Token) (line : Nat) : Prop where
  has : s.Has t
  line_eq : t.line = line
  lt_iff : ∀ {u}, s.Has u → (u.index < t.index ↔ u.line < line)

namespace Lexer

/-- Blanks and stars lead to no spot where the line has content. -/
theorem Run.takesTag {p q : Spot} {ls : List Lexeme} (h : Run p ls q) (hp : p.takesTag = true)
    (hls : ∀ l ∈ ls, l.kind.isFiller = true) : q.takesTag = true := by
  induction h with
  | nil => exact hp
  | @cons p q r l ls step apart rest ih =>
      obtain ⟨hl, hls⟩ := List.forall_mem_cons.1 hls
      refine ih ?_ hls
      cases step with
      | blank next =>
          cases p <;> cases hp <;> cases next <;> rfl
      | ending => rfl
      | star => rfl
      | tag => cases hl
      | string => cases hl

/-- A tag stands where its line takes one. -/
theorem Move.takesTag {p q : Spot} {l : Lexeme} (h : Move p l q) (hkind : l.kind = .docTag) :
    p.takesTag = true := by
  cases h with
  | tag takes => exact takes
  | blank => cases hkind
  | ending => cases hkind
  | star => cases hkind
  | string => cases hkind

/-- Behind content its line takes no tag. -/
theorem Move.not_takesTag {p q : Spot} {l : Lexeme} (h : Move p l q)
    (hcontent : l.kind.isDocContent = true) : q.takesTag = false := by
  cases h with
  | tag => rfl
  | string => rfl
  | blank => cases hcontent
  | ending => cases hcontent
  | star => cases hcontent

/-- Between content and the tag of another line there is a line break. -/
theorem Run.exists_ending_of_content {p q : Spot} {ls : List Lexeme} (h : Run p ls q)
    (hp : p.takesTag = false) (hq : q.takesTag = true) :
    ∃ l ∈ ls, IsEnding l.text.toList := by
  induction h with
  | nil =>
      rw [hp] at hq
      cases hq
  | @cons p q r l ls step apart rest ih =>
      cases step with
      | blank next =>
          have hnext : q.takesTag = false := by
            cases p <;> cases hp <;> cases next <;> rfl
          obtain ⟨l, hl, hending⟩ := ih hnext hq
          exact ⟨l, List.mem_cons_of_mem _ hl, hending⟩
      | ending ending => exact ⟨_, List.mem_cons_self, by simpa using ending⟩
      | star takes => cases p <;> cases hp <;> cases takes
      | tag takes =>
          rw [hp] at takes
          cases takes
      | string =>
          obtain ⟨l, hl, hending⟩ := ih rfl hq
          exact ⟨l, List.mem_cons_of_mem _ hl, hending⟩

end Lexer

namespace Stream

variable {s : Stream} {c : CommentSpan} {t u : Token}

/-- The line of a token has a first token. -/
theorem Placed.exists_firstOn (hs : s.Placed) (hu : s.Has u) :
    ∃ v, s.FirstOn v u.line ∧ v.index ≤ u.index := by
  classical
  have hexists : ∃ n v, s.Has v ∧ v.index = n ∧ v.line = u.line := ⟨_, u, hu, rfl, rfl⟩
  obtain ⟨v, hv, hindex, hline⟩ := Nat.find_spec hexists
  have hmin : ∀ w, s.Has w → w.line = u.line → v.index ≤ w.index := by
    intro w hw hwline
    rw [hindex]
    exact Nat.find_min' hexists ⟨w, hw, rfl, hwline⟩
  refine ⟨v, ⟨hv, hline, fun {w} hw => ⟨fun hlt => ?_, fun hlt => ?_⟩⟩, hmin u hu rfl⟩
  · have hle := hs.line_le hw hv (Nat.le_of_lt hlt)
    have hne : w.line ≠ u.line := fun heq => absurd (hmin w hw heq) (by omega)
    omega
  · by_contra hnot
    have hle := hs.line_le hv hw (by omega)
    omega

namespace Frames

/-- Right behind the open marker a comment is at its opened spot. -/
theorem spotAt_opened (s : Stream) (c : CommentSpan) :
    c.SpotAt s (c.opener.index + 1) .opened := by
  unfold CommentSpan.SpotAt
  rw [between_eq_nil (Nat.le_refl _)]
  exact .nil

/-- Every token of the comment stands at a spot. -/
theorem exists_spotAt (hc : s.Frames c) {i : Nat} (hfrom : c.opener.index < i)
    (hto : i ≤ c.closer.index) : ∃ p, c.SpotAt s i p := by
  obtain ⟨r, hrun⟩ := hc.run
  rw [inside, between_append (j := i) hfrom hto, List.map_append] at hrun
  obtain ⟨p, hfront, -⟩ := hrun.split
  exact ⟨p, hfront⟩

/-- A token leads from its spot to the one behind it. -/
theorem move_of_spotAt (hc : s.Frames c) (ht : s.Has t) (hfrom : c.opener.index < t.index)
    (hto : t.index < c.closer.index) {p : Spot} (hp : c.SpotAt s t.index p) :
    ∃ q, Move p t.lexeme q ∧ c.SpotAt s (t.index + 1) q := by
  obtain ⟨q, hq⟩ := hc.exists_spotAt (i := t.index + 1) (by omega) hto
  obtain ⟨p', hfront, hmove⟩ := exists_previous ht hfrom rfl hq
  obtain rfl := hp.unique hfront
  exact ⟨q, hmove, hq⟩

/-- The first token of a line below another line of the comment stands at the start of a line. -/
theorem spotAt_firstOn (hs : s.Placed) (hc : s.Frames c) {line : Nat} (ht : s.FirstOn t line)
    (hfrom : c.opener.line < line) (hto : t.index ≤ c.closer.index) :
    c.SpotAt s t.index .lineStart := by
  have hopener := (ht.lt_iff hc.opener).2 hfrom
  obtain ⟨u, hu, hindex⟩ := hs.has_of_le (i := t.index - 1) ht.has (by omega)
  have huline := (ht.lt_iff hu).1 (by omega)
  have hline := ht.line_eq
  have hlt : c.opener.index < u.index := by
    by_contra hnot
    obtain rfl := hu.eq hc.opener (by omega)
    have hopenerKind : c.opener.kind ≠ .docBlank := by
      rw [hc.openerKind]
      decide
    have := (hc.line_next hs hc.opener ht.has (by omega) (Nat.le_refl _) (by omega) hopenerKind).1
    omega
  obtain ⟨p, hp⟩ := hc.exists_spotAt hlt (by omega)
  obtain ⟨q, hmove, hq⟩ := hc.move_of_spotAt hu hlt (by omega) hp
  -- the token in front stands on another line, so it is the line break between them
  have hkind : u.lexeme.kind = .docBlank := by
    by_contra hkind
    have := (hc.line_next hs hu ht.has (by omega) (by omega) (by omega) hkind).1
    omega
  rw [show u.index + 1 = t.index by omega] at hq
  rcases hmove.blank_or_ending hkind with ⟨-, rfl⟩ | ⟨hblank, -⟩
  · exact hq
  · have := (hs.unbroken_next hu ht.has (by omega) (unbroken_of_blank hblank)).1
    omega

/-- A line below one token of the comment and not below another one has a first token between them,
which stands at the start of the line. -/
theorem exists_firstOn (hs : s.Placed) (hc : s.Frames c) (ht : s.Has t) (hu : s.Has u)
    (hfrom : c.opener.index ≤ t.index) (hto : u.index ≤ c.closer.index) (line : Nat)
    (hlt : t.line < line) (hle : line ≤ u.line) :
    ∃ v, s.FirstOn v line ∧ t.index < v.index ∧ v.index ≤ u.index ∧
      c.SpotAt s v.index .lineStart := by
  have hindex : t.index ≤ u.index := by
    by_contra hnot
    have := hs.line_le hu ht (by omega)
    omega
  obtain ⟨w, hw, -, hwu, hwline⟩ := hs.exists_on_line ht hu hindex
    (fun v hv htv hvu => hc.short hv (by omega) (by omega)) line (Nat.le_of_lt hlt) hle
  obtain ⟨v, hv, hvw⟩ := hs.exists_firstOn hw
  rw [hwline] at hv
  have hopener := hs.line_le hc.opener ht hfrom
  exact ⟨v, hv, (hv.lt_iff ht).2 hlt, by omega, hc.spotAt_firstOn hs hv (by omega) (by omega)⟩

/-- Behind a token that ends a line there is the start of a line. -/
theorem spotAt_of_endsLine (hc : s.Frames c) (ht : s.Has t) (hfrom : c.opener.index ≤ t.index)
    (hto : t.index < c.closer.index) (hends : endsLine t.text = true) :
    c.SpotAt s (t.index + 1) .lineStart := by
  have hbroken : ¬ Unbroken t.text.toList := by
    intro hunbroken
    unfold endsLine at hends
    split at hends
    · next d hd =>
        have := hunbroken d (List.mem_of_getLast? hd)
        rw [hends] at this
        cases this
    · cases hends
  have hkind : t.kind = .docBlank := by
    by_contra hkind
    exact hbroken (hc.unbroken ht hfrom (Nat.le_of_lt hto) hkind)
  have hlt : c.opener.index < t.index := by
    rcases Nat.eq_or_lt_of_le hfrom with heq | hlt
    · rw [← hc.opener.eq ht heq, hc.openerKind] at hkind
      cases hkind
    · exact hlt
  obtain ⟨p, hp⟩ := hc.exists_spotAt hlt (Nat.le_of_lt hto)
  obtain ⟨q, hmove, hq⟩ := hc.move_of_spotAt ht hlt hto hp
  rcases hmove.blank_or_ending hkind with ⟨-, rfl⟩ | ⟨hblank, -⟩
  · exact hq
  · exact absurd (unbroken_of_blank hblank) hbroken

/-- A tag stands on a later line than the content in front of it. -/
theorem line_lt_of_tag (hs : s.Placed) (hc : s.Frames c) (ht : s.Has t) (hu : s.Has u)
    (hfrom : c.opener.index < t.index) (hto : u.index < c.closer.index)
    (hcontent : t.kind.isDocContent = true) (htag : u.kind = .docTag) (hlt : t.index < u.index) :
    t.line < u.line := by
  obtain ⟨p, q, r, -, move, hrest⟩ := hc.exists_move ht hfrom (by omega)
  rw [between_split hu hlt hto, List.map_append, List.map_cons] at hrest
  obtain ⟨q', hbetween, hafter⟩ := hrest.split
  have hq : q.takesTag = false := move.not_takesTag hcontent
  have hq' : q'.takesTag = true := by
    cases hafter with
    | cons move' apart rest => exact move'.takesTag htag
  obtain ⟨l, hl, hending⟩ := hbetween.exists_ending_of_content hq hq'
  obtain ⟨v, hv, rfl⟩ := List.mem_map.1 hl
  obtain ⟨hv, htv, hvu⟩ := hs.mem_between.1 hv
  have hlast := line_lt_of_ending hs hv hu hvu hending
  have hfirst := hs.line_le ht hv (by omega)
  omega

end Frames

end Stream

end PhpDoc
