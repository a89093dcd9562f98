import PhpDoc.Proofs.Comment.Spot
import PhpDoc.Proofs.Rule.Layout

/-!
# What the layout fixes write

For every fix of the layout the text that it gives to each token of the stream: which tokens it
drops, in what range they stand, and what it puts in front of or behind the others. Lines that are
dropped are the tokens from the first one of a line up to the first one of a later line.
-/

namespace PhpDoc

open Text Lexer

namespace Changeset

variable {s : Stream} {change : Changeset} {i j : Nat}

/-- The change gives the tokens with indices from `i` up to, but not including, `j` other texts, and
no others. -/
def Reaches (s : Stream) (change : Changeset) (i j : Nat) : Prop :=
  ∀ t, s.Has t → (change.current t ≠ t.text ↔ i ≤ t.index ∧ t.index < j)

/-- The change drops the tokens with indices from `i` up to, but not including, `j`, and nothing
else. -/
def Drops (s : Stream) (change : Changeset) (i j : Nat) : Prop :=
  ∀ t, s.Has t → change.current t = if i ≤ t.index ∧ t.index < j then "" else t.text

/-- A change that drops tokens reaches those that it drops. -/
theorem Drops.reaches (hs : s.Sound) (h : change.Drops s i j) : change.Reaches s i j := by
  intro t ht
  rw [h t ht]
  split
  · next hrange =>
      refine ⟨fun _ => hrange, fun _ hempty => hs.text_ne_nil ht ?_⟩
      rw [← hempty]
      rfl
  · next hrange => exact ⟨fun hne => absurd rfl hne, fun h => absurd h hrange⟩

/-- A change of one token reaches that token. -/
theorem reaches_single {f : Token → String}
    (hne : ∀ t, s.Has t → t.index = i → f t ≠ t.text)
    (h : ∀ t, s.Has t → change.current t = if t.index = i then f t else t.text) :
    change.Reaches s i (i + 1) := by
  intro t ht
  rw [h t ht]
  split
  · next hindex => exact ⟨fun _ => by omega, fun _ => hne t ht hindex⟩
  · exact ⟨fun hne => absurd rfl hne, fun _ => by omega⟩

/-- Blanking a range of tokens drops them. -/
theorem drops_blank {ts : List Token} (hts : ∀ u ∈ ts, s.Has u)
    (hrange : ∀ t, s.Has t → (t ∈ ts ↔ i ≤ t.index ∧ t.index < j)) :
    (empty.blank ts).Drops s i j := by
  intro t ht
  rw [current_blank _ hts ht, current_empty]
  simp only [hrange t ht]

end Changeset

namespace Layout

variable {s : Stream} {c : CommentSpan} {t : Token}

/-- What moving the content off the open line writes for each token. -/
theorem current_openLine (hs : s.Sound) (hc : s.Frames c) {first : Token}
    (hfirst : (Block.ofSpan s c).first = some first) (ht : s.Has t) :
    (openLine s (Block.ofSpan s c) first).current t =
      if t.index = c.opener.index then t.text ++ s.eol
      else if t.index = first.index then (Block.ofSpan s c).starIndent s ++ "* " ++ t.text
      else if c.opener.index < t.index ∧ t.index < first.index then "" else t.text := by
  obtain ⟨hhas, hfrom, -⟩ := Block.first_spec hs.toPlaced hfirst
  have hts : ∀ u ∈ s.between (c.opener.index + 1) first.index, s.Has u :=
    fun u hu => (hs.mem_between.1 hu).1
  unfold openLine
  rw [Block.ofSpan_opener, Changeset.current_prepend, Changeset.current_blank _ hts hhas,
    Changeset.current_blank _ hts ht, Changeset.current_append, Changeset.current_append,
    Changeset.current_empty, Changeset.current_empty, Changeset.current_empty]
  simp only [hs.mem_between_of_has ht, hs.mem_between_of_has hhas, Nat.succ_le_iff]
  by_cases hopener : t.index = c.opener.index
  · rw [if_neg (by omega), if_neg (by omega), if_pos hopener, if_pos hopener,
      ht.eq hc.opener hopener]
  · by_cases hindex : t.index = first.index
    · obtain rfl := ht.eq hhas hindex
      rw [if_pos rfl, if_neg (by omega), if_neg (by omega), if_neg (by omega), if_pos rfl]
    · rw [if_neg hindex, if_neg hopener, if_neg hopener, if_neg hindex]

/-- What moving the close marker to its own line writes for each token. -/
theorem current_closeLine (hs : s.Sound) (hc : s.Frames c) (last : Token) (ht : s.Has t) :
    (closeLine s (Block.ofSpan s c) last).current t =
      if t.index = c.closer.index then s.eol ++ (Block.ofSpan s c).starIndent s ++ t.text
      else if last.index < t.index ∧ t.index < c.closer.index then "" else t.text := by
  have hts : ∀ u ∈ s.between (last.index + 1) c.closer.index, s.Has u :=
    fun u hu => (hs.mem_between.1 hu).1
  unfold closeLine
  rw [Block.ofSpan_closer, Changeset.current_prepend, Changeset.current_blank _ hts hc.closer,
    Changeset.current_blank _ hts ht, Changeset.current_empty, Changeset.current_empty]
  simp only [hs.mem_between_of_has ht, hs.mem_between_of_has hc.closer, Nat.succ_le_iff]
  by_cases hindex : t.index = c.closer.index
  · obtain rfl := ht.eq hc.closer hindex
    rw [if_pos rfl, if_neg (by omega), if_pos rfl]
  · rw [if_neg hindex, if_neg hindex]

/-- The line of the close marker goes on to the close marker. -/
theorem line_eq_iff (hs : s.Placed) (hc : s.Frames c) {bottom : Token}
    (hbottom : s.FirstOn bottom c.closer.line) (ht : s.Has t) (hto : t.index ≤ c.closer.index) :
    t.line = c.closer.line ↔ bottom.index ≤ t.index := by
  have hiff := hbottom.lt_iff ht
  have := hs.line_le ht hc.closer hto
  omega

/-- Nothing on the line of the close marker stands in front of that line. -/
theorem beforeLine_eq_nil (hs : s.Placed) (hc : s.Frames c) {bottom : Token}
    (hbottom : s.FirstOn bottom c.closer.line) (hle : bottom.index ≤ c.closer.index) :
    beforeLine c.closer.line (s.between bottom.index (c.closer.index + 1)) = [] := by
  rw [Stream.between_cons hbottom.has (by omega)]
  rcases Nat.eq_or_lt_of_le hle with heq | hlt
  · rw [Stream.between_eq_nil (by omega)]
    rfl
  · obtain ⟨v, hv, hindex⟩ := hs.has_of_le (i := bottom.index + 1) hc.closer (by omega)
    rw [← hindex, Stream.between_cons hv (by omega), beforeLine,
      if_pos ((line_eq_iff hs hc hbottom hv (by omega)).2 (by omega))]

/-- The tokens in front of a line, but for the last one. -/
theorem mem_beforeLine (hs : s.Placed) (hc : s.Frames c) {bottom : Token}
    (hbottom : s.FirstOn bottom c.closer.line) {i : Nat} (hi : i ≤ bottom.index) (ht : s.Has t) :
    t ∈ beforeLine c.closer.line (s.between i (c.closer.index + 1)) ↔
      i ≤ t.index ∧ t.index + 1 < bottom.index := by
  have hle : bottom.index ≤ c.closer.index := by
    by_contra hnot
    have := (hbottom.lt_iff hc.closer).1 (by omega)
    omega
  induction hn : bottom.index - i generalizing i with
  | zero =>
      obtain rfl : i = bottom.index := by omega
      rw [beforeLine_eq_nil hs hc hbottom hle]
      simp only [List.not_mem_nil, false_iff]
      omega
  | succ n ih =>
      obtain ⟨u, hu, rfl⟩ := hs.has_of_le (i := i) hc.closer (by omega)
      obtain ⟨v, hv, hindex⟩ := hs.has_of_le (i := u.index + 1) hc.closer (by omega)
      have hrest := ih (i := v.index) (by omega) (by omega)
      rw [Stream.between_cons hu (by omega), ← hindex]
      rw [Stream.between_cons hv (by omega)] at hrest ⊢
      rw [beforeLine]
      -- a token is taken when the one behind it stands in front of the line as well
      split
      · next hlast =>
          have := (line_eq_iff hs hc hbottom hv (by omega)).1 hlast
          simp only [List.not_mem_nil, false_iff]
          omega
      · next hlast =>
          have hbefore : v.index < bottom.index := by
            by_contra hnot
            exact hlast ((line_eq_iff hs hc hbottom hv (by omega)).2 (by omega))
          rw [List.mem_cons]
          constructor
          · rintro (rfl | hmem)
            · omega
            · have := hrest.1 hmem
              omega
          · intro hmem
            by_cases heq : t.index = u.index
            · exact .inl (ht.eq hu heq)
            · exact .inr (hrest.2 (by omega))

/-- The blank lines in front of the close marker go up to the line break in front of its line. -/
theorem drops_blankBeforeClose (hs : s.Placed) (hc : s.Frames c) {last bottom : Token}
    (hbottom : s.FirstOn bottom c.closer.line) (hlast : last.index < bottom.index) :
    (blankBeforeClose s (Block.ofSpan s c) last).Drops s (last.index + 1) (bottom.index - 1) := by
  unfold blankBeforeClose
  rw [Block.ofSpan_closer]
  have hmem := fun t ht => mem_beforeLine hs hc hbottom (i := last.index + 1) hlast (t := t) ht
  refine Changeset.drops_blank (fun u hu => ?_) fun t ht => ?_
  · exact (hs.mem_between.1 ((beforeLine_sublist _ _).mem hu)).1
  · rw [hmem t ht]
    omega

/-- The lines between two lines of a comment are a range of tokens. -/
theorem drops_filter (hs : s.Placed) {top bottom : Token} {i j line line' : Nat}
    (htop : s.FirstOn top (line + 1)) (hbottom : s.FirstOn bottom line') (hi : i ≤ top.index)
    (hj : bottom.index ≤ j) (p : Token → Bool)
    (hp : ∀ t, p t = true ↔ line < t.line ∧ t.line < line') :
    (Changeset.empty.blank ((s.between i j).filter p)).Drops s top.index bottom.index := by
  refine Changeset.drops_blank (fun u hu => hs.has_of_mem_filter hu)
    fun t ht => ?_
  have htopIff := htop.lt_iff ht
  have hbottomIff := hbottom.lt_iff ht
  rw [List.mem_filter, hs.mem_between, hp]
  constructor
  · rintro ⟨-, hline⟩
    omega
  · intro hrange
    exact ⟨⟨ht, by omega, by omega⟩, by omega⟩

/-- The blank lines in front of the short description are dropped from the first one on. -/
theorem drops_blankBeforeShort (hs : s.Placed) (hc : s.Frames c) {short : Description}
    {top bottom : Token} (htop : s.FirstOn top (c.opener.line + 1))
    (hbottom : s.FirstOn bottom short.first.line) (hshort : s.Has short.first) :
    (blankBeforeShort s (Block.ofSpan s c) short).Drops s top.index bottom.index := by
  unfold blankBeforeShort
  rw [Block.ofSpan_opener]
  have hopener := (htop.lt_iff hc.opener).2 (Nat.lt_succ_self _)
  have hbottomIff := hbottom.lt_iff hshort
  exact drops_filter hs htop hbottom (by omega) (by omega) _ fun t => by simp

/-- The blank lines between the descriptions are dropped but for the last one. -/
theorem drops_blankBetween (hs : s.Placed) {short long : Description} {top bottom : Token}
    (htop : s.FirstOn top (short.last.line + 1)) (hbottom : s.FirstOn bottom (long.first.line - 1))
    (hshort : s.Has short.last) (hlong : s.Has long.first) :
    (blankBetween s short long).Drops s top.index bottom.index := by
  unfold blankBetween
  have htopIff := (htop.lt_iff hshort).2 (Nat.lt_succ_self _)
  have hbottomIff := hbottom.lt_iff hlong
  refine drops_filter hs htop hbottom (by omega) (by omega) _ fun t => ?_
  simp only [Bool.and_eq_true, decide_eq_true_eq]
  omega

/-- The lines between a token and a later line are dropped, and a blank line is put behind the
token. -/
theorem current_singleBlankLine (hs : s.Placed) {previous following bottom : Token}
    (hprevious : s.Has previous) (hfollowing : s.Has following)
    (hbottom : s.FirstOn bottom following.line)
    (indent : String) (ht : s.Has t) :
    (singleBlankLine s previous following indent).current t =
      if t.index = previous.index then t.text ++ (s.eol ++ indent ++ "*" ++ s.eol)
      else if previous.index < t.index ∧ t.index < bottom.index then "" else t.text := by
  have hto : bottom.index ≤ following.index := by
    have := hbottom.lt_iff hfollowing
    omega
  have hdrops : (Changeset.empty.blank ((s.between (previous.index + 1) following.index).filter
      (·.line != following.line))).Drops s (previous.index + 1) bottom.index := by
    refine Changeset.drops_blank (fun u hu => hs.has_of_mem_filter hu)
      fun u hu => ?_
    have hiff := hbottom.lt_iff hu
    rw [List.mem_filter, hs.mem_between, bne_iff_ne]
    constructor
    · rintro ⟨⟨-, hfrom, hbefore⟩, hne⟩
      have := hs.line_le hu hfollowing (by omega)
      omega
    · intro hrange
      exact ⟨⟨hu, by omega, by omega⟩, by omega⟩
  unfold singleBlankLine
  rw [Changeset.current_append, hdrops previous hprevious, hdrops t ht]
  by_cases hindex : t.index = previous.index
  · rw [if_pos hindex, if_neg (by omega), if_pos hindex, ht.eq hprevious hindex]
  · rw [if_neg hindex, if_neg hindex]
    rfl

end Layout

end PhpDoc
