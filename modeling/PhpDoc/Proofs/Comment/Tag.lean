import PhpDoc.Comment.Tag
import PhpDoc.Proofs.Comment.Geometry

/-!
# The tags of a comment

A tag of a comment has its value right behind it, or behind its padding, on its own line. So the
column of the value is known from the widths of the name and the padding (`Tag.Fits.column_value`).
`fits_of_mem_tagsOf` says that all tags of a comment are of this form.
-/

namespace PhpDoc

open Text

variable {s : Stream} {c : CommentSpan} {t : Tag}

/-- The first of the tokens between two indices stands at the first index. -/
theorem Stream.Placed.between_eq_cons (hs : s.Placed) {i j : Nat} {u : Token} {us : List Token}
    (h : s.between i j = u :: us) :
    s.Has u ∧ u.index = i ∧ i < j ∧ us = s.between (i + 1) j := by
  obtain ⟨hu, hi, hj⟩ := hs.mem_between.1 (h ▸ List.mem_cons_self : u ∈ s.between i j)
  obtain ⟨v, hv, rfl⟩ := hs.has_of_le hu hi
  rw [Stream.between_cons hv (by omega)] at h
  obtain ⟨rfl, rfl⟩ := List.cons.inj h
  exact ⟨hu, rfl, hj, rfl⟩

namespace Tag

/-- The width of the blank between the tag and its value. -/
def paddingWidth (t : Tag) : Nat :=
  t.padding.elim 0 (·.text.length)

/-- The tag stands in the comment, and its value behind it. -/
structure Fits (s : Stream) (c : CommentSpan) (t : Tag) : Prop where
  token : s.Has t.token
  kind : t.token.kind = .docTag
  opener_lt : c.opener.index < t.token.index
  lt_stop : t.token.index < t.stop
  stop_le : t.stop ≤ c.closer.index
  value : ∀ v, t.value = some v → s.Has v ∧ v.kind = .docString ∧ v.line = t.token.line ∧
    v.index < t.stop
  padding : ∀ b, t.padding = some b → s.Has b ∧ b.kind = .docBlank ∧
    b.index = t.token.index + 1 ∧ ∃ v, t.value = some v ∧ v.index = b.index + 1
  unpadded : ∀ v, t.value = some v → t.padding = none → v.index = t.token.index + 1

/-- The tag of a tag token inside a comment lies inside the comment. -/
theorem fits_ofToken (hs : s.Placed) {token : Token} {stop : Nat} (htoken : s.Has token)
    (hkind : token.kind = .docTag) (hopener : c.opener.index < token.index)
    (hlt : token.index < stop) (hle : stop ≤ c.closer.index) :
    (Tag.ofToken s token stop).Fits s c := by
  have hbare : (⟨token, none, none, stop⟩ : Tag).Fits s c :=
    ⟨htoken, hkind, hopener, hlt, hle, by simp, by simp, by simp⟩
  unfold Tag.ofToken
  cases hbetween : s.between (token.index + 1) stop with
  | nil => exact hbare
  | cons u us =>
      obtain ⟨hu, huindex, hustop, rfl⟩ := hs.between_eq_cons hbetween
      -- the value stands behind a blank or right behind the name, or there is none
      by_cases hblank : u.kind = .docBlank
      · simp only [splitPadding, hblank, beq_self_eq_true, ↓reduceIte]
        cases hrest : s.between (token.index + 1 + 1) stop with
        | nil => exact hbare
        | cons v vs =>
            obtain ⟨hv, hvindex, hvstop, -⟩ := hs.between_eq_cons hrest
            simp only
            split
            · next hvalue =>
                simp only [Bool.and_eq_true, beq_iff_eq] at hvalue
                refine ⟨htoken, hkind, hopener, hlt, hle, ?_, ?_, by simp⟩
                · intro w hw
                  cases hw
                  exact ⟨hv, hvalue.1, hvalue.2, by simpa [hvindex] using hvstop⟩
                · intro b hb
                  cases hb
                  exact ⟨hu, hblank, huindex, v, rfl, by omega⟩
            · exact hbare
      · have hno : (u.kind == .docBlank) = false := by simpa using hblank
        simp only [splitPadding, hno, Bool.false_eq_true, ↓reduceIte]
        split
        · next hvalue =>
            simp only [Bool.and_eq_true, beq_iff_eq] at hvalue
            refine ⟨htoken, hkind, hopener, hlt, hle, ?_, by simp, ?_⟩
            · intro w hw
              cases hw
              exact ⟨hu, hvalue.1, hvalue.2, by simpa [huindex] using hustop⟩
            · intro w hw _
              cases hw
              exact huindex
        · exact hbare

namespace Fits

/-- The value of a tag stands behind the tag. -/
theorem lt_value (ht : t.Fits s c) {v : Token} (hv : t.value = some v) :
    t.token.index < v.index := by
  cases hpad : t.padding with
  | none =>
      have := ht.unpadded v hv hpad
      omega
  | some b =>
      obtain ⟨-, -, hb, w, hw, hwindex⟩ := ht.padding b hpad
      obtain rfl : v = w := Option.some.inj (hv.symm.trans hw)
      omega

/-- The value of a tag is on one line. -/
theorem unbroken_value (hc : s.Frames c) (ht : t.Fits s c) {v : Token} (hv : t.value = some v) :
    Unbroken v.text.toList := by
  obtain ⟨hhas, hkind, -, hstop⟩ := ht.value v hv
  have hlt := ht.lt_value hv
  have hopener := ht.opener_lt
  have hle := ht.stop_le
  exact hc.unbroken hhas (by omega) (by omega) (by rw [hkind]; decide)

/-- The padding of a tag stands on the line of the tag. -/
theorem unbroken_padding (hs : s.Sound) (ht : t.Fits s c) {b : Token}
    (hb : t.padding = some b) : Unbroken b.text.toList := by
  obtain ⟨hhas, hkind, hindex, v, hv, hvindex⟩ := ht.padding b hb
  obtain ⟨hvhas, -, hvline, -⟩ := ht.value v hv
  have hlined : Lined b.text.toList := hs.lined hhas (by rw [hkind]; rfl)
  rcases hlined with h | ⟨line, ending, heq, hline, hending⟩
  · exact h
  · have hpos := congrArg Position.line (hs.position_next hhas hvhas hvindex)
    rw [heq, Position.advance_line _ hline hending] at hpos
    have hv' : v.line = b.line + 1 := hpos
    have := hs.line_le ht.token hhas (by omega)
    omega

/-- The value of a tag stands behind the name and the padding. -/
theorem column_value (hs : s.Sound) (hc : s.Frames c) (ht : t.Fits s c) {v : Token}
    (hv : t.value = some v) : v.column = t.token.column + t.name.length + t.paddingWidth := by
  obtain ⟨hvhas, -, -, hvstop⟩ := ht.value v hv
  have hle := ht.stop_le
  have hlt := ht.lt_stop
  have hopener := ht.opener_lt
  have htoken : ∀ u, s.Has u → u.index = t.token.index + 1 →
      u.column = t.token.column + t.name.length := by
    intro u hu hindex
    exact (hc.line_next hs.toPlaced ht.token hu hindex (by omega) (by omega)
      (by rw [ht.kind]; decide)).2
  unfold paddingWidth
  cases hb : t.padding with
  | none => exact htoken v hvhas (ht.unpadded v hv hb)
  | some b =>
      obtain ⟨hbhas, -, hbindex, w, hw, hwindex⟩ := ht.padding b hb
      obtain rfl : v = w := Option.some.inj (hv.symm.trans hw)
      have hbcolumn := htoken b hbhas hbindex
      have hvcolumn := (hs.unbroken_next hbhas hvhas hwindex (ht.unbroken_padding hs hb)).2
      simp only [Option.elim_some]
      omega

end Fits

end Tag

/-- Each tag ends at the next one, or where the comment does. -/
theorem exists_of_mem_tagsOf {stop : Nat} {ts : List Token}
    (hsorted : ts.Pairwise (·.index < ·.index)) (hstop : ∀ u ∈ ts, u.index < stop)
    (ht : t ∈ tagsOf s stop ts) :
    ∃ token ∈ ts, ∃ stop', t = Tag.ofToken s token stop' ∧ token.index < stop' ∧ stop' ≤ stop := by
  fun_induction tagsOf s stop ts with
  | case1 => cases ht
  | case2 u =>
      rw [List.mem_singleton.1 ht]
      exact ⟨u, List.mem_singleton_self u, stop, rfl, hstop u (List.mem_singleton_self u),
        Nat.le_refl _⟩
  | case3 u next ts ih =>
      obtain ⟨hu, hrest⟩ := List.pairwise_cons.1 hsorted
      rcases List.mem_cons.1 ht with rfl | ht
      · have hnext := hstop next (by simp)
        exact ⟨u, List.mem_cons_self, next.index, rfl, hu next List.mem_cons_self,
          Nat.le_of_lt hnext⟩
      · obtain ⟨token, hmem, rest⟩ := ih hrest (fun v hv => hstop v (List.mem_cons_of_mem _ hv)) ht
        exact ⟨token, List.mem_cons_of_mem _ hmem, rest⟩

namespace Stream

/-- The tokens between two indices are in order. -/
theorem Placed.pairwise_between (hs : s.Placed) (i j : Nat) :
    (s.between i j).Pairwise (·.index < ·.index) := by
  induction hn : j - i generalizing i with
  | zero =>
      rw [between_eq_nil (by omega)]
      exact List.Pairwise.nil
  | succ n ih =>
      cases hbetween : s.between i j with
      | nil => exact List.Pairwise.nil
      | cons u us =>
          obtain ⟨-, hindex, -, rfl⟩ := hs.between_eq_cons hbetween
          refine List.pairwise_cons.2 ⟨fun v hv => ?_, ih (i + 1) (by omega)⟩
          have := (hs.mem_between.1 hv).2.1
          omega

/-- The tag tokens of a comment stand in it. -/
theorem Frames.mem_tags (hs : s.Placed) (hc : s.Frames c) {u : Token} :
    u ∈ c.tags ↔ s.Has u ∧ c.opener.index < u.index ∧ u.index < c.closer.index ∧
      u.kind = .docTag := by
  rw [hc.tags, List.mem_filter, inside, hs.mem_between]
  simp only [beq_iff_eq]
  constructor
  · rintro ⟨⟨h₁, h₂, h₃⟩, h₄⟩
    exact ⟨h₁, h₂, h₃, h₄⟩
  · rintro ⟨h₁, h₂, h₃, h₄⟩
    exact ⟨⟨h₁, h₂, h₃⟩, h₄⟩

/-- The tag tokens of a comment come in the order of the stream. -/
theorem Frames.pairwise_tags (hs : s.Placed) (hc : s.Frames c) :
    c.tags.Pairwise (·.index < ·.index) := by
  rw [hc.tags]
  exact (hs.pairwise_between _ _).filter _

end Stream

/-- The tags of a comment fit into it. -/
theorem fits_of_mem_tagsOf (hs : s.Placed) (hc : s.Frames c)
    (ht : t ∈ tagsOf s c.closer.index c.tags) : t.Fits s c := by
  obtain ⟨token, hmem, stop, rfl, hlt, hle⟩ := exists_of_mem_tagsOf (hc.pairwise_tags hs)
    (fun u hu => ((hc.mem_tags hs).1 hu).2.2.1) ht
  obtain ⟨htoken, hopener, -, hkind⟩ := (hc.mem_tags hs).1 hmem
  exact Tag.fits_ofToken hs htoken hkind hopener hlt hle

end PhpDoc
