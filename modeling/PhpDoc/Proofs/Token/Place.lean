import PhpDoc.Proofs.Text.Lines
import PhpDoc.Token.Stream

/-!
# Where tokens stand

In the stream of a source text every token has the index at which it stands, and its position is
that of the token before it moved over the text of that token. `Stream.Placed` says so, and
`placed_ofTokens` that it holds. What the searches of a stream find is then described by indices
and lines alone, and `exists_on_line` finds a token on every line that a row of short tokens passes.
-/

namespace PhpDoc

namespace Token

/-- The kind of the token with its text. -/
def lexeme (t : Token) : Lexeme := ⟨t.kind, t.text⟩

/-- The lexeme of a token has its kind. -/
@[simp] theorem lexeme_kind (t : Token) : t.lexeme.kind = t.kind := rfl

/-- The lexeme of a token has its text. -/
@[simp] theorem lexeme_text (t : Token) : t.lexeme.text = t.text := rfl

/-- Every lexeme gets a place. -/
@[simp] theorem length_place (n : Nat) (p : Position) (ls : List Lexeme) :
    (place n p ls).length = ls.length := by
  induction ls generalizing n p with
  | nil => rfl
  | cons l ls ih => simp [place, ih]

/-- Lexemes stay what they are when they get places. -/
@[simp] theorem map_lexeme_place (n : Nat) (p : Position) (ls : List Lexeme) :
    (place n p ls).map lexeme = ls := by
  induction ls generalizing n p with
  | nil => rfl
  | cons l ls ih => simp [place, lexeme, ih]

/-- Tokens are numbered in order. -/
theorem index_place {n : Nat} {p : Position} {ls : List Lexeme} {i : Nat} {t : Token}
    (h : (place n p ls)[i]? = some t) : t.index = n + i := by
  induction ls generalizing n p i with
  | nil => simp [place] at h
  | cons l ls ih =>
      cases i with
      | zero =>
          simp only [place, List.getElem?_cons_zero, Option.some.injEq] at h
          rw [← h, Nat.add_zero]
      | succ i =>
          rw [ih h]
          omega

/-- The first token stands at the given position. -/
theorem position_place_zero {n : Nat} {p : Position} {ls : List Lexeme} {t : Token}
    (h : (place n p ls)[0]? = some t) : t.position = p := by
  cases ls with
  | nil => simp [place] at h
  | cons l ls =>
      simp only [place, List.getElem?_cons_zero, Option.some.injEq] at h
      rw [← h]
      rfl

/-- Every token but the first starts where the one before it ends. -/
theorem position_place_succ {n : Nat} {p : Position} {ls : List Lexeme} {i : Nat} {t u : Token}
    (ht : (place n p ls)[i]? = some t) (hu : (place n p ls)[i + 1]? = some u) :
    u.position = t.position.advance t.text.toList := by
  induction ls generalizing n p i with
  | nil => simp [place] at ht
  | cons l ls ih =>
      cases i with
      | zero =>
          simp only [place, List.getElem?_cons_zero, Option.some.injEq] at ht
          have hu' : (place (n + 1) (p.advance l.text.toList) ls)[0]? = some u := hu
          rw [position_place_zero hu', ← ht]
          rfl
      | succ i => exact ih ht hu

/-- The text of the token ends at most one line. -/
def Short (t : Token) : Prop :=
  ∀ p : Position, (p.advance t.text.toList).line ≤ p.line + 1

/-- A token without line breaks is short. -/
theorem short_of_unbroken {t : Token} (h : Text.Unbroken t.text.toList) : t.Short := by
  intro p
  rw [Position.advance_unbroken p h]
  exact Nat.le_succ _

/-- A token with a line break at its end or nowhere is short. -/
theorem short_of_lined {t : Token} (h : Text.Lined t.text.toList) : t.Short := by
  rcases h with h | ⟨line, ending, heq, hline, hending⟩
  · exact short_of_unbroken h
  · intro p
    rw [heq, Position.advance_line p hline hending]

/-- The tokens of two rows of lexemes, one after the other. -/
theorem place_append (n : Nat) (p : Position) (ls ms : List Lexeme) :
    place n p (ls ++ ms) =
      place n p ls ++ place (n + ls.length)
        (ls.foldl (fun p l => p.advance l.text.toList) p) ms := by
  induction ls generalizing n p with
  | nil => rfl
  | cons l ls ih =>
      simp only [List.cons_append, place, ih, List.foldl_cons, List.length_cons]
      rw [show n + 1 + ls.length = n + (ls.length + 1) by omega]

end Token

namespace Stream

open Text

variable {s : Stream} {t u : Token} {i j : Nat}

/-- The token stands in the stream at its own index. -/
def Has (s : Stream) (t : Token) : Prop :=
  s.get? t.index = some t

/-- Every token stands at its own index and starts where the one before it ends. -/
structure Placed (s : Stream) : Prop where
  index : ∀ {i t}, s.get? i = some t → t.index = i
  first : ∀ {t}, s.get? 0 = some t → t.position = Position.start
  next : ∀ {i t u}, s.get? i = some t → s.get? (i + 1) = some u →
    u.position = t.position.advance t.text.toList

/-- The tokens of placed lexemes stand at their places in the stream. -/
theorem placed_ofTokens (ls : List Lexeme) :
    (ofTokens (Token.place 0 Position.start ls)).Placed where
  index h := by
    have := Token.index_place (by simpa [get?, ofTokens] using h)
    rwa [Nat.zero_add] at this
  first h := Token.position_place_zero (by simpa [get?, ofTokens] using h)
  next ht hu :=
    Token.position_place_succ (by simpa [get?, ofTokens] using ht)
      (by simpa [get?, ofTokens] using hu)

namespace Placed

/-- A token that is read at an index is one of the stream. -/
theorem has_of_get? (h : s.Placed) (ht : s.get? i = some t) : s.Has t := by
  rw [Has, h.index ht]
  exact ht

/-- There is a token at every index in front of a token. -/
theorem exists_of_le (hu : s.Has u) (hle : i ≤ u.index) : ∃ t, s.get? i = some t := by
  have hlt : u.index < s.tokens.size := (Array.getElem?_eq_some_iff.1 hu).1
  exact ⟨_, Array.getElem?_eq_getElem (by omega)⟩

/-- Every index up to that of a token has a token. -/
theorem has_of_le (h : s.Placed) (hu : s.Has u) (hle : i ≤ u.index) :
    ∃ t, s.Has t ∧ t.index = i := by
  obtain ⟨t, ht⟩ := exists_of_le hu hle
  exact ⟨t, h.has_of_get? ht, h.index ht⟩

end Placed

/-- Tokens of one index are one token. -/
theorem Has.eq (ht : s.Has t) (hu : s.Has u) (h : t.index = u.index) : t = u := by
  rw [Has, h, hu] at ht
  exact (Option.some.inj ht).symm

/-- Tokens on different lines have different indices. -/
theorem Has.index_lt (ht : s.Has t) (hu : s.Has u) (hle : t.index ≤ u.index)
    (hne : t.line ≠ u.line) : t.index < u.index := by
  refine Nat.lt_of_le_of_ne hle fun heq => hne ?_
  rw [ht.eq hu heq]

/-- The index of a token is below the size of the stream. -/
theorem Has.index_lt_size (ht : s.Has t) : t.index < s.size :=
  (Array.getElem?_eq_some_iff.1 ht).1

/-- The tokens before an index. -/
theorem Placed.before? (h : s.Placed) : s.before? i = some t ↔ s.Has t ∧ t.index + 1 = i := by
  unfold Stream.before?
  constructor
  · intro ht
    split at ht
    · cases ht
    · have hi := h.index ht
      exact ⟨h.has_of_get? ht, by omega⟩
  · rintro ⟨ht, rfl⟩
    rw [if_neg (by omega), Nat.add_sub_cancel]
    exact ht

/-- Nothing stands in front of a token exactly when it is the first one. -/
theorem before?_eq_none (hu : s.Has u) : s.before? u.index = none ↔ u.index = 0 := by
  unfold Stream.before?
  split
  · simp_all
  · next hne =>
      have hlt := hu.index_lt_size
      have hsome : s.get? (u.index - 1) ≠ none := by
        intro hnone
        have := Array.getElem?_eq_none_iff.1 hnone
        unfold size at hlt
        omega
      simp [hsome, hne]

/-! ## The tokens between two indices -/

/-- The tokens between two indices are known by their indices. -/
theorem Placed.mem_between (h : s.Placed) :
    t ∈ s.between i j ↔ s.Has t ∧ i ≤ t.index ∧ t.index < j := by
  unfold between
  rw [Array.mem_toList_iff, Array.mem_extract_iff_getElem]
  constructor
  · rintro ⟨k, hk, rfl⟩
    have hget : s.get? (i + k) = some s.tokens[i + k] := Array.getElem?_eq_getElem (by omega)
    have hindex := h.index hget
    exact ⟨h.has_of_get? hget, by omega, by omega⟩
  · rintro ⟨ht, hi, hj⟩
    obtain ⟨hlt, heq⟩ := Array.getElem?_eq_some_iff.1 ht
    have hk : i + (t.index - i) = t.index := by omega
    refine ⟨t.index - i, by omega, ?_⟩
    simp only [hk]
    exact heq

/-- A token of the stream is in a range when its index is. -/
theorem Placed.mem_between_of_has (h : s.Placed) (ht : s.Has t) :
    t ∈ s.between i j ↔ i ≤ t.index ∧ t.index < j := by
  rw [h.mem_between, and_iff_right ht]

/-- The tokens of a class in a range are tokens of the stream. -/
theorem Placed.has_of_mem_filter (h : s.Placed) {p : Token → Bool}
    (ht : t ∈ (s.between i j).filter p) : s.Has t :=
  (h.mem_between.1 (List.mem_filter.1 ht).1).1

/-- A range that ends where it starts, or before, is empty. -/
theorem between_eq_nil (h : j ≤ i) : s.between i j = [] := by
  unfold between
  simp only [Array.toList_extract, List.extract_eq_take_drop]
  rw [show j - i = 0 by omega, List.take_zero]

/-- The tokens between two indices, cut at an index between the two. -/
theorem between_append {k : Nat} (hij : i ≤ j) (hjk : j ≤ k) :
    s.between i k = s.between i j ++ s.between j k := by
  unfold between
  simp only [Array.toList_extract, List.extract_eq_take_drop]
  rw [show k - i = (j - i) + (k - j) by omega, List.take_add, List.drop_drop,
    show i + (j - i) = j by omega]

/-- The first of the tokens between two indices. -/
theorem between_cons (ht : s.Has t) (hlt : t.index < j) :
    s.between t.index j = t :: s.between (t.index + 1) j := by
  rw [between_append (Nat.le_succ t.index) hlt]
  have hone : s.between t.index (t.index + 1) = [t] := by
    have ht' : s.tokens.toList[t.index]? = some t := by simpa [Has, get?] using ht
    unfold between
    simp only [Array.toList_extract, List.extract_eq_take_drop]
    rw [show t.index + 1 - t.index = 1 by omega, List.take_one, List.head?_drop, ht']
    rfl
  rw [hone]
  rfl

/-- The tokens between two indices around a token. -/
theorem between_split (ht : s.Has t) (hi : i ≤ t.index) (hj : t.index < j) :
    s.between i j = s.between i t.index ++ t :: s.between (t.index + 1) j := by
  rw [between_append hi (Nat.le_of_lt hj), between_cons ht hj]

/-- What a search forwards finds is the first token of its kind. -/
theorem Placed.firstBetween (h : s.Placed) {p : Kind → Bool} :
    s.firstBetween p i j = some t ↔
      s.Has t ∧ i ≤ t.index ∧ t.index < j ∧ p t.kind = true ∧
        ∀ u, s.Has u → i ≤ u.index → u.index < t.index → p u.kind = false := by
  unfold Stream.firstBetween
  constructor
  · intro ht
    have hmem := h.mem_between.1 (List.mem_of_find?_eq_some ht)
    refine ⟨hmem.1, hmem.2.1, hmem.2.2, by simpa using List.find?_some ht, ?_⟩
    intro u hu hi hlt
    rw [between_split hmem.1 hmem.2.1 hmem.2.2, List.find?_append] at ht
    cases hfind : (s.between i t.index).find? (p ·.kind) with
    | none =>
        rw [List.find?_eq_none] at hfind
        simpa using hfind u (h.mem_between.2 ⟨hu, hi, hlt⟩)
    | some v =>
        rw [hfind, Option.some_or, Option.some.injEq] at ht
        subst ht
        have := (h.mem_between.1 (List.mem_of_find?_eq_some hfind)).2.2
        omega
  · rintro ⟨ht, hi, hj, hp, hfirst⟩
    rw [between_split ht hi hj, List.find?_append]
    have hnone : (s.between i t.index).find? (p ·.kind) = none := by
      rw [List.find?_eq_none]
      intro u hu
      obtain ⟨hu, hui, hut⟩ := h.mem_between.1 hu
      simp [hfirst u hu hui hut]
    rw [hnone, Option.none_or]
    exact List.find?_cons_of_pos (by simpa using hp)

/-- A search forwards finds nothing when there is no token of its kind. -/
theorem Placed.firstBetween_eq_none (h : s.Placed) {p : Kind → Bool} :
    s.firstBetween p i j = none ↔
      ∀ u, s.Has u → i ≤ u.index → u.index < j → p u.kind = false := by
  unfold Stream.firstBetween
  rw [List.find?_eq_none]
  constructor
  · intro hnone u hu hi hj
    simpa using hnone u (h.mem_between.2 ⟨hu, hi, hj⟩)
  · intro hnone u hu
    obtain ⟨hu, hi, hj⟩ := h.mem_between.1 hu
    simp [hnone u hu hi hj]

/-- What a search backwards finds is the last token of its kind. -/
theorem Placed.lastBetween (h : s.Placed) {p : Kind → Bool} :
    s.lastBetween p i j = some t ↔
      s.Has t ∧ i ≤ t.index ∧ t.index < j ∧ p t.kind = true ∧
        ∀ u, s.Has u → t.index < u.index → u.index < j → p u.kind = false := by
  unfold Stream.lastBetween
  constructor
  · intro ht
    have hmem := h.mem_between.1 (List.mem_reverse.1 (List.mem_of_find?_eq_some ht))
    refine ⟨hmem.1, hmem.2.1, hmem.2.2, by simpa using List.find?_some ht, ?_⟩
    intro u hu hlt hj
    rw [between_split hmem.1 hmem.2.1 hmem.2.2, List.reverse_append, List.reverse_cons,
      List.append_assoc, List.find?_append] at ht
    cases hfind : (s.between (t.index + 1) j).reverse.find? (p ·.kind) with
    | none =>
        rw [List.find?_eq_none] at hfind
        simpa using hfind u (List.mem_reverse.2 (h.mem_between.2 ⟨hu, hlt, hj⟩))
    | some v =>
        rw [hfind, Option.some_or, Option.some.injEq] at ht
        subst ht
        have := (h.mem_between.1 (List.mem_reverse.1 (List.mem_of_find?_eq_some hfind))).2.1
        omega
  · rintro ⟨ht, hi, hj, hp, hlast⟩
    rw [between_split ht hi hj, List.reverse_append, List.reverse_cons, List.append_assoc,
      List.find?_append]
    have hnone : (s.between (t.index + 1) j).reverse.find? (p ·.kind) = none := by
      rw [List.find?_eq_none]
      intro u hu
      obtain ⟨hu, hut, huj⟩ := h.mem_between.1 (List.mem_reverse.1 hu)
      simp [hlast u hu hut huj]
    rw [hnone, Option.none_or]
    exact List.find?_cons_of_pos (by simpa using hp)

/-- A search backwards finds nothing when there is no token of its kind. -/
theorem Placed.lastBetween_eq_none (h : s.Placed) {p : Kind → Bool} :
    s.lastBetween p i j = none ↔
      ∀ u, s.Has u → i ≤ u.index → u.index < j → p u.kind = false := by
  unfold Stream.lastBetween
  rw [List.find?_eq_none]
  constructor
  · intro hnone u hu hi hj
    simpa using hnone u (List.mem_reverse.2 (h.mem_between.2 ⟨hu, hi, hj⟩))
  · intro hnone u hu
    obtain ⟨hu, hi, hj⟩ := h.mem_between.1 (List.mem_reverse.1 hu)
    simp [hnone u hu hi hj]

/-! ## Lines and columns -/

/-- A token starts where the text of the token in front of it ends. -/
theorem Placed.position_next (h : s.Placed) (ht : s.Has t) (hu : s.Has u)
    (hindex : u.index = t.index + 1) : u.position = t.position.advance t.text.toList :=
  h.next ht (hindex ▸ hu)

/-- Tokens stand on lines in their order. -/
theorem Placed.line_le (h : s.Placed) (ht : s.Has t) (hu : s.Has u) (hle : t.index ≤ u.index) :
    t.line ≤ u.line := by
  induction hn : u.index - t.index generalizing u with
  | zero => rw [ht.eq hu (by omega)]
  | succ n ih =>
      obtain ⟨v, hv, hindex⟩ := h.has_of_le (i := u.index - 1) hu (by omega)
      have hline : u.line = (v.position.advance v.text.toList).line := by
        rw [← h.position_next hv hu (by omega)]
        rfl
      have := Position.line_le_advance v.position v.text.toList
      have hvt := ih hv (by omega) (by omega)
      have : v.position.line = v.line := rfl
      omega

/-- Columns are counted from one. -/
theorem Placed.one_le_column (h : s.Placed) (ht : s.Has t) : 1 ≤ t.column := by
  induction hn : t.index generalizing t with
  | zero =>
      have hfirst : s.get? 0 = some t := hn ▸ ht
      exact Nat.le_of_eq (congrArg Position.column (h.first hfirst)).symm
  | succ n ih =>
      obtain ⟨u, hu, hindex⟩ := h.has_of_le (i := n) ht (by omega)
      have hpos := congrArg Position.column (h.position_next hu ht (by omega))
      have hone := Position.one_le_column_advance (p := u.position) (ih hu hindex) u.text.toList
      rw [← hpos] at hone
      exact hone

/-- A row of short tokens passes every line from that of its first token to that of the token
behind it. -/
theorem Placed.exists_on_line (h : s.Placed) (ht : s.Has t) (hu : s.Has u)
    (hle : t.index ≤ u.index)
    (hshort : ∀ v, s.Has v → t.index ≤ v.index → v.index < u.index → v.Short) (line : Nat)
    (hfrom : t.line ≤ line) (hto : line ≤ u.line) :
    ∃ v, s.Has v ∧ t.index ≤ v.index ∧ v.index ≤ u.index ∧ v.line = line := by
  induction hn : u.index - t.index generalizing u with
  | zero =>
      obtain rfl := ht.eq hu (by omega)
      exact ⟨t, ht, hle, hle, by omega⟩
  | succ n ih =>
      by_cases heq : u.line = line
      · exact ⟨u, hu, hle, Nat.le_refl _, heq⟩
      · obtain ⟨v, hv, hindex⟩ := h.has_of_le (i := u.index - 1) hu (by omega)
        have hstep := hshort v hv (by omega) (by omega) v.position
        rw [← h.position_next hv hu (by omega)] at hstep
        have hlines : u.line ≤ v.line + 1 := hstep
        obtain ⟨w, hw, htw, hwv, hline⟩ := ih hv (by omega)
          (fun x hx htx hxv => hshort x hx htx (by omega)) (by omega) (by omega)
        exact ⟨w, hw, htw, by omega, hline⟩

/-- A token behind an unbroken one goes on with its line. -/
theorem Placed.unbroken_next (h : s.Placed) (ht : s.Has t) (hu : s.Has u)
    (hindex : u.index = t.index + 1) (hub : Unbroken t.text.toList) :
    u.line = t.line ∧ u.column = t.column + t.text.length := by
  have hpos := h.position_next ht hu hindex
  rw [Position.advance_unbroken _ hub] at hpos
  have hline := congrArg Position.line hpos
  have hcolumn := congrArg Position.column hpos
  exact ⟨hline, by rw [← String.length_toList]; exact hcolumn⟩

/-- A token behind a line break starts a line. -/
theorem Placed.column_of_endsLine (h : s.Placed) (ht : s.Has t) (hu : s.Has u)
    (hindex : u.index = t.index + 1) (hends : endsLine t.text = true) : u.column = 1 := by
  have hpos := congrArg Position.column (h.position_next ht hu hindex)
  rwa [Position.column_advance_of_endsLine hends] at hpos

end Stream

end PhpDoc
