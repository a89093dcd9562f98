import PhpDoc.Proofs.Token.Bracket
import PhpDoc.Proofs.Token.Sound

/-!
# Neighbouring tokens

Where the list of the tokens of a stream is given as an append, the tokens at the seam are
neighbours: their indices, lines and columns follow from each other.
-/

namespace PhpDoc

open Text

variable {s : Stream} {c : CommentSpan}

namespace Stream

/-- Neighbours in the list of the tokens are neighbours in the stream. -/
theorem Placed.next_of_append (hs : s.Placed) {before after : List Token} {t u : Token}
    (htokens : s.tokens.toList = before ++ t :: u :: after) :
    s.Has t ∧ s.Has u ∧ u.index = t.index + 1 := by
  obtain ⟨ht, htindex⟩ := hs.has_of_append before (u :: after) htokens
  obtain ⟨hu, huindex⟩ := hs.has_of_append (before ++ [t]) after (by simpa using htokens)
  refine ⟨ht, hu, ?_⟩
  rw [htindex, huindex, List.length_append, List.length_singleton]

/-- The token in front of another one is found by the index of the other one. -/
theorem Placed.before?_of_append (hs : s.Placed) {before after : List Token} {t u : Token}
    (htokens : s.tokens.toList = before ++ t :: u :: after) : s.before? u.index = some t := by
  obtain ⟨ht, -, hindex⟩ := hs.next_of_append htokens
  exact hs.before?.2 ⟨ht, hindex.symm⟩

/-- Behind a token without a line break the line goes on. -/
theorem Placed.unbroken_of_append (hs : s.Placed) {before after : List Token} {t u : Token}
    (htokens : s.tokens.toList = before ++ t :: u :: after) (h : Unbroken t.text.toList) :
    u.line = t.line ∧ u.column = t.column + t.text.length := by
  obtain ⟨ht, hu, hindex⟩ := hs.next_of_append htokens
  exact hs.unbroken_next ht hu hindex h

/-- Behind a line break a line starts. -/
theorem Placed.ending_of_append (hs : s.Placed) {before after : List Token} {t u : Token}
    (htokens : s.tokens.toList = before ++ t :: u :: after) (h : IsEnding t.text.toList) :
    u.line = t.line + 1 ∧ u.column = 1 := by
  obtain ⟨ht, hu, hindex⟩ := hs.next_of_append htokens
  have hposition := hs.position_next ht hu hindex
  rw [Position.advance_ending _ h] at hposition
  exact ⟨congrArg Position.line hposition, congrArg Position.column hposition⟩

/-- Tokens without a line break stand on the line of the token behind them. -/
theorem Placed.line_of_append (hs : s.Placed) {before ts after : List Token} {u : Token}
    (htokens : s.tokens.toList = before ++ (ts ++ u :: after))
    (h : ∀ t ∈ ts, Unbroken t.text.toList) : ∀ t ∈ ts, t.line = u.line := by
  induction ts generalizing before with
  | nil => simp
  | cons v ts ih =>
      obtain ⟨hv, hts⟩ := List.forall_mem_cons.1 h
      have hbehind : s.tokens.toList = (before ++ [v]) ++ (ts ++ u :: after) := by
        simpa using htokens
      have hrest := ih hbehind hts
      refine List.forall_mem_cons.2 ⟨?_, hrest⟩
      cases ts with
      | nil => exact (hs.unbroken_of_append htokens hv).1.symm
      | cons w ts =>
          rw [← hrest w List.mem_cons_self]
          exact (hs.unbroken_of_append htokens hv).1.symm

/-- A token in the front of a stream has a lower index than one behind it. -/
theorem Placed.index_lt_of_append (hs : s.Placed) {xs ys : List Token}
    (heq : s.tokens.toList = xs ++ ys) {t u : Token} (ht : t ∈ xs) (hu : u ∈ ys) :
    t.index < u.index := by
  have hsorted := hs.pairwise_tokens
  rw [heq, List.pairwise_append] at hsorted
  exact hsorted.2.2 t ht u hu

/-- Tokens behind a token are the lexemes placed from its end on. -/
theorem Placed.eq_place (hs : s.Placed) {before ts after : List Token} {t : Token}
    (htokens : s.tokens.toList = before ++ t :: (ts ++ after)) :
    ts = Token.place (t.index + 1) (t.position.advance t.text.toList) (ts.map Token.lexeme) := by
  induction ts generalizing before t with
  | nil => rfl
  | cons u us ih =>
      obtain ⟨ht, hu, hindex⟩ := hs.next_of_append htokens
      have hposition := hs.position_next ht hu hindex
      have hbehind : s.tokens.toList = (before ++ [t]) ++ u :: (us ++ after) := by
        simpa using htokens
      have hrest := ih hbehind
      rw [List.map_cons, Token.place, ← hposition, ← hindex]
      exact congrArg (u :: ·) hrest

/-- The tokens between two tokens. -/
theorem Placed.between_eq_of_append (hs : s.Placed) {before ts after : List Token} {t u : Token}
    (htokens : s.tokens.toList = before ++ t :: (ts ++ u :: after)) :
    s.between (t.index + 1) u.index = ts := by
  have ht := hs.has_of_append before (ts ++ u :: after) htokens
  have hu := hs.has_of_append (before ++ t :: ts) after (by simpa using htokens)
  refine between_of_append (before ++ [t]) ts (u :: after) (by simpa using htokens)
    (by simp [ht.2]) ?_
  rw [hu.2]
  simp only [List.length_append, List.length_cons, List.length_nil]
  omega

/-- The tokens between the markers of a comment. -/
theorem Placed.inside_of_append (hs : s.Placed) {before inside after : List Token}
    (htokens : s.tokens.toList = before ++ c.opener :: (inside ++ c.closer :: after)) :
    s.inside c = inside :=
  hs.between_eq_of_append htokens

end Stream

end PhpDoc
