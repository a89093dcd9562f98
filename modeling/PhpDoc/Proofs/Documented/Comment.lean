import PhpDoc.Proofs.Comment.ParamTag
import PhpDoc.Proofs.Comment.Block
import PhpDoc.Proofs.Documented.Text
import PhpDoc.Proofs.Token.Neighbour

/-!
# The comment of a documented function

The tokens of the comment at their places, line by line, and the tags that are read from them: every
parameter tag has its value on its own line, stands right below the one before it, and nothing but
stars and blanks comes after its value.
-/

namespace PhpDoc

open Text Lexer

/-- A tag with a blank and a string behind it. -/
theorem Tag.ofToken_of_append {s : Stream} {stop : Nat} (hs : s.Placed)
    {before after : List Token} {token pad value : Token}
    (htokens : s.tokens.toList = before ++ token :: pad :: value :: after)
    (hpad : pad.kind = .docBlank) (hvalue : value.kind = .docString)
    (hline : value.line = token.line) (hstop : value.index < stop) :
    Tag.ofToken s token stop = ⟨token, some pad, some value, stop⟩ := by
  obtain ⟨-, hpadHas, hpadIndex⟩ := hs.next_of_append htokens
  have hbehind : s.tokens.toList = (before ++ [token]) ++ pad :: value :: after := by
    simpa using htokens
  obtain ⟨-, hvalueHas, hvalueIndex⟩ := hs.next_of_append hbehind
  have hbetween : s.between (token.index + 1) stop =
      pad :: value :: s.between (value.index + 1) stop := by
    rw [← hpadIndex, Stream.between_cons hpadHas (by omega), ← hvalueIndex,
      Stream.between_cons hvalueHas hstop]
  unfold Tag.ofToken
  rw [hbetween]
  simp [Tag.splitPadding, hpad, hvalue, hline]

namespace Documented

/-- The tokens from the open marker of the comment to the line of the first parameter. The first one
has index `i` and ends line `l`. -/
def frontTokens (i l column : Nat) : List Token :=
  [⟨.docBlank, "\n", i, l, column⟩, ⟨.docBlank, " ", i + 1, l + 1, 1⟩,
    ⟨.docStar, "*", i + 2, l + 1, 2⟩, ⟨.docBlank, " ", i + 3, l + 1, 3⟩,
    ⟨.docString, "Does things.", i + 4, l + 1, 4⟩, ⟨.docBlank, "\n", i + 5, l + 1, 16⟩,
    ⟨.docBlank, " ", i + 6, l + 2, 1⟩, ⟨.docStar, "*", i + 7, l + 2, 2⟩,
    ⟨.docBlank, "\n", i + 8, l + 2, 3⟩]

/-- The tokens of the line of a parameter. The first one has index `i`. -/
def rowTokens (i l : Nat) (v : String) : List Token :=
  [⟨.docBlank, " ", i, l, 1⟩, ⟨.docStar, "*", i + 1, l, 2⟩, ⟨.docBlank, " ", i + 2, l, 3⟩,
    ⟨.docTag, "@param", i + 3, l, 4⟩, ⟨.docBlank, " ", i + 4, l, 10⟩,
    ⟨.docString, v, i + 5, l, 11⟩, ⟨.docBlank, "\n", i + 6, l, 11 + v.length⟩]

/-- The tokens of the lines of several parameters. -/
def rowsTokens (i l : Nat) : List String → List Token
  | [] => []
  | v :: vs => rowTokens i l v ++ rowsTokens (i + 7) (l + 1) vs

/-- The tokens behind the lines of the parameters, up to the close marker. -/
def backTokens (i l : Nat) : List Token :=
  [⟨.docBlank, " ", i, l, 1⟩, ⟨.docStar, "*", i + 1, l, 2⟩, ⟨.docBlank, "\n", i + 2, l, 3⟩,
    ⟨.docBlank, " ", i + 3, l + 1, 1⟩, ⟨.docStar, "*", i + 4, l + 1, 2⟩,
    ⟨.docBlank, " ", i + 5, l + 1, 3⟩, ⟨.docTag, "@return", i + 6, l + 1, 4⟩,
    ⟨.docBlank, " ", i + 7, l + 1, 11⟩, ⟨.docString, "void", i + 8, l + 1, 12⟩,
    ⟨.docBlank, "\n", i + 9, l + 1, 16⟩, ⟨.docBlank, " ", i + 10, l + 2, 1⟩]

/-- The lexemes of a line with a parameter tag are placed on that line. -/
theorem place_row {v : String} (hv : Unbroken v.toList) (i l : Nat) (ls : List Lexeme) :
    Token.place i ⟨l, 1⟩ (row v ++ ls) = rowTokens i l v ++ Token.place (i + 7) ⟨l + 1, 1⟩ ls := by
  have hvalue : Position.advance ⟨l, 11⟩ v.toList = ⟨l, 11 + v.length⟩ :=
    Position.advance_unbroken _ hv
  have hblank : ∀ column, Position.advance ⟨l, column⟩ " ".toList = ⟨l, column + 1⟩ := fun _ => rfl
  have hstar : Position.advance ⟨l, 2⟩ "*".toList = ⟨l, 3⟩ := rfl
  have htag : Position.advance ⟨l, 4⟩ "@param".toList = ⟨l, 10⟩ := rfl
  have hending : ∀ column, Position.advance ⟨l, column⟩ "\n".toList = ⟨l + 1, 1⟩ := fun _ => rfl
  simp only [row, rowTokens, List.cons_append, List.nil_append, Token.place, hblank, hstar, htag,
    hvalue, hending]

/-- The lexemes of lines with parameter tags are placed line by line. -/
theorem place_rows {vs : List String} (h : ∀ v ∈ vs, Unbroken v.toList) (i l : Nat)
    (ls : List Lexeme) :
    Token.place i ⟨l, 1⟩ (vs.flatMap row ++ ls) = rowsTokens i l vs ++
      Token.place (i + 7 * vs.length) ⟨l + vs.length, 1⟩ ls := by
  induction vs generalizing i l with
  | nil => rfl
  | cons v vs ih =>
      obtain ⟨hv, hvs⟩ := List.forall_mem_cons.1 h
      have hindex : i + 7 * (v :: vs).length = i + 7 + 7 * vs.length := by
        rw [List.length_cons]
        omega
      have hline : l + (v :: vs).length = l + 1 + vs.length := by
        rw [List.length_cons]
        omega
      rw [List.flatMap_cons, List.append_assoc, place_row hv, ih hvs, rowsTokens, List.append_assoc,
        hindex, hline]

/-- The places of the lexemes of the comment, when the last parameter has the value `v`. -/
theorem place_inside {xs : List String} {v : String} (hxs : ∀ x ∈ xs, Unbroken x.toList)
    (hv : Unbroken v.toList) {i l j m : Nat} (column : Nat) (hj : j = i + 9 + 7 * xs.length)
    (hm : m = l + 3 + xs.length) :
    Token.place i ⟨l, column⟩ (inside (xs ++ [v])) = frontTokens i l column ++
      (rowsTokens (i + 9) (l + 3) xs ++ (rowTokens j m v ++ backTokens (j + 7) (m + 1))) := by
  have hfront : Token.place i ⟨l, column⟩ (inside (xs ++ [v])) = frontTokens i l column ++
      Token.place (i + 9) ⟨l + 3, 1⟩ ((xs ++ [v]).flatMap row ++ back) := rfl
  have hback : Token.place (j + 7) ⟨m + 1, 1⟩ back = backTokens (j + 7) (m + 1) := rfl
  rw [hfront, List.flatMap_append, List.append_assoc, place_rows hxs, ← hj, ← hm,
    List.flatMap_singleton, place_row hv, hback]

/-! ## The tag of a line -/

/-- The tag of the line of a parameter. -/
def tag (i l stop : Nat) (v : String) : Tag :=
  ⟨⟨.docTag, "@param", i + 3, l, 4⟩, some ⟨.docBlank, " ", i + 4, l, 10⟩,
    some ⟨.docString, v, i + 5, l, 11⟩, stop⟩

/-- The tag behind the parameters. -/
def returnTag (i l stop : Nat) : Tag :=
  ⟨⟨.docTag, "@return", i + 6, l + 1, 4⟩, some ⟨.docBlank, " ", i + 7, l + 1, 11⟩,
    some ⟨.docString, "void", i + 8, l + 1, 12⟩, stop⟩

variable {s : Stream} {i l j m stop : Nat} {x v : String} {xs : List String}

/-- The lines of the parameters in a stream. The one of the last parameter is line `m` and starts
at index `j`. -/
structure Rows (s : Stream) (i l : Nat) (xs : List String) (v : String) (j m : Nat) : Prop where
  tokens : ∃ before after, s.tokens.toList = before ++ (rowsTokens i l xs ++
    (rowTokens j m v ++ (backTokens (j + 7) (m + 1) ++ after)))
  index : j = i + 7 * xs.length
  line : m = l + xs.length

/-- Behind the first line stand the other ones. -/
theorem Rows.tail (h : Rows s i l (x :: xs) v j m) : Rows s (i + 7) (l + 1) xs v j m := by
  obtain ⟨before, after, htokens⟩ := h.tokens
  have hindex := h.index
  have hline := h.line
  rw [List.length_cons] at hindex hline
  refine ⟨⟨before ++ rowTokens i l x, after, ?_⟩, by omega, by omega⟩
  rw [htokens, rowsTokens]
  simp only [List.append_assoc]

/-- What stands in front of the tag of a line. -/
def leadTokens (i l : Nat) : List Token :=
  [⟨.docBlank, " ", i, l, 1⟩, ⟨.docStar, "*", i + 1, l, 2⟩, ⟨.docBlank, " ", i + 2, l, 3⟩]

/-- The first of the lines starts with its tag. -/
theorem exists_lead (hj : j = i + 7 * xs.length) (hm : m = l + xs.length) (rest : List Token) :
    ∃ after, rowsTokens i l xs ++ (rowTokens j m v ++ rest) =
      leadTokens i l ++ ⟨.docTag, "@param", i + 3, l, 4⟩ :: after := by
  cases xs with
  | nil =>
      obtain rfl : j = i := hj
      obtain rfl : m = l := hm
      exact ⟨_, rfl⟩
  | cons y ys => exact ⟨_, rfl⟩

/-- Behind the line of a parameter that is not the last one, the next one starts. -/
theorem Rows.first (h : Rows s i l (x :: xs) v j m) : ∃ before after,
    s.tokens.toList = before ++ (rowTokens i l x ++ (leadTokens (i + 7) (l + 1) ++ after)) := by
  obtain ⟨before, after, htokens⟩ := h.tokens
  obtain ⟨more, hmore⟩ := exists_lead h.tail.index h.tail.line (v := v)
    (backTokens (j + 7) (m + 1) ++ after)
  rw [rowsTokens, List.append_assoc, hmore] at htokens
  exact ⟨before, _, htokens⟩

/-- The last of the lines stands in front of the return tag. -/
theorem Rows.last (h : Rows s i l xs v j m) : ∃ before after, s.tokens.toList = before ++
    (rowTokens j m v ++ ((backTokens (j + 7) (m + 1)).take 6 ++ after)) := by
  obtain ⟨before, after, htokens⟩ := h.tokens
  rw [← List.append_assoc] at htokens
  exact ⟨before ++ rowsTokens i l xs, _, htokens⟩

/-- A row in a stream. What comes behind its value, up to the end of the tag, is stars and
blanks. -/
structure Row (s : Stream) (i l : Nat) (x : String) (stop : Nat) : Prop where
  value : s.Has ⟨.docString, x, i + 5, l, 11⟩
  lt : i + 5 < stop
  filler : ∀ u, s.Has u → i + 5 < u.index → u.index < stop → u.kind.isFiller = true
  ofToken : Tag.ofToken s ⟨.docTag, "@param", i + 3, l, 4⟩ stop = tag i l stop x

/-- A line stands where its tokens stand in the stream, with fillers behind them. -/
theorem row_of_append (hs : s.Placed) {before gap after : List Token}
    (htokens : s.tokens.toList = before ++ (rowTokens i l x ++ (gap ++ after)))
    (hgap : ∀ u ∈ gap, u.kind.isFiller = true) : Row s i l x (i + 7 + gap.length) := by
  have hvalue : s.Has ⟨.docString, x, i + 5, l, 11⟩ :=
    (hs.has_of_append (before ++ (rowTokens i l x).take 5)
      (⟨.docBlank, "\n", i + 6, l, 11 + x.length⟩ :: (gap ++ after))
      (by simpa [rowTokens] using htokens)).1
  have hi : i = before.length := (hs.has_of_append before _ htokens).2
  have hbehind : s.between (i + 6) (i + 7 + gap.length) =
      ⟨.docBlank, "\n", i + 6, l, 11 + x.length⟩ :: gap :=
    Stream.between_of_append (before ++ (rowTokens i l x).take 6) _ after
      (by simpa [rowTokens] using htokens) (by simp [rowTokens, hi])
      (by simp [rowTokens, hi]; omega)
  refine ⟨hvalue, by omega, fun u hu hlow hhigh => ?_, ?_⟩
  · have hmem : u ∈ s.between (i + 6) (i + 7 + gap.length) := hs.mem_between.2 ⟨hu, hlow, hhigh⟩
    rw [hbehind] at hmem
    rcases List.mem_cons.1 hmem with rfl | hmem
    · rfl
    · exact hgap u hmem
  · have htag : s.tokens.toList = (before ++ (rowTokens i l x).take 3) ++
        ⟨.docTag, "@param", i + 3, l, 4⟩ :: ⟨.docBlank, " ", i + 4, l, 10⟩ ::
          ⟨.docString, x, i + 5, l, 11⟩ :: ⟨.docBlank, "\n", i + 6, l, 11 + x.length⟩ ::
            (gap ++ after) := by
      simpa [rowTokens] using htokens
    exact Tag.ofToken_of_append hs htag rfl rfl rfl (by simp; omega)

/-- Each line but the last one ends in front of the tag of the next line. -/
theorem Rows.row (hs : s.Placed) (h : Rows s i l (x :: xs) v j m) : Row s i l x (i + 10) := by
  obtain ⟨before, after, htokens⟩ := h.first
  exact row_of_append hs htokens (by simp [leadTokens, Kind.isFiller])

/-- The last line with a parameter tag ends in front of the return tag. -/
theorem Rows.row_last (hs : s.Placed) (h : Rows s i l xs v j m) : Row s j m v (j + 13) := by
  obtain ⟨before, after, htokens⟩ := h.last
  exact row_of_append hs htokens (by simp [backTokens, Kind.isFiller])

/-! ## The tags of the comment -/

/-- The tags of the parameters in front of the last one. -/
def earlierTags (i l : Nat) : List String → List Tag
  | [] => []
  | v :: vs => tag i l (i + 10) v :: earlierTags (i + 7) (l + 1) vs

/-- The tag behind the parameters is the return tag with its type. -/
theorem ofToken_return (hs : s.Placed) (h : Rows s i l xs v j m) (hstop : j + 15 < stop) :
    Tag.ofToken s ⟨.docTag, "@return", j + 13, m + 2, 4⟩ stop = returnTag (j + 7) (m + 1) stop := by
  obtain ⟨before, after, htokens⟩ := h.tokens
  have htag : s.tokens.toList = (before ++ (rowsTokens i l xs ++ (rowTokens j m v ++
      (backTokens (j + 7) (m + 1)).take 6))) ++ ⟨.docTag, "@return", j + 13, m + 2, 4⟩ ::
        ⟨.docBlank, " ", j + 14, m + 2, 11⟩ :: ⟨.docString, "void", j + 15, m + 2, 12⟩ ::
          ((backTokens (j + 7) (m + 1)).drop 9 ++ after) := by
    simpa [backTokens] using htokens
  exact Tag.ofToken_of_append hs htag rfl rfl rfl hstop

/-- The tags read from the tokens of the parameters and of what is behind them. -/
theorem Rows.tagsOf (hs : s.Placed) (h : Rows s i l xs v j m) (hstop : j + 15 < stop) :
    tagsOf s stop ((rowsTokens i l xs ++ (rowTokens j m v ++ backTokens (j + 7) (m + 1))).filter
        (·.kind == .docTag)) =
      earlierTags i l xs ++ [tag j m (j + 13) v, returnTag (j + 7) (m + 1) stop] := by
  induction xs generalizing i l with
  | nil =>
      show [Tag.ofToken s ⟨.docTag, "@param", j + 3, m, 4⟩ (j + 13),
        Tag.ofToken s ⟨.docTag, "@return", j + 13, m + 2, 4⟩ stop] = _
      rw [(h.row_last hs).ofToken, ofToken_return hs h hstop]
      rfl
  | cons x xs ih =>
      obtain ⟨more, hmore⟩ := exists_lead h.tail.index h.tail.line (v := v)
        (backTokens (j + 7) (m + 1))
      have hrest := ih h.tail
      rw [hmore] at hrest
      rw [rowsTokens, List.append_assoc, hmore]
      show Tag.ofToken s ⟨.docTag, "@param", i + 3, l, 4⟩ (i + 10) :: PhpDoc.tagsOf s stop
        ((leadTokens (i + 7) (l + 1) ++ ⟨.docTag, "@param", i + 7 + 3, l + 1, 4⟩ :: more).filter
          (·.kind == .docTag)) = _
      rw [hrest, (h.row hs).ofToken]
      rfl

end Documented

open Documented

/-! ## The block of the comment -/

/-- A comment of a stream that documents parameters: those with the values `xs`, and the last one
with the value `v`, whose line `m` starts at index `j`. -/
structure Stream.Documents (s : Stream) (c : CommentSpan) (xs : List String) (v : String)
    (j m : Nat) (before after : List Token) : Prop where
  sound : s.Sound
  frames : s.Frames c
  tokens : s.tokens.toList = before ++ c.opener ::
    (frontTokens (c.opener.index + 1) c.opener.line (c.opener.column + 3) ++
      (rowsTokens (c.opener.index + 10) (c.opener.line + 3) xs ++
        (rowTokens j m v ++ (backTokens (j + 7) (m + 1) ++ c.closer :: after))))
  index : j = c.opener.index + 10 + 7 * xs.length
  line : m = c.opener.line + 3 + xs.length

/-- A comment with the lexemes of the documentation documents the parameters. -/
theorem Stream.documents_of_append {s : Stream} {c : CommentSpan} {xs : List String} {v : String}
    {before ts after : List Token} (hs : s.Sound) (hc : s.Frames c)
    (htokens : s.tokens.toList = before ++ c.opener :: (ts ++ c.closer :: after))
    (hts : ts.map Token.lexeme = Documented.inside (xs ++ [v])) (hxs : ∀ x ∈ xs, Unbroken x.toList)
    (hv : Unbroken v.toList) :
    s.Documents c xs v (c.opener.index + 10 + 7 * xs.length) (c.opener.line + 3 + xs.length)
      before after := by
  have hplace := hs.eq_place htokens
  have hposition : c.opener.position.advance c.opener.text.toList =
      ⟨c.opener.line, c.opener.column + 3⟩ := by
    rw [hc.openerText]
    rfl
  rw [hposition, hts, place_inside hxs hv _ rfl rfl] at hplace
  refine ⟨hs, hc, ?_, rfl, rfl⟩
  rw [htokens, hplace]
  simp only [List.append_assoc]

namespace Stream.Documents

variable {s : Stream} {c : CommentSpan} {xs : List String} {v : String} {j m : Nat}
  {before after : List Token}

/-- The lines with parameter tags stand behind the short description. -/
theorem rows (h : s.Documents c xs v j m before after) :
    Rows s (c.opener.index + 10) (c.opener.line + 3) xs v j m := by
  refine ⟨⟨before ++ c.opener :: frontTokens (c.opener.index + 1) c.opener.line
    (c.opener.column + 3), c.closer :: after, ?_⟩, h.index, h.line⟩
  rw [h.tokens, List.append_assoc, List.cons_append]

/-- Between the markers stand the short description, the parameter tags and the return tag. -/
theorem inside_eq (h : s.Documents c xs v j m before after) :
    s.inside c = frontTokens (c.opener.index + 1) c.opener.line (c.opener.column + 3) ++
      (rowsTokens (c.opener.index + 10) (c.opener.line + 3) xs ++
        (rowTokens j m v ++ backTokens (j + 7) (m + 1))) := by
  have htokens : s.tokens.toList = before ++ c.opener ::
      ((frontTokens (c.opener.index + 1) c.opener.line (c.opener.column + 3) ++
        (rowsTokens (c.opener.index + 10) (c.opener.line + 3) xs ++
          (rowTokens j m v ++ backTokens (j + 7) (m + 1)))) ++ c.closer :: after) := by
    rw [h.tokens]
    simp only [List.append_assoc]
  exact h.sound.inside_of_append htokens

/-- The place of the close marker. -/
theorem closer_eq (h : s.Documents c xs v j m before after) :
    c.closer.index = j + 18 ∧ c.closer.line = m + 3 ∧ c.closer.column = 2 := by
  have htokens : s.tokens.toList = (before ++ c.opener ::
      (frontTokens (c.opener.index + 1) c.opener.line (c.opener.column + 3) ++
        (rowsTokens (c.opener.index + 10) (c.opener.line + 3) xs ++
          (rowTokens j m v ++ (backTokens (j + 7) (m + 1)).take 10)))) ++
      ⟨.docBlank, " ", j + 17, m + 3, 1⟩ :: c.closer :: after := by
    rw [h.tokens]
    simp [backTokens]
  obtain ⟨-, -, hindex⟩ := h.sound.next_of_append htokens
  have hblank : Unbroken " ".toList := by decide
  obtain ⟨hline, hcolumn⟩ := h.sound.unbroken_of_append htokens hblank
  have hlength : " ".length = 1 := rfl
  exact ⟨hindex, hline, by rw [hcolumn, hlength]⟩

/-- The parameter tags. -/
def paramTags (c : CommentSpan) (xs : List String) (v : String) (j m : Nat) : List Tag :=
  earlierTags (c.opener.index + 10) (c.opener.line + 3) xs ++ [tag j m (j + 13) v]

/-- The tags of the comment are the parameter tags and the return tag. -/
theorem tags_eq (h : s.Documents c xs v j m before after) : (Block.ofSpan s c).tags =
    paramTags c xs v j m ++ [returnTag (j + 7) (m + 1) (j + 18)] := by
  obtain ⟨hindex, -, -⟩ := h.closer_eq
  rw [Block.ofSpan_tags, h.frames.tags, h.inside_eq, List.filter_append, hindex, paramTags,
    List.append_assoc, List.singleton_append]
  exact h.rows.tagsOf h.sound.toPlaced (by omega)

end Stream.Documents

end PhpDoc
