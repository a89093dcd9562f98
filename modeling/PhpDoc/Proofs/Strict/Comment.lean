import PhpDoc.Comment.ParamTag
import PhpDoc.Comment.Star
import PhpDoc.Proofs.Comment.Block
import PhpDoc.Proofs.Lint.Check
import PhpDoc.Proofs.Strict.Reading

/-!
# Comments, read strictly

The block of a comment is located from the index of its open marker: the partner of the marker, the
tags noted for it and the ends of the tags, and from these the descriptions. Groups, parameter tags
and the star column are read from a block. None of the reads fails in a comment of a source text.
-/

namespace PhpDoc.Strict

variable {s : Stream} {c : CommentSpan} {b : Block} {t : Tag}

/-! ## Markers and tags -/

/-- The index of the close marker of the comment whose open marker has index `i`. -/
def closer (s : Stream) (i : Nat) : Except Fault Nat :=
  (s.commentAt? i).elim (.error (.unpaired i)) fun c => .ok c.closer.index

/-- The index of the open marker of the comment whose close marker has index `i`. -/
def opener (s : Stream) (i : Nat) : Except Fault Nat :=
  (s.commentClosedAt? i).elim (.error (.unpaired i)) fun c => .ok c.opener.index

/-- The indices of the tags of the comment whose open marker has index `i`. -/
def tagIndices (s : Stream) (i : Nat) : List Nat :=
  (s.commentAt? i).elim [] fun c => c.tags.map (·.index)

/-- A comment is found by its open marker. -/
theorem commentAt?_opener (hs : s.Sound) (hc : c ∈ s.comments) :
    s.commentAt? c.opener.index = some c := by
  have hframes := hs.frames hc
  obtain ⟨d, hd, hopener, hfound⟩ := Lint.exists_commentAt hs hframes.opener hframes.openerKind
  rw [hfound, hframes.eq (hs.frames hd) hopener.symm]

/-- The tag at index `i`, which ends at index `stop`. -/
def tag (s : Stream) (i stop : Nat) : Except Fault Tag := do
  let token ← fetch s i
  let padding ← fetchIf s (·.kind == .docBlank) (i + 1) stop
  let following := if padding.isSome then i + 1 + 1 else i + 1
  let value ← fetchIf s (fun t => t.kind == .docString && t.line == token.line) following stop
  return ⟨token, if value.isSome then padding else none, value, stop⟩

/-- A tag token of the stream is read without a fault. -/
theorem tag_eq_ok (hs : s.Placed) {token : Token} (ht : s.Has token) {stop : Nat}
    (h : stop ≤ s.size) : tag s token.index stop = .ok (Tag.ofToken s token stop) := by
  unfold tag Tag.ofToken
  simp only [fetch_has ht, fetchIf_eq_ok hs h, ok_bind, pure_eq_ok]
  cases hbetween : s.between (token.index + 1) stop with
  | nil => simp [Tag.splitPadding, hbetween]
  | cons u us =>
      obtain ⟨-, -, -, hus⟩ := hs.between_eq_cons hbetween
      -- the value stands behind a blank or right behind the name
      cases hblank : u.kind == .docBlank with
      | true =>
          simp only [Tag.splitPadding, hblank, List.head?_cons, Option.filter_some, ↓reduceIte,
            Option.isSome_some, ← hus]
          cases us with
          | nil => rfl
          | cons v vs =>
              simp only [List.head?_cons, Option.filter_some]
              split <;> simp_all
      | false =>
          simp only [Tag.splitPadding, hblank, List.head?_cons, Option.filter_some,
            Bool.false_eq_true, ↓reduceIte, Option.isSome_none, hbetween]
          split <;> simp_all

/-- The indices at which the tags with the given indices end: each where the next one starts, and
the last at index `stop`. -/
def tagEnds (stop : Nat) : List Nat → List Nat
  | [] => []
  | _ :: later => later ++ [stop]

/-- The tags at the given indices, of which the last ends at index `stop`. -/
def tags (s : Stream) (indices : List Nat) (stop : Nat) : Except Fault (List Tag) := do
  let pairs ← zipStrict indices (tagEnds stop indices)
  pairs.mapM fun (i, stop) => tag s i stop

/-- Neighbouring tag tokens are read without a fault, each up to the next one. -/
theorem mapM_tag (hs : s.Placed) {token : Token} {later : List Token}
    (ht : ∀ t ∈ token :: later, s.Has t) {stop : Nat} (h : stop ≤ s.size) :
    (((token :: later).map (·.index)).zip (later.map (·.index) ++ [stop])).mapM
      (fun (i, stop) => tag s i stop) = .ok (tagsOf s stop (token :: later)) := by
  induction later generalizing token with
  | nil =>
      rw [tagsOf]
      simp [tag_eq_ok hs (ht token List.mem_cons_self) h]
  | cons next later ih =>
      obtain ⟨hhas, hlater⟩ := List.forall_mem_cons.1 ht
      have hnext := (hlater next List.mem_cons_self).index_lt_size
      have hrest := ih hlater
      simp only [List.map_cons, List.cons_append, List.zip_cons_cons, List.mapM_cons] at hrest ⊢
      rw [tag_eq_ok hs hhas (Nat.le_of_lt hnext), tagsOf, ok_bind, hrest]
      rfl

/-- The tags at tokens of the stream are read without a fault. -/
theorem tags_eq_ok (hs : s.Placed) {tokens : List Token} (ht : ∀ t ∈ tokens, s.Has t) {stop : Nat}
    (h : stop ≤ s.size) : tags s (tokens.map (·.index)) stop = .ok (tagsOf s stop tokens) := by
  unfold tags
  cases tokens with
  | nil => rfl
  | cons token later =>
      rw [zipStrict_eq_ok (by simp [tagEnds])]
      exact mapM_tag hs ht h

/-- The strings with indices from `start` up to, but not including, `stop`. -/
def strings (s : Stream) (start stop : Nat) : Except Fault (List Token) :=
  (fetchRange s start stop).map (·.filter (·.kind == .docString))

/-- The strings of a range inside the stream are read without a fault. -/
theorem strings_eq_ok (hs : s.Placed) {start stop : Nat} (h : stop ≤ s.size) :
    strings s start stop = .ok (Block.stringsBetween s start stop) := by
  rw [strings, fetchRange_eq_ok hs h]
  rfl

/-- The strings that continue the value of a tag on later lines. -/
def continuation (s : Stream) (t : Tag) : Except Fault (List Token) :=
  strings s ((t.value.getD t.token).index + 1) t.stop

/-- The strings behind a tag are read without a fault. -/
theorem continuation_eq_ok (hs : s.Placed) (h : t.stop ≤ s.size) :
    continuation s t = .ok (t.continuation s) :=
  strings_eq_ok hs h

/-! ## Blocks -/

/-- The long description after the short one, in a comment whose close marker has index `closer`. -/
def longAfter (s : Stream) (short : Description) (closer stop : Nat) :
    Except Fault (Option Description) := do
  match ← fetchFirst s (!·.isFiller) (short.last.index + 1) (closer - 1) with
  | none => return none
  | some t =>
      if t.kind == .docString then
        let more ← strings s (t.index + 1) stop
        return some ⟨t, more⟩
      else return none

/-- The long description behind a short one is read without a fault. -/
theorem longAfter_eq_ok (hs : s.Placed) {short : Description} {closer : Token} {stop : Nat}
    (h : stop ≤ s.size) :
    longAfter s short closer.index stop = .ok (Block.longAfter s short closer stop) := by
  unfold longAfter Block.longAfter
  rw [fetchFirst_eq_ok hs, ok_bind]
  cases s.firstBetween (!·.isFiller) (short.last.index + 1) (closer.index - 1) with
  | none => rfl
  | some t =>
      simp only [strings_eq_ok hs h, ok_bind, pure_eq_ok]
      split <;> rfl

/-- The block of the comment whose open marker has index `i`. -/
def block (s : Stream) (i : Nat) : Except Fault Block := do
  let j ← closer s i
  let indices := tagIndices s i
  let tags ← tags s indices j
  let opener ← fetch s i
  let closer ← fetch s j
  match ← fetchFirst s (!·.isFiller) (i + 1) j with
  | none => return ⟨opener, closer, tags, none, none, none⟩
  | some t =>
      if t.kind == .docString then
        let stop := indices.head?.getD j
        let following ← strings s (t.index + 1) stop
        let short : Description := ⟨t, Block.consecutive t.line following⟩
        let long ← longAfter s short j stop
        return ⟨opener, closer, tags, some t, some short, long⟩
      else return ⟨opener, closer, tags, some t, none, none⟩

/-- The block of a comment is read from its open marker without a fault. -/
theorem block_eq_ok (hs : s.Sound) (hc : c ∈ s.comments) :
    block s c.opener.index = .ok (Block.ofSpan s c) := by
  have hframes := hs.frames hc
  have hfound := commentAt?_opener hs hc
  have hcloser : closer s c.opener.index = .ok c.closer.index := by
    rw [closer, hfound]
    rfl
  have hindices : tagIndices s c.opener.index = c.tags.map (·.index) := by
    rw [tagIndices, hfound]
    rfl
  have hsize := Nat.le_of_lt hframes.closer.index_lt_size
  have htags : tags s (c.tags.map (·.index)) c.closer.index =
      .ok (tagsOf s c.closer.index c.tags) :=
    tags_eq_ok hs.toPlaced (fun t ht => ((hframes.mem_tags hs.toPlaced).1 ht).1) hsize
  have hstop : (c.tags.map (·.index)).head?.getD c.closer.index = c.stop := by
    unfold CommentSpan.stop
    cases c.tags <;> rfl
  have hle : c.stop ≤ s.size := Nat.le_trans (hframes.stop_le hs.toPlaced) hsize
  have hlong (short : Description) : longAfter s short c.closer.index c.stop =
      .ok (Block.longAfter s short c.closer c.stop) :=
    longAfter_eq_ok hs.toPlaced hle
  unfold block Block.ofSpan
  simp only [hcloser, hindices, htags, fetch_has hframes.opener, fetch_has hframes.closer, hstop,
    fetchFirst_eq_ok hs.toPlaced, strings_eq_ok hs.toPlaced hle,
    hlong, ok_bind, pure_eq_ok]
  cases s.firstBetween (!·.isFiller) (c.opener.index + 1) c.closer.index with
  | none => rfl
  | some t =>
      simp only
      split <;> rfl

/-! ## Groups -/

/-- Whether the tag `next` stands right below the last line of the tag `prev` and its value. -/
def follows (s : Stream) (prev next : Tag) : Except Fault Bool := do
  let last ← fetchLast s (· == .docString) prev.token.index next.token.index
  return (last.getD prev.token).line + 1 == next.token.line

/-- The tokens between two tags are read without a fault. -/
theorem follows_eq_ok (hs : s.Placed) (prev next : Tag) :
    follows s prev next = .ok (Block.follows s prev next) := by
  rw [follows, fetchLast_eq_ok hs]
  rfl

/-- The runs of tags of which each follows the one before it, when `run`, the last one first, is the
run so far and `last` its last tag. -/
def runs (s : Stream) (last : Tag) (run : List Tag) : List Tag → Except Fault (List (List Tag))
  | [] => .ok [(last :: run).reverse]
  | t :: ts => do
      if ← follows s last t then runs s t (last :: run) ts
      else return (last :: run).reverse :: (← runs s t [] ts)

/-- The tags cut in front of every tag that does not follow the one before it. -/
def partition (s : Stream) : List Tag → Except Fault (List (List Tag))
  | [] => .ok []
  | t :: ts => runs s t [] ts

/-- The groups of the tags of a block, numbered from zero. -/
def groups (s : Stream) (b : Block) : Except Fault (List TagGroup) := do
  let parts ← partition s b.tags
  return parts.zipIdx.map fun (tags, number) => ⟨number, tags⟩

/-- The runs behind earlier ones are those that a split of the list finds. -/
theorem exists_runs (hs : s.Placed) (last : Tag) (run ts : List Tag) :
    ∃ found, runs s last run ts = .ok found ∧ ∀ earlier : List (List Tag),
      List.splitBy.loop (Block.follows s) ts last run earlier = earlier.reverse ++ found := by
  induction ts generalizing last run with
  | nil => exact ⟨[(last :: run).reverse], rfl, fun earlier => by simp [List.splitBy.loop]⟩
  | cons t ts ih =>
      cases hfollows : Block.follows s last t with
      | true =>
          obtain ⟨found, hruns, hloop⟩ := ih t (last :: run)
          refine ⟨found, ?_, fun earlier => ?_⟩
          · rw [runs, follows_eq_ok hs, hfollows]
            exact hruns
          · rw [List.splitBy.loop, hfollows]
            exact hloop earlier
      | false =>
          obtain ⟨found, hruns, hloop⟩ := ih t []
          refine ⟨(last :: run).reverse :: found, ?_, fun earlier => ?_⟩
          · rw [runs, follows_eq_ok hs, hfollows, ok_bind, if_neg (by simp), hruns]
            rfl
          · rw [List.splitBy.loop, hfollows]
            simp only [hloop]
            simp

/-- Tags are cut into groups without a fault. -/
theorem partition_eq_ok (hs : s.Placed) (ts : List Tag) :
    partition s ts = .ok (ts.splitBy (Block.follows s)) := by
  cases ts with
  | nil => rfl
  | cons t ts =>
      obtain ⟨found, hruns, hloop⟩ := exists_runs hs t [] ts
      rw [partition, hruns, List.splitBy, hloop []]
      rfl

/-- The groups of a block are read without a fault. -/
theorem groups_eq_ok (hs : s.Placed) (b : Block) : groups s b = .ok (b.groups s) := by
  rw [groups, partition_eq_ok hs]
  rfl

/-! ## The star column -/

/-- The white space in front of the token at index `i`, when that token is the first one on its
line. -/
def leadingWhitespace (s : Stream) (i : Nat) : Except Fault (Option String) := do
  match ← fetchBefore s i with
  | none => return some ""
  | some t =>
      if Text.endsLine t.text then return some ""
      else if t.kind == .whitespace || t.kind == .docBlank then
        match ← fetchBefore s t.index with
        | none => return some t.text
        | some u => return if Text.endsLine u.text then some t.text else none
      else return none

/-- The white space in front of an index of the stream is read without a fault. -/
theorem leadingWhitespace_eq_ok (hs : s.Placed) {i : Nat} (h : i ≤ s.size) :
    leadingWhitespace s i = .ok (s.leadingWhitespace? i) := by
  unfold leadingWhitespace Stream.leadingWhitespace?
  rw [fetchBefore_eq_ok hs h, ok_bind]
  cases hbefore : s.before? i with
  | none => rfl
  | some t =>
      have ht := (hs.before?.1 hbefore).1
      simp only [fetchBefore_eq_ok hs (Nat.le_of_lt ht.index_lt_size), ok_bind, pure_eq_ok]
      split
      · rfl
      · split
        · cases s.before? t.index <;> rfl
        · rfl

/-- The blank in front of the token at index `i` of a comment, when that token is the first one on
its line: `none` for a token inside a line, `some none` for one without indentation. -/
def lineIndent (s : Stream) (i : Nat) : Except Fault (Option (Option Token)) := do
  match ← fetchBefore s i with
  | none => return some none
  | some t =>
      if Text.endsLine t.text then return some none
      else if t.kind == .docBlank then
        match ← fetchBefore s t.index with
        | none => return none
        | some u => return if Text.endsLine u.text then some (some t) else none
      else return none

/-- The indent of a line is read without a fault. -/
theorem lineIndent_eq_ok (hs : s.Placed) {i : Nat} (h : i ≤ s.size) :
    lineIndent s i = .ok (s.lineIndent? i) := by
  unfold lineIndent Stream.lineIndent?
  rw [fetchBefore_eq_ok hs h, ok_bind]
  cases hbefore : s.before? i with
  | none => rfl
  | some t =>
      have ht := (hs.before?.1 hbefore).1
      simp only [fetchBefore_eq_ok hs (Nat.le_of_lt ht.index_lt_size), ok_bind, pure_eq_ok]
      split
      · rfl
      · split
        · cases s.before? t.index <;> rfl
        · rfl

/-- The first star of the block. -/
def star (s : Stream) (b : Block) : Except Fault (Option Token) :=
  fetchFirst s (· == .docStar) (b.opener.index + 1) b.closer.index

/-- The column of the stars of the block. -/
def starColumn (s : Stream) (b : Block) : Except Fault Nat := do
  match ← star s b with
  | some star => return star.column
  | none => return b.opener.column + 1

/-- The column of the stars is found without a fault. -/
theorem starColumn_eq_ok (hs : s.Placed) (b : Block) : starColumn s b = .ok (b.starColumn s) := by
  unfold starColumn star Block.starColumn Block.star?
  rw [fetchFirst_eq_ok hs, ok_bind]
  cases s.firstBetween (· == .docStar) (b.opener.index + 1) b.closer.index <;> rfl

/-- The white space in front of the stars of the block. -/
def starIndent (s : Stream) (b : Block) : Except Fault String := do
  match ← star s b with
  | some star => return (← leadingWhitespace s star.index).getD (Text.spaces (star.column - 1))
  | none =>
      match ← leadingWhitespace s b.opener.index with
      | some leading => return leading ++ " "
      | none => return Text.spaces b.opener.column

/-- The indent of the stars is found without a fault. -/
theorem starIndent_eq_ok (hs : s.Placed) (hb : s.Has b.opener) :
    starIndent s b = .ok (b.starIndent s) := by
  unfold starIndent star Block.starIndent Block.star?
  rw [fetchFirst_eq_ok hs, ok_bind]
  cases hstar : s.firstBetween (· == .docStar) (b.opener.index + 1) b.closer.index with
  | some star =>
      have hsize := (hs.firstBetween.1 hstar).1.index_lt_size
      simp only [leadingWhitespace_eq_ok hs (Nat.le_of_lt hsize)]
      rfl
  | none =>
      simp only [leadingWhitespace_eq_ok hs (Nat.le_of_lt hb.index_lt_size), ok_bind]
      cases s.leadingWhitespace? b.opener.index <;> rfl

/-! ## Parameter tags -/

/-- The blank in front of a continuation line. -/
def indentToken (s : Stream) (line : Token) : Except Fault (Option Token) := do
  let t ← fetch s ((line.index : Int) - 1)
  return if t.kind == .docBlank && !Text.endsLine t.text then some t else none

/-- The blank in front of a line is read without a fault, since the line is not at the start. -/
theorem indentToken_eq_ok (hs : s.Placed) {line : Token} (hline : s.Has line)
    (h : 0 < line.index) : indentToken s line = .ok (ParamTag.indentToken? s line) := by
  obtain ⟨t, ht, hindex⟩ := hs.has_of_le hline (Nat.sub_le line.index 1)
  unfold indentToken ParamTag.indentToken?
  rw [(fetch_eq_ok hs).2 ⟨ht, by omega⟩, hs.before?.2 ⟨ht, by omega⟩]
  rfl

/-- The blanks in front of lines are read without a fault. -/
theorem indentTokens_eq_ok (hs : s.Placed) {lines : List Token}
    (h : ∀ line ∈ lines, s.Has line ∧ 0 < line.index) :
    collectSome (indentToken s) lines = .ok (lines.filterMap (ParamTag.indentToken? s)) :=
  collectSome_eq_ok fun line hline => indentToken_eq_ok hs (h line hline).1 (h line hline).2

/-- The parameter tag of a tag, with the blanks in front of its continuation lines. -/
def paramTag (s : Stream) (t : Tag) : Except Fault (ParamTag × List Token) :=
  match t.value.bind fun v => ParamValue.parse? v.text with
  | none => .ok (⟨t, none, []⟩, [])
  | some value =>
      if value.description.isSome then do
        let more ← continuation s t
        let blanks ← collectSome (indentToken s) more
        return (⟨t, some value, more⟩, blanks)
      else .ok (⟨t, some value, []⟩, [])

/-- The parameter tags of a block, in order, each with the blanks in front of its continuation
lines. -/
def paramTags (s : Stream) (b : Block) : Except Fault (List (ParamTag × List Token)) :=
  (b.tagsNamed "@param").mapM (paramTag s)

/-- The blanks in front of the continuation lines of a parameter tag. -/
def blanks (s : Stream) (p : ParamTag) : List Token :=
  p.more.filterMap (ParamTag.indentToken? s)

/-- A parameter tag is read without a fault, with the blanks of the lines that continue it. -/
theorem paramTag_eq_ok (hs : s.Placed) (hc : s.Frames c) (ht : t.Fits s c) :
    paramTag s t = .ok (ParamTag.ofTag s t, blanks s (ParamTag.ofTag s t)) := by
  have hstop : t.stop ≤ s.size := Nat.le_trans ht.stop_le (Nat.le_of_lt hc.closer.index_lt_size)
  have hlines : ∀ line ∈ t.continuation s, s.Has line ∧ 0 < line.index := by
    intro line hline
    obtain ⟨hhas, hfrom, -, -⟩ := (Block.mem_stringsBetween hs).1 hline
    exact ⟨hhas, by omega⟩
  unfold paramTag ParamTag.ofTag
  cases t.value.bind fun v => ParamValue.parse? v.text with
  | none => rfl
  | some value =>
      simp only [continuation_eq_ok hs hstop, indentTokens_eq_ok hs hlines, ok_bind, pure_eq_ok]
      split <;> rfl

/-- The parameter tags of a block are read without a fault. -/
theorem paramTags_eq_ok (hs : s.Placed) (hc : s.Frames c) (hb : ∀ t ∈ b.tags, t.Fits s c) :
    paramTags s b = .ok ((b.paramTags s).map fun p => (p, blanks s p)) := by
  have htags : ∀ t ∈ b.tagsNamed "@param",
      paramTag s t = .ok (ParamTag.ofTag s t, blanks s (ParamTag.ofTag s t)) :=
    fun t ht => paramTag_eq_ok hs hc (hb t (List.mem_filter.1 ht).1)
  rw [paramTags, mapM_eq_ok htags, Block.paramTags, List.map_map]
  rfl

end PhpDoc.Strict
