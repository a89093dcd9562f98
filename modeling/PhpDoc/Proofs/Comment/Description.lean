import PhpDoc.Proofs.Comment.Block

/-!
# The strings of the descriptions

The strings of a comment in front of its first tag are those of the short description, which goes
on from line to line as long as it can, followed by the strings it leaves (`strings_of_short`). The
long description is made of what is left, unless that is a single string that stands right before
the close marker (`ofSpan_descriptions`): such a string is in no description.
-/

namespace PhpDoc

open Text

variable {s : Stream} {c : CommentSpan} {d : Description}

/-- The second token stands on the line below the first. -/
def Token.Below (t u : Token) : Prop :=
  u.line = t.line + 1

namespace Block

/-- Strings on consecutive lines stand one below the other. -/
theorem isChain_consecutive (t : Token) (ts : List Token) :
    (t :: consecutive t.line ts).IsChain Token.Below := by
  induction ts generalizing t with
  | nil => exact List.IsChain.singleton t
  | cons u us ih =>
      rw [consecutive]
      split
      · next hline => exact List.isChain_cons_cons.2 ⟨hline, ih u⟩
      · exact List.IsChain.singleton t

/-! ## Strings between two indices -/

/-- The strings of neighbouring ranges are those of the range that covers both. -/
theorem stringsBetween_append {i j k : Nat} (hij : i ≤ j) (hjk : j ≤ k) :
    stringsBetween s i k = stringsBetween s i j ++ stringsBetween s j k := by
  unfold stringsBetween
  rw [Stream.between_append hij hjk, List.filter_append]

/-- A string at the start of a range is the first string of the range. -/
theorem stringsBetween_cons {t : Token} {j : Nat} (ht : s.Has t) (hkind : t.kind = .docString)
    (hlt : t.index < j) :
    stringsBetween s t.index j = t :: stringsBetween s (t.index + 1) j := by
  unfold stringsBetween
  rw [Stream.between_cons ht hlt]
  exact List.filter_cons_of_pos (by simpa using hkind)

/-- A range without string tokens has no strings. -/
theorem stringsBetween_eq_nil (hs : s.Placed) {i j : Nat}
    (h : ∀ t, s.Has t → i ≤ t.index → t.index < j → t.kind ≠ .docString) :
    stringsBetween s i j = [] := by
  refine List.eq_nil_iff_forall_not_mem.2 fun t ht => ?_
  obtain ⟨hhas, hi, hj, hkind⟩ := (mem_stringsBetween hs).1 ht
  exact h t hhas hi hj hkind

/-- The strings of a range come in the order of the stream. -/
theorem pairwise_stringsBetween (hs : s.Placed) (i j : Nat) :
    (stringsBetween s i j).Pairwise (·.index < ·.index) :=
  (hs.pairwise_between i j).filter _

/-- The first string between two indices, with the strings behind it. -/
theorem stringsBetween_eq_cons (hs : s.Placed) {i j : Nat} {u : Token} {us : List Token}
    (h : stringsBetween s i j = u :: us) :
    us = stringsBetween s (u.index + 1) j ∧
      ∀ t, s.Has t → i ≤ t.index → t.index < u.index → t.kind ≠ .docString := by
  have hu : u ∈ stringsBetween s i j := h ▸ List.mem_cons_self
  obtain ⟨hhas, hi, hj, hkind⟩ := (mem_stringsBetween hs).1 hu
  have hfirst : ∀ t, s.Has t → i ≤ t.index → t.index < u.index → t.kind ≠ .docString := by
    intro t ht hit htu hstring
    have hmem := (mem_stringsBetween hs).2 ⟨ht, hit, Nat.lt_trans htu hj, hstring⟩
    have hsorted := pairwise_stringsBetween hs i j
    rw [h] at hmem hsorted
    rcases List.mem_cons.1 hmem with rfl | hmem
    · exact Nat.lt_irrefl _ htu
    · have := (List.pairwise_cons.1 hsorted).1 t hmem
      omega
  refine ⟨?_, hfirst⟩
  rw [stringsBetween_append hi (Nat.le_of_lt hj), stringsBetween_eq_nil hs hfirst, List.nil_append,
    stringsBetween_cons hhas hkind hj, List.cons.injEq] at h
  exact h.2.symm

/-! ## The two descriptions -/

/-- Rows that are parted by a property in two ways are parted at one place. -/
theorem eq_of_parted {p : Token → Prop} {front back front' back' : List Token}
    (h : front ++ back = front' ++ back') (hfront : ∀ t ∈ front, ¬ p t) (hback : ∀ t ∈ back, p t)
    (hfront' : ∀ t ∈ front', ¬ p t) (hback' : ∀ t ∈ back', p t) : back = back' := by
  classical
  have hfilter := congrArg (List.filter (fun t => decide (p t))) h
  rwa [List.filter_append, List.filter_append,
    List.filter_eq_nil_iff (l := front).2 (by simpa using hfront),
    List.filter_eq_nil_iff (l := front').2 (by simpa using hfront'),
    List.filter_eq_self (l := back).2 (by simpa using hback),
    List.filter_eq_self (l := back').2 (by simpa using hback')] at hfilter

/-- The strings that the short description leaves to the long one. -/
def leftBy (s : Stream) (c : CommentSpan) (d : Description) : List Token :=
  stringsBetween s (d.last.index + 1) c.stop

/-- The strings from the short description on are its own, on lines below each other, and those it
leaves, of which the first does not go on with it. -/
theorem strings_of_short (hs : s.Placed) (hc : s.Frames c) (h : (ofSpan s c).short = some d) :
    stringsBetween s d.first.index c.stop = d.strings ++ leftBy s c d ∧
      d.strings.IsChain Token.Below ∧ ∀ u ∈ (leftBy s c d).head?, ¬ d.last.Below u := by
  obtain ⟨hfirst, hkind, hstop⟩ := short_first hs hc h
  have hhas := (first_spec hs hfirst).1
  obtain ⟨-, -, hfirstLast, hlastStop⟩ := mem_short_strings hs hc h (last_mem_strings d)
  have hmore : d.more = consecutive d.first.line (stringsBetween s (d.first.index + 1) c.stop) := by
    obtain ⟨t, -, -, rfl⟩ := ofSpan_short.1 h
    rfl
  obtain ⟨rest, heq, -⟩ :=
    consecutive_append d.first.line (stringsBetween s (d.first.index + 1) c.stop)
  have hall : stringsBetween s d.first.index c.stop = d.strings ++ rest := by
    rw [stringsBetween_cons hhas hkind hstop, heq, ← hmore]
    rfl
  have hsorted := pairwise_stringsBetween hs d.first.index c.stop
  rw [hall] at hsorted
  obtain ⟨hshort, -, hcross⟩ := List.pairwise_append.1 hsorted
  -- both cuts part the strings behind the last one of the description
  have hrest : rest = leftBy s c d := by
    have hcut := stringsBetween_append (s := s) (Nat.le_succ_of_le hfirstLast) hlastStop
    rw [hall] at hcut
    refine eq_of_parted (p := fun u => d.last.index < u.index) hcut ?_
      (hcross d.last (last_mem_strings d)) ?_ fun u hu => ((mem_stringsBetween hs).1 hu).2.1
    · intro u hu
      rcases List.mem_cons.1 hu with rfl | hu
      · omega
      · have hle : u.index ≤ d.last.index :=
          index_le_getLastD (List.pairwise_cons.1 hshort).2 hu d.first
        omega
    · intro u hu
      have hlt := ((mem_stringsBetween hs).1 hu).2.2.1
      omega
  refine ⟨hrest ▸ hall, ?_, ?_⟩
  · show (d.first :: d.more).IsChain Token.Below
    rw [hmore]
    exact isChain_consecutive d.first _
  · intro u hu
    obtain ⟨us, hus⟩ : ∃ us, leftBy s c d = u :: us := List.head?_eq_some_iff.1 hu
    have humem : u ∈ leftBy s c d := hus ▸ List.mem_cons_self
    obtain ⟨huhas, hlast, hustop, hustring⟩ := (mem_stringsBetween hs).1 humem
    have hfree := (stringsBetween_eq_cons hs hus).2
    exact line_ne_of_short hs hc h huhas hustring hlast hustop fun v hv hlv hvu =>
      hfree v hv hlv hvu

/-- The content of a comment in front of its first tag is strings. -/
theorem isFiller_of_lt_stop (hs : s.Placed) (hc : s.Frames c) {t : Token} (ht : s.Has t)
    (hopener : c.opener.index < t.index) (hstop : t.index < c.stop) (hkind : t.kind ≠ .docString) :
    t.kind.isFiller = true := by
  have hle := hc.stop_le hs
  rcases hc.kind ht hopener (by omega) with h | h | h | h
  · rw [h]
    rfl
  · rw [h]
    rfl
  · have hmem : t ∈ c.tags := (hc.mem_tags hs).2 ⟨ht, hopener, by omega, h⟩
    have hsorted := hc.pairwise_tags hs
    unfold CommentSpan.stop at hstop
    cases htags : c.tags with
    | nil =>
        rw [htags] at hmem
        cases hmem
    | cons first tags =>
        rw [htags] at hmem hsorted
        simp only [htags, List.head?_cons, Option.getD_some] at hstop
        rcases List.mem_cons.1 hmem with rfl | hmem
        · omega
        · have := (List.pairwise_cons.1 hsorted).1 t hmem
          omega
  · exact absurd h hkind

/-- The long description is made of all the strings that the short one leaves. A single string
right before the close marker makes none. -/
theorem longAfter_eq (hs : s.Placed) (hc : s.Frames c) (h : (ofSpan s c).short = some d) :
    longAfter s d c.closer c.stop =
      match leftBy s c d with
      | [] => none
      | u :: us => if u.index + 1 = c.closer.index then none else some ⟨u, us⟩ := by
  obtain ⟨-, -, hfirstLast, hlastStop⟩ := mem_short_strings hs hc h (last_mem_strings d)
  obtain ⟨-, hopener, -, -, -⟩ := first_spec hs (short_first hs hc h).1
  have hle := hc.stop_le hs
  unfold longAfter
  cases hleft : leftBy s c d with
  | nil =>
      have hno : ∀ t, s.firstBetween (!·.isFiller) (d.last.index + 1) (c.closer.index - 1) = some t →
          t.kind ≠ .docString := by
        intro t ht hkind
        obtain ⟨hhas, hfrom, hto, -, hfirst⟩ := hs.firstBetween.1 ht
        have hstop : c.stop ≤ t.index := by
          by_contra hlt
          have hmem : t ∈ leftBy s c d :=
            (mem_stringsBetween hs).2 ⟨hhas, hfrom, Nat.lt_of_not_le hlt, hkind⟩
          rw [hleft] at hmem
          cases hmem
        -- the first tag is content itself, so no string behind it is the first content
        rcases hc.stop_spec hs with heq | ⟨u, hu, hindex, htag⟩
        · omega
        · rcases Nat.eq_or_lt_of_le hstop with heq | hlt
          · rw [hhas.eq hu (by omega), htag] at hkind
            cases hkind
          · have := hfirst u hu (by omega) (by omega)
            rw [htag] at this
            cases this
      split
      · next t ht => simp [hno t ht]
      · rfl
  | cons u us =>
      obtain ⟨hus, hfree⟩ := stringsBetween_eq_cons hs hleft
      have humem : u ∈ leftBy s c d := hleft ▸ List.mem_cons_self
      obtain ⟨huhas, hlast, hustop, hkind⟩ := (mem_stringsBetween hs).1 humem
      have hfiller : ∀ t, s.Has t → d.last.index + 1 ≤ t.index → t.index < u.index →
          (!t.kind.isFiller) = false := by
        intro t ht hlt htu
        rw [isFiller_of_lt_stop hs hc ht (by omega) (by omega) (hfree t ht hlt htu)]
        rfl
      by_cases hcloser : u.index + 1 = c.closer.index
      · have hnone : s.firstBetween (!·.isFiller) (d.last.index + 1) (c.closer.index - 1) = none :=
          hs.firstBetween_eq_none.2 fun t ht hlt hto => hfiller t ht hlt (by omega)
        rw [hnone]
        exact (if_pos hcloser).symm
      · have hsome : s.firstBetween (!·.isFiller) (d.last.index + 1) (c.closer.index - 1) =
            some u :=
          hs.firstBetween.2 ⟨huhas, hlast, by omega, by rw [hkind]; rfl, hfiller⟩
        rw [hsome]
        simp [hkind, hus, hcloser]

/-- Of a comment that starts with a string, the strings in front of the first tag are those of the
short description followed by those it leaves, and these make the long description. Only a single
string that is left right before the close marker is in no description. -/
theorem ofSpan_descriptions {text : String} (htext : tokenize text = .ok s) (hc : c ∈ s.comments)
    {first : Token} (hfirst : (ofSpan s c).first = some first) (hkind : first.kind = .docString) :
    ∃ d, (ofSpan s c).short = some d ∧ d.first = first ∧
      stringsBetween s (c.opener.index + 1) c.stop = d.strings ++ leftBy s c d ∧
      d.strings.IsChain Token.Below ∧ (∀ u ∈ (leftBy s c d).head?, ¬ d.last.Below u) ∧
      (ofSpan s c).long =
        match leftBy s c d with
        | [] => none
        | u :: us => if u.index + 1 = c.closer.index then none else some ⟨u, us⟩ := by
  have hs := (Stream.sound_of_tokenize htext).toPlaced
  have hc := (Stream.sound_of_tokenize htext).frames hc
  obtain ⟨d, hd⟩ : ∃ d, (ofSpan s c).short = some d :=
    ⟨_, ofSpan_short.2 ⟨first, hfirst, hkind, rfl⟩⟩
  have hdfirst : d.first = first := Option.some.inj ((short_first hs hc hd).1.symm.trans hfirst)
  obtain ⟨-, hopener, -, -, hfiller⟩ := first_spec hs hfirst
  have hstop := (short_first hs hc hd).2.2
  obtain ⟨hstrings, hchain, hmaximal⟩ := strings_of_short hs hc hd
  -- nothing but stars and blanks stands in front of the first content
  have hbefore : stringsBetween s (c.opener.index + 1) d.first.index = [] := by
    refine stringsBetween_eq_nil hs fun t ht hfrom hto hstring => ?_
    have := hfiller t ht hfrom (hdfirst ▸ hto)
    rw [hstring] at this
    cases this
  have hlong : (ofSpan s c).long = longAfter s d c.closer c.stop :=
    Option.ext fun l => ofSpan_long.trans
      ⟨fun ⟨d', hd', hl⟩ => Option.some.inj (hd.symm.trans hd') ▸ hl, fun hl => ⟨d, hd, hl⟩⟩
  refine ⟨d, hd, hdfirst, ?_, hchain, hmaximal, hlong.trans (longAfter_eq hs hc hd)⟩
  rw [stringsBetween_append (hdfirst ▸ hopener) (Nat.le_of_lt hstop), hbefore, List.nil_append,
    hstrings]

end Block

end PhpDoc
