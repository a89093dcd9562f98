import PhpDoc.Proofs.Token.Matching

/-!
# Brackets as a matching

The partners of a stream are a matching: an opener with a closer behind it of the same shape, and no
two pairs cross. In a balanced word every bracket has the partner that it has in the word, the
nesting of a token is the list of the pairs around it, and so are the parentheses and the braces in
which it stands. A closer that finds no open bracket of its shape has no partner and takes none away.
`Stream.brackets_wellNested` says so of every row of tokens, balanced or not. The body of a
declaration is at the level of the declaration when the search for it does not leave the brackets
around the declaration and goes into no others (`Stream.body_atLevel`).
-/

namespace PhpDoc

namespace Stream

open Nesting

variable {s : Stream} {ts : List Token} {ps : List (Nat × Nat)} {t : Token}
  {a b c d i j o size : Nat}
variable {shape other : Bracket}

/-- The brackets at `a` and `c` are a pair of the shape: partners, of which the first opens and the
second closes. -/
structure IsPair (s : Stream) (shape : Bracket) (a c : Nat) : Prop where
  partner : s.partner? a = some c
  opens : ∃ t, s.get? a = some t ∧ t.kind.opens? = some shape
  closes : ∃ t, s.get? c = some t ∧ t.kind.closes? = some shape

/-- The pair stands around the token at index `i`: its opener in front of it, its closer at it or
behind it. -/
structure Around (s : Stream) (shape : Bracket) (i a c : Nat) : Prop where
  pair : s.IsPair shape a c
  lt : a < i
  le : i ≤ c

/-- The last pair is written over the partners from the pairs before it. -/
theorem partnersOf_concat (size : Nat) (ps : List (Nat × Nat)) (p : Nat × Nat) :
    partnersOf size (ps ++ [p]) =
      ((partnersOf size ps).setIfInBounds p.1 (some p.2)).setIfInBounds p.2 (some p.1) := by
  rw [partnersOf, List.foldl_append]
  rfl

/-- Every token has an entry for its partner. -/
@[simp] theorem size_partnersOf (size : Nat) (ps : List (Nat × Nat)) :
    (partnersOf size ps).size = size := by
  induction ps using List.reverseRecOn with
  | nil => simp [partnersOf]
  | append_singleton ps p ih => simp [partnersOf_concat, ih]

/-- The brackets of a pair are partners of each other: no later pair writes over it. -/
theorem join_partnersOf (hps : ps.Pairwise Follows) (hlt : ∀ p ∈ ps, p.1 < p.2 ∧ p.2 < size)
    (h : (i, j) ∈ ps) :
    ((partnersOf size ps)[i]?).join = some j ∧ ((partnersOf size ps)[j]?).join = some i := by
  induction ps using List.reverseRecOn with
  | nil => cases h
  | append_singleton ps p ih =>
      have hfirst : ∀ q ∈ ps, q.1 < q.2 ∧ q.2 < size := fun q hq =>
        hlt q (List.mem_append_left _ hq)
      obtain ⟨hlt, hin⟩ := hlt p (by simp)
      obtain ⟨hps, -, hbehind⟩ := List.pairwise_append.1 hps
      rw [partnersOf_concat]
      rcases List.mem_append.1 h with h | h
      · obtain ⟨hcloser, hapart⟩ := hbehind _ h p (by simp)
        obtain ⟨hij, -⟩ := hfirst _ h
        obtain ⟨hi, hj⟩ := ih hps hfirst h
        simp only at hcloser hapart hij
        rw [Array.getElem?_setIfInBounds_ne (by omega), Array.getElem?_setIfInBounds_ne (by omega),
          Array.getElem?_setIfInBounds_ne (by omega), Array.getElem?_setIfInBounds_ne (by omega)]
        exact ⟨hi, hj⟩
      · obtain rfl : (i, j) = p := by simpa using h
        simp only at hlt hin ⊢
        constructor
        · rw [Array.getElem?_setIfInBounds_ne (by omega),
            Array.getElem?_setIfInBounds_self_of_lt (by simp; omega)]
          rfl
        · rw [Array.getElem?_setIfInBounds_self_of_lt (by simp; omega)]
          rfl

/-- The stream of tokens has them at their places in the row. -/
@[simp] theorem get?_ofTokens (ts : List Token) (i : Nat) : (ofTokens ts).get? i = ts[i]? := by
  simp [get?, ofTokens]

/-- A pair that the stack makes is a pair of the stream. -/
theorem isPair_of_mem (h : Token.Numbered ts) (hmem : (a, c) ∈ pairs [] ts) :
    a < c ∧ (∃ shape, (ofTokens ts).IsPair shape a c) ∧ (ofTokens ts).partner? c = some a := by
  have hordered := ordered_nil h.pairwise
  have hbounds : ∀ p ∈ pairs [] ts, p.1 < p.2 ∧ p.2 < ts.length := by
    intro p hp
    obtain ⟨shape, hlt, -, t, ht, hindex, -⟩ := hordered.pair hp
    exact ⟨hlt, hindex ▸ (List.getElem?_eq_some_iff.1 (h.getElem? ht)).1⟩
  obtain ⟨hpartner, hback⟩ := join_partnersOf (pairwise_pairs hordered) hbounds hmem
  obtain ⟨shape, hlt, hopener | ⟨t, ht, rfl, hopens⟩, u, hu, rfl, hcloses⟩ := hordered.pair hmem
  · cases hopener
  · refine ⟨hlt, ⟨shape, hpartner, ⟨t, ?_, hopens⟩, u, ?_, hcloses⟩, hback⟩
    · rw [get?_ofTokens, h.getElem? ht]
    · rw [get?_ofTokens, h.getElem? hu]

/-- A bracket that opens closes nothing. -/
theorem IsPair.not_closer (h : s.IsPair shape a c) : ¬ s.IsPair other b a := by
  intro h'
  obtain ⟨t, ht, hopens⟩ := h.opens
  obtain ⟨u, hu, hcloses⟩ := h'.closes
  obtain rfl : t = u := Option.some.inj (ht.symm.trans hu)
  rw [Kind.opens?_of_closes (by rw [hcloses]; rfl)] at hopens
  cases hopens

/-- Brackets that are a pair by their nesting are found as a pair. -/
theorem mem_pairs_of_isPair (h : Token.Numbered ts) (hpair : (ofTokens ts).IsPair shape a c) :
    (a, c) ∈ pairs [] ts := by
  rcases mem_of_partnersOf hpair.partner with hmem | hmem
  · exact hmem
  · obtain ⟨-, ⟨other, hother⟩, -⟩ := isPair_of_mem h hmem
    exact absurd hother hpair.not_closer

/-- Partners are the two brackets of a pair, and partners of each other. -/
theorem isPair_of_partner (h : Token.Numbered ts) (hpartner : (ofTokens ts).partner? i = some j) :
    (ofTokens ts).partner? j = some i ∧ ∃ shape,
      (i < j ∧ (ofTokens ts).IsPair shape i j) ∨ (j < i ∧ (ofTokens ts).IsPair shape j i) := by
  rcases mem_of_partnersOf hpartner with hmem | hmem
  · obtain ⟨hlt, ⟨shape, hpair⟩, hback⟩ := isPair_of_mem h hmem
    exact ⟨hback, shape, .inl ⟨hlt, hpair⟩⟩
  · obtain ⟨hlt, ⟨shape, hpair⟩, -⟩ := isPair_of_mem h hmem
    exact ⟨hpair.partner, shape, .inr ⟨hlt, hpair⟩⟩

/-- Partners are the two brackets of a pair that was found. -/
theorem partner?_eq_some_iff (h : Token.Numbered ts) :
    (ofTokens ts).partner? i = some j ↔ (i, j) ∈ pairs [] ts ∨ (j, i) ∈ pairs [] ts := by
  refine ⟨mem_of_partnersOf, ?_⟩
  rintro (hmem | hmem)
  · obtain ⟨-, ⟨shape, hpair⟩, -⟩ := isPair_of_mem h hmem
    exact hpair.partner
  · exact (isPair_of_mem h hmem).2.2

/-- A pair that opens inside of another one closes inside of it. -/
theorem IsPair.lt_of_inside (h : Token.Numbered ts) (hpair : (ofTokens ts).IsPair shape a b)
    (hinside : (ofTokens ts).IsPair other c d) (hac : a < c) (hcb : c < b) : d < b := by
  rcases follows_of_mem (ordered_nil h.pairwise) (mem_pairs_of_isPair h hpair)
    (mem_pairs_of_isPair h hinside) with heq | ⟨-, hapart⟩ | ⟨hlt, -⟩
  · cases heq
    omega
  · simp only at hapart
    omega
  · exact hlt

/-- What an opener has for a partner closes it. -/
theorem isPair_of_opens (h : Token.Numbered ts) (ht : t ∈ ts) (hopens : t.kind.opens? = some shape)
    (hpartner : (ofTokens ts).partner? t.index = some c) :
    t.index < c ∧ (ofTokens ts).IsPair shape t.index c := by
  have hget : (ofTokens ts).get? t.index = some t := by rw [get?_ofTokens, h.getElem? ht]
  obtain ⟨-, other, ⟨hlt, hpair⟩ | ⟨-, hpair⟩⟩ := isPair_of_partner h hpartner
  · obtain ⟨u, hu, hother⟩ := hpair.opens
    obtain rfl : t = u := Option.some.inj (hget.symm.trans hu)
    obtain rfl : shape = other := Option.some.inj (hopens.symm.trans hother)
    exact ⟨hlt, hpair⟩
  · obtain ⟨u, hu, hcloses⟩ := hpair.closes
    obtain rfl : t = u := Option.some.inj (hget.symm.trans hu)
    rw [Kind.opens?_of_closes (by rw [hcloses]; rfl)] at hopens
    cases hopens

/-- A pair that opens at the brackets of another one or between them closes there, too. -/
theorem IsPair.le_of_within (h : Token.Numbered ts) (hpair : (ofTokens ts).IsPair shape a b)
    (hinside : (ofTokens ts).IsPair other c d) (hac : a ≤ c) (hcb : c ≤ b) : d ≤ b := by
  rcases Nat.eq_or_lt_of_le hac with rfl | hac
  · exact Nat.le_of_eq (Option.some.inj (hinside.partner.symm.trans hpair.partner))
  rcases Nat.eq_or_lt_of_le hcb with rfl | hcb
  · exact absurd hpair hinside.not_closer
  · exact Nat.le_of_lt (hpair.lt_of_inside h hinside hac hcb)

/-! ## The nesting of a token -/

/-- The nesting of a token is that behind the tokens in front of it. -/
theorem nesting_ofTokens (hi : i < ts.length) :
    (ofTokens ts).nesting i = Nesting.after [] (ts.take i) := by
  have hsplit : Nesting.scan [] ts =
      Nesting.scan [] (ts.take i) ++ Nesting.scan (Nesting.after [] (ts.take i)) (ts.drop i) := by
    rw [← scan_append, List.take_append_drop]
  have hlength : (Nesting.scan [] (ts.take i)).length = i := by simp; omega
  show (((Nesting.scan [] ts).toArray)[i]?).getD [] = _
  rw [List.getElem?_toArray, hsplit, List.getElem?_append_right (Nat.le_of_eq hlength), hlength,
    Nat.sub_self, List.drop_eq_getElem_cons hi]
  rfl

/-- Behind the last token nothing is nested. -/
theorem nesting_of_le (hi : ts.length ≤ i) : (ofTokens ts).nesting i = [] := by
  have hnone : (ofTokens ts).nestings[i]? = none := by simpa [ofTokens] using hi
  rw [nesting, hnone]
  rfl

/-- The brackets around a token come from the innermost one outwards. -/
theorem pairwise_nesting (h : Token.Numbered ts) (i : Nat) :
    ((ofTokens ts).nesting i).Pairwise (·.index > ·.index) := by
  by_cases hi : i < ts.length
  · rw [nesting_ofTokens hi]
    have hordered := ordered_nil h.pairwise
    rw [← List.take_append_drop i ts] at hordered
    exact hordered.after.nesting
  · rw [nesting_of_le (by omega)]
    exact .nil

/-- An opener of a balanced word opens a pair. -/
theorem exists_isPair_of_opens (h : Token.Numbered ts) (hbalanced : Token.Balanced ts ps)
    {t : Token} (ht : t ∈ ts) (hopens : t.kind.opens? = some shape) :
    ∃ c, (ofTokens ts).IsPair shape t.index c := by
  obtain ⟨⟨o, c⟩, hp, hpartner⟩ := hbalanced.exists_partner ht (.inl (by rw [hopens]; rfl))
  rw [← hbalanced.mem_pairs_iff []] at hp
  obtain ⟨-, ⟨other, hpair⟩, -⟩ := isPair_of_mem h hp
  rcases hpartner with rfl | rfl
  · exact ⟨c, (isPair_of_opens h ht hopens hpair.partner).2⟩
  · exact ⟨o, (isPair_of_opens h ht hopens (isPair_of_partner h hpair.partner).1).2⟩

/-- A bracket that is open in front of a token of a balanced word is closed at it or behind it. -/
theorem exists_around_of_mem_after (h : Token.Numbered ts) (hbalanced : Token.Balanced ts ps)
    {b : OpenBracket} (hb : b ∈ Nesting.after [] (ts.take i)) :
    ∃ c, (ofTokens ts).Around b.bracket i b.index c := by
  have hordered := ordered_nil h.pairwise
  have hsplit := List.take_append_drop i ts
  rw [← hsplit] at hordered
  obtain hnil | ⟨t, ht, hindex, hopens⟩ := mem_after hb
  · cases hnil
  · obtain ⟨c, hpair⟩ := exists_isPair_of_opens h hbalanced (List.mem_of_mem_take ht) hopens
    have hlt := h.lt_of_mem_take ht
    rw [hindex] at hpair hlt
    have hmem := mem_pairs_of_isPair h hpair
    rw [← hsplit] at hmem
    obtain ⟨u, hu, rfl⟩ := exists_closer_of_mem_after hordered hb hmem
    exact ⟨u.index, hpair, hlt, h.le_of_mem_drop hu⟩

/-- The opener of a pair around a token is open in front of the token. -/
theorem Around.mem_after (h : Token.Numbered ts) (haround : (ofTokens ts).Around shape i a c) :
    ⟨shape, a⟩ ∈ Nesting.after [] (ts.take i) := by
  obtain ⟨hpair, hlt, hle⟩ := haround
  have hordered := ordered_nil h.pairwise
  have hmem := mem_pairs_of_isPair h hpair
  rw [← List.take_append_drop i ts] at hordered hmem
  obtain ⟨other, hopen⟩ := mem_after_of_pair hordered hmem
    (fun t ht => Nat.lt_of_lt_of_le hlt (h.le_of_mem_drop ht))
    (fun t ht => Nat.lt_of_lt_of_le (h.lt_of_mem_take ht) hle)
  -- the open bracket has the shape of the pair, since one token opens both
  obtain hnil | ⟨t, ht, hindex, hopens⟩ := Nesting.mem_after hopen
  · cases hnil
  · obtain ⟨u, hu, hshape⟩ := hpair.opens
    have hget := h.getElem? (List.mem_of_mem_take ht)
    rw [hindex] at hget
    rw [get?_ofTokens, hget] at hu
    obtain rfl : t = u := Option.some.inj hu
    obtain rfl : shape = other := Option.some.inj (hshape.symm.trans hopens)
    exact hopen

/-- In front of a token of a balanced word those brackets are open whose pairs stand around it. -/
theorem mem_nesting_iff (h : Token.Numbered ts) (hbalanced : Token.Balanced ts ps)
    {b : OpenBracket} :
    b ∈ (ofTokens ts).nesting i ↔ ∃ c, (ofTokens ts).Around b.bracket i b.index c := by
  by_cases hi : i < ts.length
  · rw [nesting_ofTokens hi]
    exact ⟨exists_around_of_mem_after h hbalanced, fun ⟨_, haround⟩ => haround.mem_after h⟩
  · rw [nesting_of_le (by omega)]
    refine iff_of_false (by simp) ?_
    rintro ⟨c, hpair, -, hle⟩
    obtain ⟨t, ht, -⟩ := hpair.closes
    rw [get?_ofTokens] at ht
    have := (List.getElem?_eq_some_iff.1 ht).1
    omega

/-- In balanced tokens, a token is in parentheses when a pair of them stands around it. -/
theorem inParentheses_iff (h : Token.Numbered ts) (hbalanced : Token.Balanced ts ps) :
    (ofTokens ts).inParentheses i = true ↔ ∃ a c, (ofTokens ts).Around .parenthesis i a c := by
  rw [inParentheses, Nesting.parentheses, decide_eq_true_eq, List.countP_pos_iff]
  simp only [beq_iff_eq]
  constructor
  · rintro ⟨⟨shape, a⟩, hb, rfl⟩
    exact ⟨a, (mem_nesting_iff h hbalanced).1 hb⟩
  · rintro ⟨a, c, haround⟩
    exact ⟨⟨.parenthesis, a⟩, (mem_nesting_iff h hbalanced).2 ⟨c, haround⟩, rfl⟩

/-! ## Owners of bodies -/

/-- The declaration at `d` owns the braces that open at `a`: its body opens there, and it is the
last declaration with this body. -/
structure Owns (s : Stream) (d a : Nat) : Prop where
  body : (s.scope d).bodyOpener = some a
  last : ∀ e, (s.scope e).bodyOpener = some a → e ≤ d

/-- Declarations are listed in order. -/
theorem pairwise_scopes {partner : Nat → Option Nat} (h : ts.Pairwise (·.index < ·.index)) :
    (Scope.scan partner ts).Pairwise (·.1 < ·.1) := by
  induction ts with
  | nil => exact .nil
  | cons t ts ih =>
      obtain ⟨ht, hts⟩ := List.pairwise_cons.1 h
      have hbehind (sc : Scope) : ∀ x ∈ Scope.scan partner ts, (t.index, sc).1 < x.1 := by
        rintro ⟨i, sc⟩ hx
        obtain ⟨_, u, _, rfl, rfl, -⟩ := Scope.closes_of_mem_scan hx
        exact ht u (by simp)
      rw [Scope.scan]
      split
      · exact List.pairwise_cons.2 ⟨hbehind _, ih hts⟩
      · split
        · exact List.pairwise_cons.2 ⟨hbehind _, ih hts⟩
        · exact ih hts

/-- The scope of a declaration is the one that is looked up for it. -/
theorem lookup_of_mem {scopes : List (Nat × Scope)} (h : scopes.Pairwise (·.1 < ·.1)) {sc : Scope}
    (hmem : (d, sc) ∈ scopes) : scopes.lookup d = some sc := by
  induction scopes with
  | nil => cases hmem
  | cons x scopes ih =>
      obtain ⟨hx, hscopes⟩ := List.pairwise_cons.1 h
      rcases List.mem_cons.1 hmem with rfl | hmem
      · rw [List.lookup_cons, beq_self_eq_true]
      · have hne : (d == x.1) = false := by
          have := hx _ hmem
          simp only [beq_eq_false_iff_ne]
          omega
        rw [List.lookup_cons, hne]
        exact ih hscopes hmem

/-- The last scope owns its body, whoever owned it before. -/
theorem ownersOf_concat (size : Nat) (scopes : List (Nat × Scope)) (x : Nat × Scope) :
    ownersOf size (scopes ++ [x]) = match x.2.bodyOpener with
      | some body => (ownersOf size scopes).setIfInBounds body (some x.1)
      | none => ownersOf size scopes := by
  rw [ownersOf, List.foldl_append]
  rfl

/-- Every token has an entry for its owner. -/
@[simp] theorem size_ownersOf (size : Nat) (scopes : List (Nat × Scope)) :
    (ownersOf size scopes).size = size := by
  induction scopes using List.reverseRecOn with
  | nil => simp [ownersOf]
  | append_singleton scopes x ih =>
      rw [ownersOf_concat]
      split <;> simp [ih]

/-- A declaration takes its body from the declarations in front of it. -/
theorem join_ownersOf_concat (scopes : List (Nat × Scope)) {x : Nat × Scope} (ha : a < size)
    (hbody : x.2.bodyOpener = some a) :
    ((ownersOf size (scopes ++ [x]))[a]?).join = some x.1 := by
  rw [ownersOf_concat, hbody]
  simp only
  rw [Array.getElem?_setIfInBounds_self_of_lt (by simpa using ha)]
  rfl

/-- A declaration takes nothing but its body. -/
theorem getElem?_ownersOf_concat_of_ne (size : Nat) (scopes : List (Nat × Scope))
    {x : Nat × Scope} (hbody : x.2.bodyOpener ≠ some a) :
    (ownersOf size (scopes ++ [x]))[a]? = (ownersOf size scopes)[a]? := by
  rw [ownersOf_concat]
  split
  · next body hx =>
      have hne : body ≠ a := fun heq => hbody (heq ▸ hx)
      rw [Array.getElem?_setIfInBounds_ne hne]
  · rfl

/-- Of the declarations with a body the last one owns it. -/
theorem join_ownersOf {scopes : List (Nat × Scope)} (h : scopes.Pairwise (·.1 < ·.1))
    (ha : a < size) : ((ownersOf size scopes)[a]?).join = some d ↔
      (∃ sc, (d, sc) ∈ scopes ∧ sc.bodyOpener = some a) ∧
        ∀ e sc, (e, sc) ∈ scopes → sc.bodyOpener = some a → e ≤ d := by
  induction scopes using List.reverseRecOn with
  | nil => simp [ownersOf, ha]
  | append_singleton scopes x ih =>
      obtain ⟨hscopes, -, hlast⟩ := List.pairwise_append.1 h
      replace hlast : ∀ e sc, (e, sc) ∈ scopes → e < x.1 := fun e sc he => hlast _ he x (by simp)
      by_cases hbody : x.2.bodyOpener = some a
      · rw [join_ownersOf_concat scopes ha hbody, Option.some.injEq]
        constructor
        · rintro rfl
          refine ⟨⟨x.2, by simp, hbody⟩, fun e sc he _ => ?_⟩
          rcases List.mem_append.1 he with he | he
          · exact Nat.le_of_lt (hlast e sc he)
          · obtain rfl : (e, sc) = x := by simpa using he
            exact Nat.le_refl _
        · rintro ⟨⟨sc, hd, -⟩, hle⟩
          have hxd := hle x.1 x.2 (by simp) hbody
          rcases List.mem_append.1 hd with hd | hd
          · have := hlast d sc hd
            omega
          · obtain rfl : (d, sc) = x := by simpa using hd
            rfl
      · have hmem (e : Nat) (sc : Scope) (hsc : sc.bodyOpener = some a) :
            (e, sc) ∈ scopes ++ [x] ↔ (e, sc) ∈ scopes := by
          rw [List.mem_append, List.mem_singleton]
          refine or_iff_left ?_
          rintro rfl
          exact hbody hsc
        rw [getElem?_ownersOf_concat_of_ne size scopes hbody, ih hscopes]
        refine and_congr (exists_congr fun sc => ?_) (forall₂_congr fun e sc => ?_)
        · exact and_congr_left fun hsc => (hmem d sc hsc).symm
        · exact ⟨fun hle he hsc => hle ((hmem e sc hsc).1 he) hsc,
            fun hle he hsc => hle ((hmem e sc hsc).2 he) hsc⟩

/-- The owner of a body is the last declaration that opens it. -/
theorem owns_iff (h : Token.Numbered ts) (ha : a < ts.length) :
    (((ofTokens ts).owners[a]?).join = some d) ↔ (ofTokens ts).Owns d a := by
  have hscopes : (ofTokens ts).scopes.Pairwise (·.1 < ·.1) := pairwise_scopes h.pairwise
  have hbody (e : Nat) : ((ofTokens ts).scope e).bodyOpener = some a ↔
      ∃ sc, (e, sc) ∈ (ofTokens ts).scopes ∧ sc.bodyOpener = some a := by
    constructor
    · intro hbody
      rcases (ofTokens ts).scope_eq_empty_or_mem e with hempty | hmem
      · rw [hempty] at hbody
        cases hbody
      · exact ⟨_, hmem, hbody⟩
    · rintro ⟨sc, hmem, hsc⟩
      rw [scope, lookup_of_mem hscopes hmem]
      exact hsc
  refine (join_ownersOf hscopes ha).trans ⟨fun ⟨hd, hlast⟩ => ⟨(hbody d).2 hd, fun e he => ?_⟩,
    fun ⟨hd, hlast⟩ => ⟨(hbody d).1 hd, fun e sc he hsc => hlast e ((hbody e).2 ⟨sc, he, hsc⟩)⟩⟩
  obtain ⟨sc, hmem, hsc⟩ := (hbody e).1 he
  exact hlast e sc hmem hsc

/-- In balanced tokens, a token is owned by the owner of the innermost braces around it. -/
theorem owner?_iff (h : Token.Numbered ts) (hbalanced : Token.Balanced ts ps) :
    (ofTokens ts).owner? i = some d ↔ ∃ a c, (ofTokens ts).Around .curly i a c ∧
      (∀ a' c', (ofTokens ts).Around .curly i a' c' → a' ≤ a) ∧ (ofTokens ts).Owns d a := by
  have hlt {a c : Nat} (haround : (ofTokens ts).Around .curly i a c) : a < ts.length := by
    obtain ⟨t, ht, -⟩ := haround.pair.opens
    rw [get?_ofTokens] at ht
    exact (List.getElem?_eq_some_iff.1 ht).1
  have hlast (a : Nat) : (∀ b ∈ (ofTokens ts).nesting i, b.bracket = .curly → b.index ≤ a) ↔
      ∀ a' c', (ofTokens ts).Around .curly i a' c' → a' ≤ a := by
    constructor
    · intro hle a' c' haround
      exact hle ⟨.curly, a'⟩ ((mem_nesting_iff h hbalanced).2 ⟨c', haround⟩) rfl
    · rintro hle ⟨shape, b⟩ hb rfl
      obtain ⟨c', haround⟩ := (mem_nesting_iff h hbalanced).1 hb
      exact hle b c' haround
  rw [owner?, Option.bind_eq_some_iff]
  refine exists_congr fun a => ?_
  rw [curly?_eq_some_iff (pairwise_nesting h i), mem_nesting_iff h hbalanced, hlast]
  constructor
  · rintro ⟨⟨⟨c, haround⟩, hle⟩, howner⟩
    exact ⟨c, haround, hle, (owns_iff h (hlt haround)).1 howner⟩
  · rintro ⟨c, haround, hle, howns⟩
    exact ⟨⟨⟨c, haround⟩, hle⟩, (owns_iff h (hlt haround)).2 howns⟩

/-! ## Levels of bodies -/

/-- The scope of a declaration with a body, and the tokens from which it is read. -/
theorem exists_of_bodyOpener (h : Token.Numbered ts)
    (hbody : ((ofTokens ts).scope d).bodyOpener = some b) :
    ∃ t following, t ∈ ts ∧ t.index = d ∧ following.Pairwise (·.index < ·.index) ∧
      (∀ u, u ∈ following ↔ u ∈ ts ∧ d < u.index) ∧
      (t.kind.isFunctionLike = true ∧
          (Scope.ofFunction (ofTokens ts).partner? following).bodyOpener = some b ∨
        t.kind.isClassLike = true ∧
          (Scope.ofClass (ofTokens ts).partner? following).bodyOpener = some b) := by
  have hmem : (d, (ofTokens ts).scope d) ∈ (ofTokens ts).scopes := by
    refine ((ofTokens ts).scope_eq_empty_or_mem d).resolve_left fun hempty => ?_
    rw [hempty] at hbody
    cases hbody
  obtain ⟨before, t, following, hts, rfl, hscope⟩ := Scope.exists_of_mem_scan hmem
  have hsorted := h.pairwise
  rw [hts] at hsorted
  obtain ⟨-, hrow, hapart⟩ := List.pairwise_append.1 hsorted
  obtain ⟨hfollows, hfollowing⟩ := List.pairwise_cons.1 hrow
  refine ⟨t, following, by rw [hts]; simp, rfl, hfollowing, fun u => ?_, ?_⟩
  · rw [hts, List.mem_append, List.mem_cons]
    constructor
    · exact fun hu => ⟨.inr (.inr hu), hfollows u hu⟩
    · rintro ⟨hu | rfl | hu, hlt⟩
      · have := hapart u hu t List.mem_cons_self
        omega
      · omega
      · exact hu
  · rcases hscope with ⟨hkind, hscope⟩ | ⟨hkind, hscope⟩
    · exact .inl ⟨hkind, hscope ▸ hbody⟩
    · exact .inr ⟨hkind, hscope ▸ hbody⟩

/-- The body of a declaration stands behind it. -/
theorem lt_of_bodyOpener (h : Token.Numbered ts)
    (hbody : ((ofTokens ts).scope d).bodyOpener = some b) : d < b := by
  obtain ⟨-, following, -, -, -, hmem, ⟨-, hscope⟩ | ⟨-, hscope⟩⟩ := exists_of_bodyOpener h hbody
  · obtain ⟨o, c, -, -, hbody⟩ := Scope.exists_of_bodyOpener hscope
    obtain ⟨u, hu, -, rfl⟩ := Scope.functionBody?_eq_some hbody
    exact ((hmem u).1 hu).2
  · obtain ⟨u, hu, rfl, -⟩ := Scope.exists_of_bodyOpener_ofClass hscope
    exact ((hmem u).1 hu).2

/-- A pair of brackets around the body of a declaration that opens behind the declaration is one of
square brackets, or one of parentheses behind a class-like declaration. -/
theorem around_body (h : Token.Numbered ts) (ht : t ∈ ts)
    (hbody : ((ofTokens ts).scope t.index).bodyOpener = some b)
    (haround : (ofTokens ts).Around shape b o c) (hbehind : t.index < o) :
    shape = .square ∨ shape = .parenthesis ∧ t.kind.isClassLike = true := by
  obtain ⟨hpair, hlt, hle⟩ := haround
  obtain ⟨u, hu, hopens⟩ := hpair.opens
  rw [get?_ofTokens] at hu
  obtain rfl := h o u hu
  obtain ⟨t', following, ht', hindex, hsorted, hmem, hscope⟩ := exists_of_bodyOpener h hbody
  obtain rfl : t = t' := by
    have hget := h.getElem? ht
    rw [← hindex, h.getElem? ht'] at hget
    exact (Option.some.inj hget).symm
  have hin := (hmem u).2 ⟨List.mem_of_getElem? hu, hbehind⟩
  have hhas : ∀ {v}, v ∈ following → v ∈ ts := fun hv => ((hmem _).1 hv).1
  have hkinds := Kind.opens?_eq_some hopens
  rcases hscope with ⟨-, hscope⟩ | ⟨hclass, hscope⟩
  · obtain ⟨p, e, hp, hpartner, hbody⟩ := Scope.exists_of_bodyOpener hscope
    obtain ⟨⟨v, hv, rfl, hkind⟩, hfront⟩ := Scope.parameterOpener?_spec hsorted hp
    obtain ⟨-, hparens⟩ := isPair_of_opens h (hhas hv) (by rw [hkind]; rfl) hpartner
    obtain ⟨heb, hpassed⟩ := Scope.passed_of_functionBody? hsorted
      (fun w hw hkind e he => (isPair_of_opens h (hhas hw) (by rw [hkind]; rfl) he).1) hbody
    refine .inl ?_
    by_contra hshape
    replace hkinds : u.kind = .openCurly ∨ u.kind = .openParenthesis := by
      rcases hkinds with ⟨-, hkind⟩ | ⟨-, hkind⟩ | ⟨hsquare, -⟩
      · exact .inr hkind
      · exact .inl hkind
      · exact absurd hsquare hshape
    rcases Nat.lt_or_ge u.index v.index with hbefore | hfrom
    · obtain ⟨hparen, hcurly⟩ := hfront u hin hbefore
      exact hkinds.elim hcurly hparen
    · -- brackets behind the opening parenthesis are closed in front of the body
      have hclosed : c < b := by
        rcases Nat.lt_or_ge e u.index with hafter | hwithin
        · obtain ⟨w, hw, hwkind, hwu, x, hx, hux, hxb⟩ := hpassed u hin (by omega) hlt <|
            hkinds.imp_right fun hparen => ⟨hparen, by rw [hpair.partner]; rfl⟩
          obtain ⟨-, hpassedPair⟩ := isPair_of_opens h (hhas hw) (by rw [hwkind]; rfl) hx
          have := hpassedPair.le_of_within h hpair hwu hux
          omega
        · have := hparens.le_of_within h hpair hfrom hwithin
          omega
      omega
  · obtain ⟨v, hv, rfl, hfirst⟩ := Scope.exists_of_bodyOpener_ofClass hscope
    have hcurly := hfirst hsorted u hin hlt
    rcases hkinds with ⟨rfl, -⟩ | ⟨-, hkind⟩ | ⟨rfl, -⟩
    · exact .inr ⟨rfl, hclass⟩
    · exact absurd hkind hcurly
    · exact .inl rfl

/-- The body of a declaration is at its own level: the same pairs of brackets stand around both, when
none of them is closed in front of the body and behind the declaration no square bracket opens, and
behind a class-like one no parenthesis. -/
theorem body_atLevel (h : Token.Numbered ts) (ht : t ∈ ts)
    (hbody : ((ofTokens ts).scope t.index).bodyOpener = some b)
    (square : ∀ u ∈ ts, t.index < u.index → u.index < b → u.kind ≠ .openSquare)
    (parenthesis : t.kind.isClassLike = true →
      ∀ u ∈ ts, t.index < u.index → u.index < b → u.kind ≠ .openParenthesis)
    (unclosed : ∀ shape o c, (ofTokens ts).Around shape t.index o c → b ≤ c)
    (shape : Bracket) (o c : Nat) :
    (ofTokens ts).Around shape b o c ↔ (ofTokens ts).Around shape t.index o c := by
  have hlt := lt_of_bodyOpener h hbody
  constructor
  · intro haround
    refine ⟨haround.pair, ?_, Nat.le_trans (Nat.le_of_lt hlt) haround.le⟩
    by_contra hnot
    obtain ⟨u, hu, hopens⟩ := haround.pair.opens
    rw [get?_ofTokens] at hu
    obtain rfl := h o u hu
    have hmem := List.mem_of_getElem? hu
    rcases Nat.eq_or_lt_of_le (Nat.le_of_not_lt hnot) with hsame | hbehind
    · -- a declaration is no bracket
      obtain ⟨v, following, hv, hindex, -, -, hscope⟩ := exists_of_bodyOpener h hbody
      have hget := h.getElem? hv
      rw [hindex, hsame, hu] at hget
      obtain rfl := Option.some.inj hget
      rw [Kind.opens?_of_declaration (hscope.imp And.left And.left)] at hopens
      cases hopens
    · rcases around_body h ht hbody haround hbehind with rfl | ⟨rfl, hclass⟩
      · refine square u hmem hbehind haround.lt ?_
        simpa using Kind.opens?_eq_some hopens
      · refine parenthesis hclass u hmem hbehind haround.lt ?_
        simpa using Kind.opens?_eq_some hopens
  · exact fun haround => ⟨haround.pair, Nat.lt_trans haround.lt hlt, unclosed shape o c haround⟩

/-- The braces of a class stand around the body of its method as they stand around the method. -/
theorem body_atLevel_method :
    let ts := Token.place 0 Position.start [⟨.classWord, "class"⟩, ⟨.name, "A"⟩,
      ⟨.openCurly, "\x7b"⟩, ⟨.function, "function"⟩, ⟨.name, "f"⟩, ⟨.openParenthesis, "("⟩,
      ⟨.closeParenthesis, ")"⟩, ⟨.openCurly, "\x7b"⟩, ⟨.closeCurly, "\x7d"⟩, ⟨.closeCurly, "\x7d"⟩]
    let s := ofTokens ts
    Token.Numbered ts ∧ (s.scope 3).bodyOpener = some 7 ∧ s.Around .curly 7 2 9 ∧
      ∀ shape o c, s.Around shape 7 o c ↔ s.Around shape 3 o c := by
  intro ts s
  have hnumbered : Token.Numbered ts := fun i t ht => (Token.index_place ht).trans (Nat.zero_add i)
  have hbody : (s.scope 3).bodyOpener = some 7 := by decide
  have hunclosed : ∀ shape o c, s.Around shape 3 o c → 7 ≤ c := by
    intro shape o c haround
    have hall : ∀ o < 3, (s.partner? o).all (7 ≤ ·) = true := by decide
    have hc := hall o haround.lt
    rw [haround.pair.partner] at hc
    simpa using hc
  have hlevel := body_atLevel hnumbered (t := ts[3]) (b := 7) (by decide) hbody (by decide)
    (by decide) hunclosed
  have hmethod : s.Around .curly 3 2 9 :=
    ⟨⟨by decide, ⟨_, rfl, rfl⟩, _, rfl, rfl⟩, by decide, by decide⟩
  exact ⟨hnumbered, hbody, (hlevel _ _ _).2 hmethod, hlevel⟩

/-- An arrow function in arguments takes the braces of the statement for its body. -/
example :
    let s := ofTokens (Token.place 0 Position.start [⟨.openParenthesis, "("⟩, ⟨.closure, "fn"⟩,
      ⟨.openParenthesis, "("⟩, ⟨.closeParenthesis, ")"⟩, ⟨.variable, "$x"⟩,
      ⟨.closeParenthesis, ")"⟩, ⟨.openCurly, "\x7b"⟩, ⟨.closeCurly, "\x7d"⟩])
    (s.scope 1).bodyOpener = some 6 ∧ s.partner? 0 = some 5 := by
  decide

/-! ## Stray closers -/

/-- A token that is no bracket has no partner. -/
theorem partner?_of_neutral (h : Token.Numbered ts) {t : Token} (ht : ts[i]? = some t)
    (hopens : t.kind.opens? = none) (hcloses : t.kind.closes? = none) :
    (ofTokens ts).partner? i = none := by
  by_contra hne
  obtain ⟨j, hj⟩ := Option.ne_none_iff_exists'.1 hne
  rw [← get?_ofTokens] at ht
  obtain ⟨-, shape, ⟨-, hpair⟩ | ⟨-, hpair⟩⟩ := isPair_of_partner h hj
  · obtain ⟨u, hu, hother⟩ := hpair.opens
    obtain rfl : t = u := Option.some.inj (ht.symm.trans hu)
    rw [hopens] at hother
    cases hother
  · obtain ⟨u, hu, hother⟩ := hpair.closes
    obtain rfl : t = u := Option.some.inj (ht.symm.trans hu)
    rw [hcloses] at hother
    cases hother

/-- Without a bracket to close, a closer may as well be no bracket at all. -/
theorem partner?_set_of_stray {t u : Token} (ht : ts[i]? = some t)
    (hcloses : t.kind.closes? = some shape)
    (hstray : ∀ b ∈ (ofTokens ts).nesting i, b.bracket ≠ shape)
    (huopens : u.kind.opens? = none) (hucloses : u.kind.closes? = none) (j : Nat) :
    (ofTokens (ts.set i u)).partner? j = (ofTokens ts).partner? j := by
  obtain ⟨hi, rfl⟩ := List.getElem?_eq_some_iff.1 ht
  have hsplit : ts = ts.take i ++ ts[i] :: ts.drop (i + 1) := by simp
  have hset : ts.set i u = ts.take i ++ u :: ts.drop (i + 1) := by
    rw [List.set_eq_take_append_cons_drop, if_pos hi]
  have hpairs : pairs [] (ts.set i u) = pairs [] ts := by
    rw [nesting_ofTokens hi] at hstray
    conv_rhs => rw [hsplit]
    rw [hset, pairs_append, pairs_append, pairs_cons_none (advance_of_stray hcloses hstray),
      pairs_cons_none (advance_of_neutral huopens hucloses _)]
  show ((partnersOf (ts.set i u).length (pairs [] (ts.set i u)))[j]?).join = _
  rw [hpairs, List.length_set]
  rfl

/-- A closing bracket without an open one of its shape has no partner. -/
theorem partner?_of_stray (h : Token.Numbered ts) {t : Token} (ht : ts[i]? = some t)
    (hcloses : t.kind.closes? = some shape)
    (hstray : ∀ b ∈ (ofTokens ts).nesting i, b.bracket ≠ shape) :
    (ofTokens ts).partner? i = none := by
  obtain rfl := h i t ht
  let neutral : Token := { t with kind := .other }
  rw [← partner?_set_of_stray (u := neutral) ht hcloses hstray rfl rfl]
  have hget : (ts.set t.index neutral)[t.index]? = some neutral := by
    rw [List.getElem?_set_self (List.getElem?_eq_some_iff.1 ht).1]
  exact partner?_of_neutral (h.set neutral) hget rfl rfl

/-! ## The matching -/

/-- Partners are an opener and a later closer of its shape, and no two pairs cross. In a balanced
word every bracket has the partner that it has in the word, a token is in parentheses when a pair of
parentheses stands around it, and it belongs to the owner of the innermost braces around it. A
closer without an open bracket of its shape has no partner, and the others have the partners that
they would have if it were no bracket. -/
theorem brackets_wellNested {ts : List Token} (h : Token.Numbered ts) :
    let s := ofTokens ts
    (∀ i j, s.partner? i = some j → s.partner? j = some i ∧ ∃ shape,
      (i < j ∧ s.IsPair shape i j) ∨ (j < i ∧ s.IsPair shape j i)) ∧
    (∀ shape other a b c d, s.IsPair shape a b → s.IsPair other c d → a < c → c < b → d < b) ∧
    (∀ ps, Token.Balanced ts ps →
      (∀ t ∈ ts, t.kind.opens?.isSome = true ∨ t.kind.closes?.isSome = true →
        ∃ j, s.partner? t.index = some j) ∧
      (∀ i j, s.partner? i = some j ↔ (i, j) ∈ ps ∨ (j, i) ∈ ps) ∧
      (∀ i, s.inParentheses i = true ↔ ∃ a c, s.Around .parenthesis i a c) ∧
      ∀ i d, s.owner? i = some d ↔ ∃ a c, s.Around .curly i a c ∧
        (∀ a' c', s.Around .curly i a' c' → a' ≤ a) ∧ s.Owns d a) ∧
    ∀ i t shape, ts[i]? = some t → t.kind.closes? = some shape →
      (∀ b ∈ s.nesting i, b.bracket ≠ shape) →
      s.partner? i = none ∧ ∀ u : Token, u.kind.opens? = none → u.kind.closes? = none →
        ∀ j, (ofTokens (ts.set i u)).partner? j = s.partner? j := by
  intro s
  have hpartner {ps : List (Nat × Nat)} (hbalanced : Token.Balanced ts ps) (i j : Nat) :
      s.partner? i = some j ↔ (i, j) ∈ ps ∨ (j, i) ∈ ps := by
    rw [partner?_eq_some_iff h, hbalanced.mem_pairs_iff, hbalanced.mem_pairs_iff]
  refine ⟨fun i j => isPair_of_partner h, fun shape other a b c d hpair hinside =>
    hpair.lt_of_inside h hinside, fun ps hbalanced => ⟨fun t ht hbracket => ?_,
      hpartner hbalanced, fun i => inParentheses_iff h hbalanced,
      fun i d => owner?_iff h hbalanced⟩, fun i t shape ht hcloses hstray => ⟨?_, ?_⟩⟩
  · obtain ⟨⟨o, c⟩, hp, rfl | rfl⟩ := hbalanced.exists_partner ht hbracket
    · exact ⟨c, (hpartner hbalanced _ _).2 (.inl hp)⟩
    · exact ⟨o, (hpartner hbalanced _ _).2 (.inr hp)⟩
  · exact partner?_of_stray h ht hcloses hstray
  · exact fun u hopens hucloses => partner?_set_of_stray ht hcloses hstray hopens hucloses

/-- A function with a call in its body: the braces are the partners of each other, and the argument
is in parentheses and belongs to the function. -/
theorem brackets_wellNested_function :
    let ts := Token.place 0 Position.start [⟨.function, "function"⟩, ⟨.openParenthesis, "("⟩,
      ⟨.closeParenthesis, ")"⟩, ⟨.openCurly, "\x7b"⟩, ⟨.name, "f"⟩, ⟨.openParenthesis, "("⟩,
      ⟨.variable, "$x"⟩, ⟨.closeParenthesis, ")"⟩, ⟨.closeCurly, "\x7d"⟩]
    let s := ofTokens ts
    Token.Numbered ts ∧ Token.Balanced ts [(1, 2), (3, 8), (5, 7)] ∧ s.partner? 8 = some 3 ∧
      s.inParentheses 6 = true ∧ s.owner? 6 = some 0 := by
  intro ts s
  have hnumbered : Token.Numbered ts := fun i t ht => (Token.index_place ht).trans (Nat.zero_add i)
  have hbalanced : Token.Balanced ts [(1, 2), (3, 8), (5, 7)] :=
    .skip rfl rfl (.pair rfl rfl .nil (.pair rfl rfl
      (.skip rfl rfl (.pair rfl rfl (.skip rfl rfl .nil) .nil)) .nil))
  obtain ⟨-, -, hword, -⟩ := brackets_wellNested hnumbered
  obtain ⟨-, hpartner, hparentheses, howner⟩ := hword _ hbalanced
  have hcall : s.Around .parenthesis 6 5 7 :=
    ⟨⟨(hpartner 5 7).2 (by simp), ⟨_, rfl, rfl⟩, _, rfl, rfl⟩, by decide, by decide⟩
  have hbody : s.Around .curly 6 3 8 :=
    ⟨⟨(hpartner 3 8).2 (by simp), ⟨_, rfl, rfl⟩, _, rfl, rfl⟩, by decide, by decide⟩
  have hlast : ∀ a c, s.Around .curly 6 a c → a ≤ 3 := by
    rintro a c ⟨⟨hpair, ⟨t, ht, hcurly⟩, -⟩, hlt, -⟩
    rcases (hpartner a c).1 hpair with hmem | hmem
    · simp only [List.mem_cons, Prod.mk.injEq, List.not_mem_nil, or_false] at hmem
      rcases hmem with ⟨rfl, -⟩ | ⟨rfl, -⟩ | ⟨rfl, -⟩
      · decide
      · decide
      · cases ht
        cases hcurly
    · simp only [List.mem_cons, Prod.mk.injEq, List.not_mem_nil, or_false] at hmem
      omega
  have howns : s.Owns 0 3 := by
    refine ⟨by decide, fun e he => ?_⟩
    cases e with
    | zero => exact Nat.le_refl 0
    | succ e => cases he
  exact ⟨hnumbered, hbalanced, (hpartner 8 3).2 (by simp), (hparentheses 6).2 ⟨5, 7, hcall⟩,
    (howner 6 0).2 ⟨3, 8, hbody, hlast, howns⟩⟩

end Stream

end PhpDoc
