import PhpDoc.Proofs.Token.Bracket

/-!
# Pairs of brackets on a stack

What the stack of open brackets makes of a row of tokens. The pairs do not cross: each one encloses
those that are closed before it, or opens behind them (`Nesting.pairwise_pairs`). In a balanced word
the stack finds the partners that the word has (`Token.Balanced.mem_pairs_iff`), and behind it the
same brackets are open as in front of it.
-/

namespace PhpDoc

namespace Nesting

variable {n m : Nesting} {t u : Token} {ts us xs ys : List Token} {o c : Nat} {b : OpenBracket}
variable {shape : Bracket} {p q : Nat × Nat}

/-! ## The nesting behind tokens -/

/-- The nesting behind tokens of which the first one stands in `n`. -/
def after (n : Nesting) (ts : List Token) : Nesting :=
  ts.foldl (fun n t => (n.advance t).1) n

/-- Without tokens the nesting stays as it is. -/
@[simp] theorem after_nil (n : Nesting) : n.after [] = n := rfl

/-- The first token changes the nesting before the others do. -/
theorem after_cons (n : Nesting) (t : Token) (ts : List Token) :
    n.after (t :: ts) = (n.advance t).1.after ts := rfl

/-- Tokens in a row change the nesting one after the other. -/
theorem after_append (n : Nesting) (ts us : List Token) :
    n.after (ts ++ us) = (n.after ts).after us :=
  List.foldl_append

/-- A closer of the innermost bracket closes nothing else. -/
theorem advance_of_innermost (h : t.kind.closes? = some shape) (o : Nat) (n : Nesting) :
    advance (⟨shape, o⟩ :: n) t = (n, some o) := by
  show advance ([] ++ ⟨shape, o⟩ :: n) t = (n, some o)
  exact advance_of_closes h (by simp)

/-- The nestings of tokens in a row start from the nesting behind the first ones. -/
theorem scan_append (n : Nesting) (ts us : List Token) :
    scan n (ts ++ us) = scan n ts ++ scan (n.after ts) us := by
  induction ts generalizing n with
  | nil => rfl
  | cons t ts ih => rw [List.cons_append, scan, scan, ih, after_cons, List.cons_append]

/-- The pairs of tokens in a row are those of the first ones and those found behind them. -/
theorem pairs_append (n : Nesting) (ts us : List Token) :
    pairs n (ts ++ us) = pairs n ts ++ pairs (n.after ts) us := by
  induction ts generalizing n with
  | nil => rfl
  | cons t ts ih =>
      rw [List.cons_append, after_cons]
      cases hadvance : n.advance t with
      | mk m opener =>
          cases opener with
          | none => rw [pairs_cons_none hadvance, pairs_cons_none hadvance, ih]
          | some o => rw [pairs_cons_some hadvance, pairs_cons_some hadvance, ih, List.cons_append]

/-- A bracket that is open behind tokens was open in front of them, or one of them opens it. -/
theorem mem_after (h : b ∈ n.after ts) :
    b ∈ n ∨ ∃ t ∈ ts, t.index = b.index ∧ t.kind.opens? = some b.bracket := by
  induction ts generalizing n with
  | nil => exact .inl h
  | cons t ts ih =>
      rcases ih h with hb | ⟨u, hu, hopens⟩
      · rcases mem_advance hb with hb | ⟨hindex, hopens⟩
        · exact .inl hb
        · exact .inr ⟨t, List.mem_cons_self, hindex.symm, hopens⟩
      · exact .inr ⟨u, List.mem_cons_of_mem _ hu, hopens⟩

/-! ## Order -/

/-- The tokens stand in order, and in front of them the brackets that are open there, the innermost
first. -/
structure Ordered (n : Nesting) (ts : List Token) : Prop where
  tokens : ts.Pairwise (·.index < ·.index)
  nesting : n.Pairwise (·.index > ·.index)
  before : ∀ b ∈ n, ∀ t ∈ ts, b.index < t.index

/-- With nothing open, ordered tokens are ordered. -/
theorem ordered_nil (h : ts.Pairwise (·.index < ·.index)) : Ordered [] ts :=
  ⟨h, .nil, by simp⟩

/-- The order is kept by one token. -/
theorem Ordered.advance (h : Ordered n (t :: ts)) : Ordered (n.advance t).1 ts := by
  obtain ⟨htokens, hnesting, hbefore⟩ := h
  obtain ⟨ht, hts⟩ := List.pairwise_cons.1 htokens
  refine ⟨hts, ?_, fun b hb u hu => ?_⟩
  · rcases advance_cases n t with ⟨shape, -, heq⟩ | ⟨shape, inner, o, outer, -, rfl, heq⟩ | heq
    · rw [heq]
      exact List.pairwise_cons.2 ⟨fun b hb => hbefore b hb t List.mem_cons_self, hnesting⟩
    · rw [heq]
      exact (List.pairwise_cons.1 (List.pairwise_append.1 hnesting).2.1).2
    · rw [heq]
      exact hnesting
  · rcases mem_advance hb with hb | ⟨hindex, -⟩
    · exact hbefore b hb u (List.mem_cons_of_mem _ hu)
    · exact hindex ▸ ht u hu

/-- The order is kept by tokens in a row. -/
theorem Ordered.after (h : Ordered n (ts ++ us)) : Ordered (n.after ts) us := by
  induction ts generalizing n with
  | nil => exact h
  | cons t ts ih => exact ih h.advance

/-- The first tokens of a row are ordered. -/
theorem Ordered.left (h : Ordered n (ts ++ us)) : Ordered n ts :=
  ⟨(List.pairwise_append.1 h.tokens).1, h.nesting, fun b hb t ht =>
    h.before b hb t (List.mem_append_left _ ht)⟩

/-- The brackets around an open one open in front of it. -/
theorem lt_of_mem_outer {inner outer : Nesting} {x : OpenBracket}
    (h : (inner ++ x :: outer).Pairwise (·.index > ·.index)) (hb : b ∈ outer) : b.index < x.index :=
  (List.pairwise_cons.1 (List.pairwise_append.1 h).2.1).1 b hb

/-- A pair of the row is a pair of brackets of one shape. -/
theorem Ordered.pair (h : Ordered n ts) (hp : (o, c) ∈ pairs n ts) : ∃ shape, Pair n ts shape o c :=
  pair_of_mem h.tokens h.before hp

/-! ## Pairs do not cross -/

/-- Pair `q` closes behind pair `p`, and encloses it or opens behind it. -/
structure Follows (p q : Nat × Nat) : Prop where
  closer_lt : p.2 < q.2
  apart : q.1 < p.1 ∨ p.2 < q.1

/-- When a bracket is closed, what was open inside of it is given up, so that every later pair opens
in front of it or behind its closer. -/
theorem pairwise_pairs (h : Ordered n ts) : (pairs n ts).Pairwise Follows := by
  induction ts generalizing n with
  | nil => exact .nil
  | cons t ts ih =>
      have hlater := ih h.advance
      rcases advance_cases n t with ⟨shape, -, heq⟩ | ⟨shape, inner, o, outer, -, rfl, heq⟩ | heq
      · rw [pairs_cons_none heq]
        rwa [heq] at hlater
      · rw [pairs_cons_some heq]
        have hadvance := h.advance
        rw [heq] at hlater hadvance
        refine List.pairwise_cons.2 ⟨fun q hq => ?_, hlater⟩
        obtain ⟨shape, -, hopener, u, hu, hcloser, -⟩ := hadvance.pair hq
        have hbehind := (List.pairwise_cons.1 h.tokens).1
        refine ⟨hcloser ▸ hbehind u hu, ?_⟩
        rcases hopener with hopener | ⟨v, hv, hindex, -⟩
        · exact .inl (lt_of_mem_outer h.nesting hopener)
        · exact .inr (hindex ▸ hbehind v hv)
      · rw [pairs_cons_none heq]
        rwa [heq] at hlater

/-- Of two different pairs one follows the other. -/
theorem follows_of_mem (h : Ordered n ts) (hp : p ∈ pairs n ts) (hq : q ∈ pairs n ts) :
    p = q ∨ Follows p q ∨ Follows q p := by
  have hpairs := pairwise_pairs h
  exact List.Pairwise.forall_of_forall_of_flip (R := fun p q => p = q ∨ Follows p q ∨ Follows q p)
    (fun _ _ => .inl rfl) (hpairs.imp fun hpq => .inr (.inl hpq))
    (hpairs.imp fun hpq => .inr (.inr hpq)) hp hq

/-! ## Pairs and what is open -/

/-- A bracket that has been closed is not open any more. -/
theorem index_ne_of_mem_after (h : Ordered n ts) (hp : (o, c) ∈ pairs n ts) (hb : b ∈ n.after ts) :
    b.index ≠ o := by
  induction ts generalizing n with
  | nil => cases hp
  | cons t ts ih =>
      rw [after_cons] at hb
      have hadvance := h.advance
      rcases advance_cases n t with
        ⟨shape, -, heq⟩ | ⟨shape, inner, opener, outer, -, rfl, heq⟩ | heq
      · rw [pairs_cons_none heq] at hp
        rw [heq] at hb hadvance
        exact ih hadvance hp hb
      · rw [pairs_cons_some heq] at hp
        rw [heq] at hb hadvance
        rcases List.mem_cons.1 hp with hp | hp
        · cases hp
          have hlt : o < t.index := h.before ⟨shape, o⟩ (by simp) t List.mem_cons_self
          rcases mem_after hb with hb | ⟨u, hu, hindex, -⟩
          · exact Nat.ne_of_lt (lt_of_mem_outer h.nesting hb)
          · have := (List.pairwise_cons.1 h.tokens).1 u hu
            omega
        · exact ih hadvance hp hb
      · rw [pairs_cons_none heq] at hp
        rw [heq] at hb hadvance
        exact ih hadvance hp hb

/-- A pair around the place between two rows of tokens is open there. -/
theorem mem_after_of_pair (h : Ordered [] (xs ++ ys)) (hp : (o, c) ∈ pairs [] (xs ++ ys))
    (ho : ∀ t ∈ ys, o < t.index) (hc : ∀ t ∈ xs, t.index < c) :
    ∃ shape, ⟨shape, o⟩ ∈ after [] xs := by
  rw [pairs_append] at hp
  rcases List.mem_append.1 hp with hp | hp
  · obtain ⟨shape, -, -, t, ht, hindex, -⟩ := h.left.pair hp
    exact absurd hindex (Nat.ne_of_lt (hc t ht))
  · obtain ⟨shape, -, hopener | ⟨t, ht, hindex, -⟩, -⟩ := h.after.pair hp
    · exact ⟨shape, hopener⟩
    · exact absurd hindex (Nat.ne_of_gt (ho t ht))

/-- What is open between two rows of tokens is closed by a token of the second row, if at all. -/
theorem exists_closer_of_mem_after (h : Ordered [] (xs ++ ys)) (hb : b ∈ after [] xs)
    (hp : (b.index, c) ∈ pairs [] (xs ++ ys)) : ∃ t ∈ ys, t.index = c := by
  rw [pairs_append] at hp
  rcases List.mem_append.1 hp with hp | hp
  · exact absurd rfl (index_ne_of_mem_after h.left hp hb)
  · obtain ⟨shape, -, -, t, ht, hindex, -⟩ := h.after.pair hp
    exact ⟨t, ht, hindex⟩

/-- The innermost open brace is the one that opens last. -/
theorem curly?_eq_some_iff (hn : n.Pairwise (·.index > ·.index)) :
    n.curly? = some o ↔ ⟨.curly, o⟩ ∈ n ∧ ∀ b ∈ n, b.bracket = .curly → b.index ≤ o := by
  rw [curly?, Option.map_eq_some_iff]
  constructor
  · rintro ⟨⟨shape, o⟩, hfind, rfl⟩
    obtain ⟨hcurly, inner, outer, rfl, hinner⟩ := List.find?_eq_some_iff_append.1 hfind
    obtain rfl : shape = .curly := by simpa using hcurly
    refine ⟨by simp, fun b hb hcurly => ?_⟩
    rcases List.mem_append.1 hb with hb | hb
    · have := hinner b hb
      simp [hcurly] at this
    · rcases List.mem_cons.1 hb with rfl | hb
      · exact Nat.le_refl _
      · exact Nat.le_of_lt (lt_of_mem_outer hn hb)
  · rintro ⟨hmem, hlast⟩
    cases hfind : n.find? (·.bracket == .curly) with
    | none =>
        have := List.find?_eq_none.1 hfind _ hmem
        simp at this
    | some b =>
        refine ⟨b, rfl, ?_⟩
        obtain ⟨hcurly, inner, outer, rfl, hinner⟩ := List.find?_eq_some_iff_append.1 hfind
        have hle := hlast b (by simp) (by simpa using hcurly)
        rcases List.mem_append.1 hmem with hmem | hmem
        · have := hinner _ hmem
          simp at this
        · rcases List.mem_cons.1 hmem with rfl | hmem
          · rfl
          · exact absurd (lt_of_mem_outer hn hmem) (Nat.not_lt.2 hle)

end Nesting

/-! ## Balanced words -/

namespace Token

/-- A numbered token stands at its index. -/
theorem Numbered.getElem? {ts : List Token} (h : Numbered ts) {t : Token} (ht : t ∈ ts) :
    ts[t.index]? = some t := by
  obtain ⟨k, hk⟩ := List.mem_iff_getElem?.1 ht
  rwa [h k t hk]

/-- Tokens stay numbered when one is put in the place of that with its index. -/
theorem Numbered.set {ts : List Token} (h : Numbered ts) (t : Token) :
    Numbered (ts.set t.index t) := by
  intro k u hu
  rw [List.getElem?_set] at hu
  split at hu
  · next hindex =>
      split at hu
      · cases hu
        exact hindex
      · cases hu
  · exact h k u hu

/-- The tokens in front of a place have smaller numbers. -/
theorem Numbered.lt_of_mem_take {ts : List Token} (h : Numbered ts) {t : Token} {i : Nat}
    (ht : t ∈ ts.take i) : t.index < i := by
  obtain ⟨k, hk⟩ := List.mem_iff_getElem?.1 ht
  rw [List.getElem?_take] at hk
  split at hk
  · next hlt =>
      rw [h k t hk]
      exact hlt
  · cases hk

/-- The tokens from a place on have its number and larger ones. -/
theorem Numbered.le_of_mem_drop {ts : List Token} (h : Numbered ts) {t : Token} {i : Nat}
    (ht : t ∈ ts.drop i) : i ≤ t.index := by
  obtain ⟨k, hk⟩ := List.mem_iff_getElem?.1 ht
  rw [List.getElem?_drop] at hk
  rw [h _ t hk]
  omega

/-- The brackets among the tokens are a balanced word, and these are its partners, opener and closer
by their indices: a pair of brackets of one shape stands around a balanced word and in front of one,
and tokens that are no brackets may stand anywhere. -/
inductive Balanced : List Token → List (Nat × Nat) → Prop
  | nil : Balanced [] []
  | skip {t : Token} {ts : List Token} {ps : List (Nat × Nat)} :
      t.kind.opens? = none → t.kind.closes? = none → Balanced ts ps → Balanced (t :: ts) ps
  | pair {o c : Token} {inner rest : List Token} {ps qs : List (Nat × Nat)} {shape : Bracket} :
      o.kind.opens? = some shape → c.kind.closes? = some shape →
      Balanced inner ps → Balanced rest qs →
      Balanced (o :: (inner ++ c :: rest)) ((o.index, c.index) :: (ps ++ qs))

open Nesting

variable {ts : List Token} {ps : List (Nat × Nat)} {t : Token}

namespace Balanced

/-- Behind a balanced word the same brackets are open as in front of it. -/
theorem after_eq (h : Balanced ts ps) (n : Nesting) : n.after ts = n := by
  induction h generalizing n with
  | nil => rfl
  | skip hopens hcloses _ ih => rw [after_cons, advance_of_neutral hopens hcloses, ih]
  | pair hopens hcloses _ _ ihinner ihrest =>
      rw [after_cons, advance_of_opens hopens, after_append, ihinner, after_cons,
        advance_of_innermost hcloses, ihrest]

/-- The stack finds the partners of a balanced word. -/
theorem mem_pairs_iff (h : Balanced ts ps) (n : Nesting) (p : Nat × Nat) :
    p ∈ pairs n ts ↔ p ∈ ps := by
  induction h generalizing n with
  | nil => rfl
  | skip hopens hcloses _ ih => rw [pairs_cons_none (advance_of_neutral hopens hcloses n), ih]
  | pair hopens hcloses hinner _ ihinner ihrest =>
      rw [pairs_cons_none (advance_of_opens hopens n), pairs_append, hinner.after_eq,
        pairs_cons_some (advance_of_innermost hcloses _ n)]
      simp only [List.mem_append, List.mem_cons, ihinner, ihrest]
      tauto

/-- No bracket of a balanced word is without a partner. -/
theorem exists_partner (h : Balanced ts ps) (ht : t ∈ ts)
    (hbracket : t.kind.opens?.isSome = true ∨ t.kind.closes?.isSome = true) :
    ∃ p ∈ ps, p.1 = t.index ∨ p.2 = t.index := by
  induction h with
  | nil => cases ht
  | skip hopens hcloses _ ih =>
      rcases List.mem_cons.1 ht with rfl | ht
      · simp [hopens, hcloses] at hbracket
      · exact ih ht
  | pair hopens hcloses _ _ ihinner ihrest =>
      rcases List.mem_cons.1 ht with rfl | ht
      · exact ⟨_, List.mem_cons_self, .inl rfl⟩
      · rcases List.mem_append.1 ht with ht | ht
        · obtain ⟨p, hp, hpartner⟩ := ihinner ht
          exact ⟨p, List.mem_cons_of_mem _ (List.mem_append_left _ hp), hpartner⟩
        · rcases List.mem_cons.1 ht with rfl | ht
          · exact ⟨_, List.mem_cons_self, .inr rfl⟩
          · obtain ⟨p, hp, hpartner⟩ := ihrest ht
            exact ⟨p, List.mem_cons_of_mem _ (List.mem_append_right _ hp), hpartner⟩

end Balanced

end Token

end PhpDoc
