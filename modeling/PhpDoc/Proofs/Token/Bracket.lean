import PhpDoc.Proofs.Token.Sound

/-!
# The brackets and declarations of a stream

An opening bracket stands in front of its partner, and both are tokens of the stream. What a
declaration owns stands behind it. `Stream.Linked` says that the links noted for the tokens lead
there, and `linked_of_tokenize` that they do in every source text, however its brackets are
balanced. In front of the body of a function nothing opens braces or a pair of parentheses but what
is passed over (`Scope.passed_of_functionBody?`).
-/

namespace PhpDoc

/-- No token opens a bracket and closes one. -/
theorem Kind.opens?_of_closes {k : Kind} (h : k.closes?.isSome = true) : k.opens? = none := by
  cases k <;> first | rfl | cases h

/-- Every shape of bracket has one opener. -/
theorem Kind.opens?_eq_some {k : Kind} {shape : Bracket} (h : k.opens? = some shape) :
    (shape = .parenthesis ∧ k = .openParenthesis) ∨ (shape = .curly ∧ k = .openCurly) ∨
      (shape = .square ∧ k = .openSquare) := by
  cases k <;> cases h <;> simp

/-- The keyword of a declaration opens no bracket. -/
theorem Kind.opens?_of_declaration {k : Kind}
    (h : k.isFunctionLike = true ∨ k.isClassLike = true) : k.opens? = none := by
  cases k <;> first | rfl | (rcases h with h | h <;> cases h)

/-- Every token has the index at which it stands. -/
def Token.Numbered (ts : List Token) : Prop :=
  ∀ (i : Nat) (t : Token), ts[i]? = some t → t.index = i

/-- Numbered tokens come in the order of their indices. -/
theorem Token.Numbered.pairwise {ts : List Token} (h : Numbered ts) :
    ts.Pairwise (·.index < ·.index) := by
  rw [List.pairwise_iff_getElem]
  intro i j hi hj hlt
  rw [h i _ (List.getElem?_eq_getElem hi), h j _ (List.getElem?_eq_getElem hj)]
  exact hlt

namespace Nesting

variable {n : Nesting} {t : Token} {ts : List Token} {o c : Nat} {b : OpenBracket}
variable {shape : Bracket}

/-- An opening bracket is put on top of the open ones. -/
theorem advance_of_opens (h : t.kind.opens? = some shape) (n : Nesting) :
    n.advance t = (⟨shape, t.index⟩ :: n, none) := by
  rw [advance, h]

/-- A token that is no bracket leaves the nesting as it is. -/
theorem advance_of_neutral (hopens : t.kind.opens? = none) (hcloses : t.kind.closes? = none)
    (n : Nesting) : n.advance t = (n, none) := by
  rw [advance, hopens, hcloses]

/-- A closer pairs with the nearest open bracket of its shape, and those above it are given up. -/
theorem advance_of_closes (h : t.kind.closes? = some shape) {inner outer : Nesting}
    (hinner : ∀ b ∈ inner, b.bracket ≠ shape) :
    advance (inner ++ ⟨shape, o⟩ :: outer) t = (outer, some o) := by
  have hdrop : (inner ++ ⟨shape, o⟩ :: outer).dropWhile (·.bracket != shape) =
      ⟨shape, o⟩ :: outer := by
    rw [List.dropWhile_append_of_pos (by simpa using hinner)]
    simp
  rw [advance, Kind.opens?_of_closes (by rw [h]; rfl), h]
  simp only [close?, hdrop]

/-- A closer that finds no open bracket of its shape changes nothing. -/
theorem advance_of_stray (h : t.kind.closes? = some shape) (hn : ∀ b ∈ n, b.bracket ≠ shape) :
    n.advance t = (n, none) := by
  have hdrop : n.dropWhile (·.bracket != shape) = [] := by simpa using hn
  rw [advance, Kind.opens?_of_closes (by rw [h]; rfl), h]
  simp only [close?, hdrop]

/-- What a token does to the nesting: it opens a bracket, it closes one with all that is open inside
of it, or it leaves the nesting as it is, which a closer does only if it finds no bracket to
close. -/
theorem advance_cases (n : Nesting) (t : Token) :
    (∃ shape, t.kind.opens? = some shape ∧ n.advance t = (⟨shape, t.index⟩ :: n, none)) ∨
    (∃ shape inner o outer, t.kind.closes? = some shape ∧ n = inner ++ ⟨shape, o⟩ :: outer ∧
      n.advance t = (outer, some o)) ∨
    n.advance t = (n, none) := by
  cases hopens : t.kind.opens? with
  | some shape => exact .inl ⟨shape, rfl, advance_of_opens hopens n⟩
  | none =>
      cases hcloses : t.kind.closes? with
      | none => exact .inr (.inr (advance_of_neutral hopens hcloses n))
      | some shape =>
          cases hfind : n.find? (·.bracket == shape) with
          | none =>
              have hn : ∀ b ∈ n, b.bracket ≠ shape := by simpa using List.find?_eq_none.1 hfind
              exact .inr (.inr (advance_of_stray hcloses hn))
          | some opener =>
              obtain ⟨hopener, inner, outer, rfl, hinner⟩ := List.find?_eq_some_iff_append.1 hfind
              obtain rfl : opener.bracket = shape := by simpa using hopener
              exact .inr (.inl ⟨_, inner, opener.index, outer, rfl, rfl,
                advance_of_closes hcloses (by simpa using hinner)⟩)

/-- A bracket that is open behind a token was open in front of it, or the token opens it. -/
theorem mem_advance (h : b ∈ (n.advance t).1) :
    b ∈ n ∨ (b.index = t.index ∧ t.kind.opens? = some b.bracket) := by
  rcases advance_cases n t with ⟨shape, hopens, heq⟩ | ⟨shape, inner, o, outer, -, rfl, heq⟩ | heq
  · rw [heq] at h
    rcases List.mem_cons.1 h with rfl | h
    · exact .inr ⟨rfl, hopens⟩
    · exact .inl h
  · rw [heq] at h
    exact .inl (List.mem_append_right _ (List.mem_cons_of_mem _ h))
  · rw [heq] at h
    exact .inl h

/-- Indices `o` and `c` are those of two brackets of one shape: the first is open in front of the
tokens or one of them opens it, and a token behind it is the second. -/
structure Pair (n : Nesting) (ts : List Token) (shape : Bracket) (o c : Nat) : Prop where
  lt : o < c
  opener : ⟨shape, o⟩ ∈ n ∨ ∃ t ∈ ts, t.index = o ∧ t.kind.opens? = some shape
  closer : ∃ t ∈ ts, t.index = c ∧ t.kind.closes? = some shape

/-- A pair that closes behind a token is a pair in front of it. -/
theorem Pair.cons (h : Pair (n.advance t).1 ts shape o c) : Pair n (t :: ts) shape o c := by
  obtain ⟨hlt, hopener, u, hu, hcloser⟩ := h
  refine ⟨hlt, ?_, u, List.mem_cons_of_mem _ hu, hcloser⟩
  rcases hopener with hb | ⟨v, hv, hopener⟩
  · rcases mem_advance hb with hb | ⟨hindex, hopens⟩
    · exact .inl hb
    · exact .inr ⟨t, List.mem_cons_self, hindex.symm, hopens⟩
  · exact .inr ⟨v, List.mem_cons_of_mem _ hv, hopener⟩

/-- A token that closes no bracket is in no pair as a closer. -/
theorem pairs_cons_none {m : Nesting} (h : n.advance t = (m, none)) :
    pairs n (t :: ts) = pairs m ts := by
  rw [pairs, h]

/-- A token that closes the bracket at index `o` gives the first pair. -/
theorem pairs_cons_some {m : Nesting} (h : n.advance t = (m, some o)) :
    pairs n (t :: ts) = (o, t.index) :: pairs m ts := by
  rw [pairs, h]

/-- The brackets of a pair are an opener and a closer of the same shape behind it. -/
theorem pair_of_mem (hsorted : ts.Pairwise (·.index < ·.index))
    (hn : ∀ b ∈ n, ∀ t ∈ ts, b.index < t.index) (h : (o, c) ∈ pairs n ts) :
    ∃ shape, Pair n ts shape o c := by
  induction ts generalizing n with
  | nil => cases h
  | cons t ts ih =>
      obtain ⟨ht, hts⟩ := List.pairwise_cons.1 hsorted
      have hinner : ∀ b ∈ (n.advance t).1, ∀ u ∈ ts, b.index < u.index := by
        intro b hb u hu
        rcases mem_advance hb with hb | ⟨hindex, -⟩
        · exact hn b hb u (List.mem_cons_of_mem _ hu)
        · exact hindex ▸ ht u hu
      have hlater (h : (o, c) ∈ pairs (n.advance t).1 ts) : ∃ shape, Pair n (t :: ts) shape o c :=
        (ih hts hinner h).imp fun _ => Pair.cons
      rcases advance_cases n t with
        ⟨_, -, heq⟩ | ⟨shape, inner, opener, outer, hcloses, hsplit, heq⟩ | heq
      · rw [pairs_cons_none heq] at h
        exact hlater (by rw [heq]; exact h)
      · rw [pairs_cons_some heq] at h
        rcases List.mem_cons.1 h with hpair | h
        · cases hpair
          have hmem : ⟨shape, o⟩ ∈ n := by simp [hsplit]
          exact ⟨shape, hn _ hmem t List.mem_cons_self, .inl hmem, t, List.mem_cons_self, rfl,
            hcloses⟩
        · exact hlater (by rw [heq]; exact h)
      · rw [pairs_cons_none heq] at h
        exact hlater (by rw [heq]; exact h)

/-- Every token has its nesting. -/
@[simp] theorem length_scan (n : Nesting) (ts : List Token) : (scan n ts).length = ts.length := by
  induction ts generalizing n with
  | nil => rfl
  | cons t ts ih => simp [scan, ih]

end Nesting

namespace Scope

variable {partner : Nat → Option Nat} {following ts : List Token} {sc : Scope} {b i : Nat}

/-- The closers of the scope are partners of brackets, that of the body the partner of a brace among
the tokens behind the declaration. -/
structure Closes (partner : Nat → Option Nat) (following : List Token) (sc : Scope) : Prop where
  paren : ∀ c, sc.parenCloser = some c → ∃ o, partner o = some c
  body : ∀ c, sc.bodyCloser = some c →
    ∃ u ∈ following, u.kind = .openCurly ∧ partner u.index = some c

/-- A scope without brackets has no closers. -/
theorem closes_empty : Closes partner following empty :=
  ⟨by simp [empty], by simp [empty]⟩

/-- A body that is found opens with a brace behind the declaration. -/
theorem functionBody?_eq_some {resume body : Nat}
    (h : functionBody? partner resume following = some body) :
    ∃ u ∈ following, u.kind = .openCurly ∧ u.index = body := by
  fun_induction functionBody? partner resume following with
  | case1 => cases h
  | case2 resume t ts hlt ih =>
      obtain ⟨u, hu, hbody⟩ := ih h
      exact ⟨u, List.mem_cons_of_mem _ hu, hbody⟩
  | case3 => cases h
  | case4 resume t ts hlt hkind =>
      cases h
      exact ⟨t, List.mem_cons_self, hkind, rfl⟩
  | case5 resume t ts hlt hkind ih =>
      obtain ⟨u, hu, hbody⟩ := ih h
      exact ⟨u, List.mem_cons_of_mem _ hu, hbody⟩
  | case6 resume t ts hlt _ _ _ ih =>
      obtain ⟨u, hu, hbody⟩ := ih h
      exact ⟨u, List.mem_cons_of_mem _ hu, hbody⟩

/-- The closers of a function are partners of what it opens. -/
theorem closes_ofFunction : Closes partner following (ofFunction partner following) := by
  unfold ofFunction
  split
  · exact closes_empty
  · next opener hopener =>
      split
      · exact closes_empty
      · next closer hcloser =>
          split
          · next body hbody =>
              obtain ⟨u, hu, hkind, rfl⟩ := functionBody?_eq_some hbody
              exact ⟨fun c hc => ⟨opener, hcloser.trans hc⟩, fun c hc => ⟨u, hu, hkind, hc⟩⟩
          · exact ⟨fun c hc => ⟨opener, hcloser.trans hc⟩, by simp⟩

/-- The closer of a class is the partner of the brace that opens its body. -/
theorem closes_ofClass : Closes partner following (ofClass partner following) := by
  unfold ofClass
  split
  · next t ht =>
      split
      · next hkind =>
          exact ⟨by simp, fun c hc =>
            ⟨t, List.mem_of_find?_eq_some ht, by simpa using hkind, hc⟩⟩
      · exact closes_empty
  · exact closes_empty

/-- A scope belongs to a function or a class-like declaration, and is read from the tokens behind
it. -/
theorem exists_of_mem_scan (h : (i, sc) ∈ scan partner ts) :
    ∃ before t following, ts = before ++ t :: following ∧ t.index = i ∧
      (t.kind.isFunctionLike = true ∧ sc = ofFunction partner following ∨
        t.kind.isClassLike = true ∧ sc = ofClass partner following) := by
  induction ts with
  | nil => cases h
  | cons t ts ih =>
      have hscan : (i, sc) ∈ scan partner ts ∨ t.index = i ∧
          (t.kind.isFunctionLike = true ∧ sc = ofFunction partner ts ∨
            t.kind.isClassLike = true ∧ sc = ofClass partner ts) := by
        rw [scan] at h
        split at h
        · next hfunction =>
            rcases List.mem_cons.1 h with heq | h
            · cases heq
              exact .inr ⟨rfl, .inl ⟨hfunction, rfl⟩⟩
            · exact .inl h
        · split at h
          · next hclass =>
              rcases List.mem_cons.1 h with heq | h
              · cases heq
                exact .inr ⟨rfl, .inr ⟨hclass, rfl⟩⟩
              · exact .inl h
          · exact .inl h
      rcases hscan with h | ⟨hindex, hscope⟩
      · obtain ⟨before, u, following, rfl, rest⟩ := ih h
        exact ⟨t :: before, u, following, rfl, rest⟩
      · exact ⟨[], t, ts, rfl, hindex, hscope⟩

/-- A scope belongs to a token, and closes among the tokens behind it. -/
theorem closes_of_mem_scan (h : (i, sc) ∈ scan partner ts) :
    ∃ before t following, ts = before ++ t :: following ∧ t.index = i ∧
      Closes partner following sc := by
  obtain ⟨before, t, following, heq, hindex, ⟨-, rfl⟩ | ⟨-, rfl⟩⟩ := exists_of_mem_scan h
  · exact ⟨before, t, following, heq, hindex, closes_ofFunction⟩
  · exact ⟨before, t, following, heq, hindex, closes_ofClass⟩

/-! ## The tokens in front of a body -/

/-- A token with a smaller index than another one stands in front of it. -/
theorem mem_front_of_lt {front back : List Token} {t u : Token}
    (hsorted : (front ++ t :: back).Pairwise (·.index < ·.index)) (hu : u ∈ front ++ t :: back)
    (hlt : u.index < t.index) : u ∈ front := by
  rcases List.mem_append.1 hu with hu | hu
  · exact hu
  · rcases List.mem_cons.1 hu with rfl | hu
    · omega
    · have := (List.pairwise_cons.1 (List.pairwise_append.1 hsorted).2.1).1 u hu
      omega

/-- The parentheses of a function are the first ones behind it, and no braces open in front of
them. -/
theorem parameterOpener?_spec {o : Nat} (hsorted : following.Pairwise (·.index < ·.index))
    (h : parameterOpener? following = some o) :
    (∃ t ∈ following, t.index = o ∧ t.kind = .openParenthesis) ∧
      ∀ t ∈ following, t.index < o → t.kind ≠ .openParenthesis ∧ t.kind ≠ .openCurly := by
  unfold parameterOpener? at h
  split at h
  · next t ht =>
      obtain ⟨-, front, back, rfl, hfront⟩ := List.find?_eq_some_iff_append.1 ht
      split at h
      · next hkind =>
          cases h
          refine ⟨⟨t, by simp, rfl, by simpa using hkind⟩, fun u hu hlt => ?_⟩
          have hnone := hfront u (mem_front_of_lt hsorted hu hlt)
          constructor <;> intro hkind <;> simp [hkind] at hnone
      · cases h
  · cases h

/-- A function with a body has a parameter list in front of it. -/
theorem exists_of_bodyOpener (h : (ofFunction partner following).bodyOpener = some b) :
    ∃ o c, parameterOpener? following = some o ∧ partner o = some c ∧
      functionBody? partner (c + 1) following = some b := by
  unfold ofFunction at h
  split at h
  · cases h
  · next o ho =>
      split at h
      · cases h
      · next c hc =>
          split at h
          · next body hbody =>
              cases h
              exact ⟨o, c, ho, hc, hbody⟩
          · cases h

/-- The body of a class-like declaration opens with the first brace behind it. -/
theorem exists_of_bodyOpener_ofClass (h : (ofClass partner following).bodyOpener = some b) :
    ∃ t ∈ following, t.index = b ∧ (following.Pairwise (·.index < ·.index) →
      ∀ u ∈ following, u.index < b → u.kind ≠ .openCurly) := by
  unfold ofClass at h
  split at h
  · next t ht =>
      obtain ⟨-, front, back, rfl, hfront⟩ := List.find?_eq_some_iff_append.1 ht
      split at h
      · cases h
        refine ⟨t, by simp, rfl, fun hsorted u hu hlt hkind => ?_⟩
        have hnone := hfront u (mem_front_of_lt hsorted hu hlt)
        simp [hkind] at hnone
      · cases h
  · cases h

/-- A pair of parentheses stands around the token and is closed in front of the body. -/
def Passed (partner : Nat → Option Nat) (following : List Token) (b : Nat) (t : Token) : Prop :=
  ∃ o ∈ following, o.kind = .openParenthesis ∧ o.index ≤ t.index ∧
    ∃ c, partner o.index = some c ∧ t.index ≤ c ∧ c < b

/-- A token that is passed over is passed over with another token in front of the row, too. -/
theorem Passed.cons {t u : Token} (h : Passed partner following b t) :
    Passed partner (u :: following) b t := by
  obtain ⟨o, ho, hrest⟩ := h
  exact ⟨o, List.mem_cons_of_mem _ ho, hrest⟩

/-- What opens braces or a pair of parentheses between the parameters and the body is passed
over. -/
theorem passed_of_functionBody? {resume : Nat} (hsorted : ts.Pairwise (·.index < ·.index))
    (hpartner : ∀ t ∈ ts, t.kind = .openParenthesis → ∀ c, partner t.index = some c → t.index < c)
    (h : functionBody? partner resume ts = some b) :
    resume ≤ b ∧ ∀ t ∈ ts, resume ≤ t.index → t.index < b →
      t.kind = .openCurly ∨ t.kind = .openParenthesis ∧ (partner t.index).isSome = true →
      Passed partner ts b t := by
  fun_induction functionBody? partner resume ts with
  | case1 => cases h
  | case2 resume t ts hlt ih =>
      obtain ⟨-, hts⟩ := List.pairwise_cons.1 hsorted
      obtain ⟨hle, hpassed⟩ := ih hts (List.forall_mem_cons.1 hpartner).2 h
      refine ⟨hle, List.forall_mem_cons.2 ⟨fun hle => by omega, fun u hu hfrom hto hopens => ?_⟩⟩
      exact (hpassed u hu hfrom hto hopens).cons
  | case3 => cases h
  | case4 resume t ts hlt hkind =>
      cases h
      obtain ⟨ht, -⟩ := List.pairwise_cons.1 hsorted
      refine ⟨by omega, List.forall_mem_cons.2 ⟨fun _ hlt => by omega, fun u hu _ hlt => ?_⟩⟩
      have := ht u hu
      omega
  | case5 resume t ts hlt hkind ih =>
      obtain ⟨ht, hts⟩ := List.pairwise_cons.1 hsorted
      obtain ⟨hfirst, hrest⟩ := List.forall_mem_cons.1 hpartner
      obtain ⟨hle, hpassed⟩ := ih hts hrest h
      cases hc : partner t.index with
      | none =>
          rw [hc] at hle hpassed
          refine ⟨hle, List.forall_mem_cons.2 ⟨fun _ _ hopens => ?_, fun u hu hfrom hto hopens => ?_⟩⟩
          · simp [hkind, hc] at hopens
          · exact (hpassed u hu hfrom hto hopens).cons
      | some c =>
          rw [hc] at hle hpassed
          simp only [Option.elim_some] at hle hpassed
          have htc := hfirst hkind c hc
          -- what stands in front of the partner is passed over with the parentheses
          have hbefore : ∀ u : Token, t.index ≤ u.index → u.index ≤ c →
              Passed partner (t :: ts) b u := fun u hfrom hto =>
            ⟨t, List.mem_cons_self, hkind, hfrom, c, hc, hto, by omega⟩
          refine ⟨by omega, List.forall_mem_cons.2 ⟨fun _ _ _ => hbefore t (Nat.le_refl _) (by omega),
            fun u hu hfrom hto hopens => ?_⟩⟩
          by_cases hinside : u.index ≤ c
          · exact hbefore u (Nat.le_of_lt (ht u hu)) hinside
          · exact (hpassed u hu (by omega) hto hopens).cons
  | case6 resume t ts hlt hsemicolon hcurly hparen ih =>
      obtain ⟨-, hts⟩ := List.pairwise_cons.1 hsorted
      obtain ⟨hle, hpassed⟩ := ih hts (List.forall_mem_cons.1 hpartner).2 h
      refine ⟨hle, List.forall_mem_cons.2 ⟨fun _ _ hopens => ?_, fun u hu hfrom hto hopens => ?_⟩⟩
      · rcases hopens with hopens | ⟨hopens, -⟩
        · exact absurd hopens hcurly
        · exact absurd hopens hparen
      · exact (hpassed u hu hfrom hto hopens).cons

end Scope

namespace Stream

variable {s : Stream} {i j : Nat}

/-- The links that are noted for the tokens lead to tokens of the stream: from a closing bracket
back to its partner, and from a declaration forwards to the end of its body. -/
structure Linked (s : Stream) : Prop where
  size_nestings : s.nestings.size = s.size
  partner_lt : ∀ {i j}, s.partner? i = some j → j < s.size
  lt_of_closes : ∀ {t j}, s.Has t → t.kind.closes?.isSome = true →
    s.partner? t.index = some j → j < t.index
  parenCloser_lt : ∀ {i c}, (s.scope i).parenCloser = some c → c < s.size
  bodyCloser_lt : ∀ {i c}, (s.scope i).bodyCloser = some c → i < c ∧ c < s.size
  owner_lt : ∀ {i d}, s.owner? i = some d → d < s.size

/-- Nothing is noted for a token before the first link is written. -/
theorem join_replicate_ne_some (size i j : Nat) :
    ((Array.replicate size (none : Option Nat))[i]?).join ≠ some j := by
  rw [Array.getElem?_replicate]
  split <;> exact nofun

/-- A partner is the other bracket of a pair. -/
theorem mem_of_partnersOf {size : Nat} {pairs : List (Nat × Nat)}
    (h : ((partnersOf size pairs)[i]?).join = some j) : (i, j) ∈ pairs ∨ (j, i) ∈ pairs := by
  revert h
  unfold partnersOf
  refine List.foldlRecOn pairs _ (motive := fun partners => (partners[i]?).join = some j → _)
    (fun h => absurd h (join_replicate_ne_some size i j)) fun partners ih pair hpair h => ?_
  simp only [Array.getElem?_setIfInBounds] at h
  grind

/-- The owner of a body is a declaration with a scope. -/
theorem mem_of_ownersOf {size d : Nat} {scopes : List (Nat × Scope)}
    (h : ((ownersOf size scopes)[i]?).join = some d) : ∃ sc, (d, sc) ∈ scopes := by
  revert h
  unfold ownersOf
  refine List.foldlRecOn scopes _ (motive := fun owners => (owners[i]?).join = some d → _)
    (fun h => absurd h (join_replicate_ne_some size i d)) fun owners ih scope hscope h => ?_
  split at h
  · simp only [Array.getElem?_setIfInBounds] at h
    grind
  · exact ih h

/-- The tokens of a stream come in the order of their indices. -/
theorem Placed.pairwise_tokens (h : s.Placed) : s.tokens.toList.Pairwise (·.index < ·.index) :=
  Token.Numbered.pairwise fun i t ht => h.index (by simpa [get?] using ht)

/-- The pairs of brackets of a stream. -/
theorem pair_of_partner {ts : List Token} (h : (ofTokens ts).Placed)
    (hpartner : (ofTokens ts).partner? i = some j) :
    ∃ shape, Nesting.Pair [] ts shape i j ∨ Nesting.Pair [] ts shape j i := by
  have hsorted : ts.Pairwise (·.index < ·.index) := by simpa [ofTokens] using h.pairwise_tokens
  rcases mem_of_partnersOf hpartner with hmem | hmem
  · exact (Nesting.pair_of_mem hsorted (by simp) hmem).imp fun _ => .inl
  · exact (Nesting.pair_of_mem hsorted (by simp) hmem).imp fun _ => .inr

/-- The scope at an index is one of those that were scanned, or it is empty. -/
theorem scope_eq_empty_or_mem (s : Stream) (i : Nat) :
    s.scope i = Scope.empty ∨ (i, s.scope i) ∈ s.scopes := by
  unfold scope
  cases hlookup : s.scopes.lookup i with
  | none => exact .inl rfl
  | some sc =>
      obtain ⟨_, _, heq, -⟩ := List.lookup_eq_some_iff.1 hlookup
      exact .inr (by rw [heq]; simp)

/-- A declaration stands in front of what it owns. -/
theorem closes_scope {ts : List Token} (h : (ofTokens ts).Placed) (i : Nat) :
    ∃ following, (∀ u ∈ following, (ofTokens ts).Has u ∧ i < u.index) ∧
      Scope.Closes (ofTokens ts).partner? following ((ofTokens ts).scope i) := by
  rcases (ofTokens ts).scope_eq_empty_or_mem i with hempty | hmem
  · exact ⟨[], by simp, hempty ▸ Scope.closes_empty⟩
  · obtain ⟨before, t, following, heq, rfl, hcloses⟩ := Scope.closes_of_mem_scan hmem
    have hsorted : ts.Pairwise (·.index < ·.index) := by simpa [ofTokens] using h.pairwise_tokens
    refine ⟨following, fun u hu => ⟨(has_iff_mem h).2 ?_, ?_⟩, hcloses⟩
    · have : u ∈ ts := heq ▸ List.mem_append_right _ (List.mem_cons_of_mem _ hu)
      simpa [ofTokens] using this
    · rw [heq] at hsorted
      exact (List.pairwise_cons.1 (List.pairwise_append.1 hsorted).2.1).1 u hu

/-- The brackets, scopes and owners of a stream fit together. -/
theorem linked_ofTokens {ts : List Token} (h : (ofTokens ts).Placed) : (ofTokens ts).Linked := by
  have hhas : ∀ t ∈ ts, (ofTokens ts).Has t := fun t ht =>
    (has_iff_mem h).2 (by simpa [ofTokens] using ht)
  -- a token that opens a bracket and one that closes a bracket are not the same
  have hdiffer : ∀ t u, (ofTokens ts).Has t → (ofTokens ts).Has u → t.index = u.index →
      t.kind.opens?.isSome = true → u.kind.closes?.isSome = true → False := by
    intro t u ht hu hindex hopens hcloses
    rw [ht.eq hu hindex, Kind.opens?_of_closes hcloses] at hopens
    cases hopens
  have hpartner : ∀ {i j}, (ofTokens ts).partner? i = some j → j < (ofTokens ts).size := by
    intro i j hij
    obtain ⟨shape, ⟨-, -, t, ht, rfl, -⟩ | ⟨-, hopener, -⟩⟩ := pair_of_partner h hij
    · exact (hhas t ht).index_lt_size
    · rcases hopener with hb | ⟨t, ht, rfl, -⟩
      · cases hb
      · exact (hhas t ht).index_lt_size
  refine {
    size_nestings := ?size_nestings
    partner_lt := hpartner
    lt_of_closes := ?lt_of_closes
    parenCloser_lt := ?parenCloser_lt
    bodyCloser_lt := ?bodyCloser_lt
    owner_lt := ?owner_lt }
  case size_nestings => simp [ofTokens, size]
  case lt_of_closes =>
    intro t j ht hcloses hj
    obtain ⟨shape, ⟨-, hopener, -⟩ | ⟨hlt, -⟩⟩ := pair_of_partner h hj
    · rcases hopener with hb | ⟨u, hu, hindex, hopens⟩
      · cases hb
      · exact (hdiffer u t (hhas u hu) ht hindex (by rw [hopens]; rfl) hcloses).elim
    · exact hlt
  case parenCloser_lt =>
    intro i c hc
    obtain ⟨_, -, hcloses⟩ := closes_scope h i
    obtain ⟨o, ho⟩ := hcloses.paren c hc
    exact hpartner ho
  case bodyCloser_lt =>
    intro i c hc
    obtain ⟨following, hfollowing, hcloses⟩ := closes_scope h i
    obtain ⟨u, hu, hkind, huc⟩ := hcloses.body c hc
    obtain ⟨huhas, hlt⟩ := hfollowing u hu
    refine ⟨?_, hpartner huc⟩
    obtain ⟨shape, ⟨huc, -⟩ | ⟨-, -, t, ht, hindex, hclose⟩⟩ := pair_of_partner h huc
    · omega
    · have hcloses : t.kind.closes?.isSome = true := by rw [hclose]; rfl
      exact (hdiffer u t huhas (hhas t ht) hindex.symm (by rw [hkind]; rfl) hcloses).elim
  case owner_lt =>
    intro i d hd
    obtain ⟨curly, -, hcurly⟩ := Option.bind_eq_some_iff.1 hd
    obtain ⟨sc, hsc⟩ := mem_of_ownersOf hcurly
    obtain ⟨before, t, following, heq, rfl, -⟩ := Scope.closes_of_mem_scan hsc
    exact (hhas t (heq ▸ by simp)).index_lt_size

/-- The links in the stream of a source text lead to tokens, however many brackets in the text have
no partner. -/
theorem linked_of_tokenize {text : String} (h : tokenize text = .ok s) : s.Linked := by
  obtain ⟨ps, hps, -, -, rfl⟩ := exists_pieces h
  exact linked_ofTokens (placed_ofTokens _)

end Stream

end PhpDoc
