import Mathlib.Data.List.Chain
import PhpDoc.Proofs.Token.Bracket
import PhpDoc.Proofs.Token.Sift

/-!
# Member variables and comments

Whether a token declares a member variable is decided by the code around it alone. The lexemes
between the markers of comments may be left out (`Stream.isProperty_outside`), so two texts that
differ in them only have the same member variables, and white space leads the same markers
(`Lexer.Nested.outsideIndex_succ`).
-/

namespace PhpDoc

open Text Lexer

namespace Lexer

/-- Of two neighbours the one between the markers of a comment stands next to a marker, or next to
another lexeme between the markers. -/
def Enclosed (l m : Lexeme) : Prop :=
  (m.kind.isInner = true → l.kind = .docOpen ∨ l.kind.isInner = true) ∧
    (l.kind.isInner = true → m.kind.isInner = true ∨ m.kind = .docClose)

/-- Lexemes between the markers of comments are enclosed by them. -/
structure Nested (ls : List Lexeme) : Prop where
  head : ∀ l, ls.head? = some l → l.kind.isInner = false
  chain : ls.IsChain Enclosed
  opens : ∀ l ∈ ls, l.kind = .docOpen → l.text = "/**"

/-- Lexemes of code are neighbours of anything but what stands in a comment. -/
theorem enclosed_of_outer {l m : Lexeme} (hl : l.kind.isInner = false)
    (hm : m.kind.isInner = false) : Enclosed l m := by
  constructor
  · intro h
    rw [h] at hm
    cases hm
  · intro h
    rw [h] at hl
    cases hl

/-- A row without tokens of comments needs no markers around any of them. -/
theorem isChain_of_outer {ls : List Lexeme} (h : ∀ l ∈ ls, l.kind.isInner = false) :
    ls.IsChain Enclosed :=
  (List.pairwise_of_forall_mem_list fun _ hl _ hm => enclosed_of_outer (h _ hl) (h _ hm)).isChain

/-- The lexemes of a comment enclose its body. -/
theorem isChain_docComment (body : List Char) : (docComment body).IsChain Enclosed := by
  have hinner : ∀ l ∈ docBody body, l.kind.isInner = true := by
    intro l hl
    rcases kind_of_mem_docBody hl with h | h | h | h <;> rw [h] <;> rfl
  have hclose : ∀ {o : Lexeme} {ls : List Lexeme}, (o.kind = .docOpen ∨ o.kind.isInner = true) →
      (∀ l ∈ ls, l.kind.isInner = true) →
      (o :: ls ++ [⟨.docClose, "*/"⟩] : List Lexeme).IsChain Enclosed := by
    intro o ls ho hls
    induction ls generalizing o with
    | nil =>
        refine .cons_cons ⟨fun h => (by cases h), fun _ => .inr rfl⟩ (.singleton _)
    | cons l ls ih =>
        obtain ⟨hl, hls⟩ := List.forall_mem_cons.1 hls
        exact .cons_cons ⟨fun _ => ho, fun _ => .inl hl⟩ (ih (.inr hl) hls)
  exact hclose (.inl rfl) hinner

/-- The lexemes of a piece start and end outside of comments. -/
theorem Piece.outer_ends {p : Piece} (hp : p.Valid) :
    p.lexemes ≠ [] ∧ (∀ l, p.lexemes.head? = some l → l.kind.isInner = false) ∧
      ∀ l, p.lexemes.getLast? = some l → l.kind.isInner = false := by
  by_cases hdoc : ∃ body, p = .doc body
  · obtain ⟨body, rfl⟩ := hdoc
    refine ⟨by simp [lexemes, docComment], ?_, ?_⟩
    · rintro l ⟨⟩
      rfl
    · intro l hl
      rw [lexemes, docComment, List.getLast?_concat] at hl
      cases hl
      rfl
  · have houter : ∀ l ∈ p.lexemes, l.kind.isInner = false := by
      intro l hl
      have hdoc := Piece.isDoc_of_mem hp (fun body heq => hdoc ⟨body, heq⟩) hl
      cases hkind : l.kind <;> rw [hkind] at hdoc <;> first | rfl | cases hdoc
    refine ⟨fun hnil => ?_, fun l hl => houter l (List.mem_of_head? hl),
      fun l hl => houter l (List.mem_of_getLast? hl)⟩
    cases p with
    | code l => cases hnil
    | space cs =>
        have hlines : cutLines isLineBreak cs = [] := List.map_eq_nil_iff.1 hnil
        have hflat := flatten_cutLines isLineBreak cs
        rw [hlines] at hflat
        exact hp.1 hflat.symm
    | doc body => exact hdoc ⟨body, rfl⟩

/-- In a source text the lexemes between the markers of comments are enclosed by them. -/
theorem nested_lexemesOf {ps : List Piece} (h : ∀ p ∈ ps, p.Valid) : Nested (lexemesOf ps) := by
  induction ps with
  | nil => exact ⟨by simp, .nil, by simp⟩
  | cons p ps ih =>
      obtain ⟨hp, hps⟩ := List.forall_mem_cons.1 h
      obtain ⟨hne, hhead, hlast⟩ := Piece.outer_ends hp
      have hrest := ih hps
      rw [lexemesOf_cons]
      refine ⟨fun l hl => ?_, List.isChain_append.2 ⟨?_, hrest.chain, ?_⟩, fun l hl hkind => ?_⟩
      · rw [List.head?_append_of_ne_nil _ hne] at hl
        exact hhead l hl
      · by_cases hdoc : ∃ body, p = .doc body
        · obtain ⟨body, rfl⟩ := hdoc
          exact isChain_docComment body
        · refine isChain_of_outer fun l hl => ?_
          have hdoc := Piece.isDoc_of_mem hp (fun body heq => hdoc ⟨body, heq⟩) hl
          cases hkind : l.kind <;> rw [hkind] at hdoc <;> first | rfl | cases hdoc
      · intro l hl m hm
        exact enclosed_of_outer (hlast l hl) (hrest.head m hm)
      · rcases List.mem_append.1 hl with hl | hl
        · cases p with
          | code m =>
              rw [List.mem_singleton.1 hl] at hkind
              have hcode := hp.1
              rw [hkind] at hcode
              cases hcode
          | space cs =>
              obtain ⟨line, -, rfl⟩ := List.mem_map.1 hl
              cases hkind
          | doc body =>
              simp only [Piece.lexemes, docComment, List.cons_append, List.mem_cons,
                List.mem_append, List.not_mem_nil, or_false] at hl
              rcases hl with rfl | hl | rfl
              · rfl
              · rcases kind_of_mem_docBody hl with h | h | h | h <;> rw [h] at hkind <;> cases hkind
              · cases hkind
        · exact hrest.opens l hl hkind

/-- Behind everything but an open marker the next lexeme outside of comments follows at once. -/
theorem Nested.outsideIndex_succ {ls : List Lexeme} (h : ls.IsChain Enclosed) {k : Nat}
    {l : Lexeme} (hl : (outside ls)[k]? = some l) (hopen : l.kind ≠ .docOpen) :
    (outside ls)[k + 1]? ≠ none → outsideIndex ls (k + 1) = outsideIndex ls k + 1 := by
  intro hnext
  induction ls generalizing k with
  | nil => cases hl
  | cons x ls ih =>
      have htail : ls.IsChain Enclosed := h.tail
      cases hx : x.kind.isInner with
      | true =>
          rw [outside_inner hx] at hl hnext
          rw [outsideIndex_inner hx, outsideIndex_inner hx, ih htail hl hnext]
      | false =>
          rw [outside_cons hx] at hl hnext
          cases k with
          | zero =>
              rw [List.getElem?_cons_zero, Option.some.injEq] at hl
              rw [Lexer.outsideIndex_succ hx, outsideIndex_zero hx]
              cases ls with
              | nil => exact absurd rfl hnext
              | cons y ls =>
                  have hy : y.kind.isInner = false := by
                    cases hy : y.kind.isInner with
                    | false => rfl
                    | true =>
                        rcases (List.isChain_cons_cons.1 h).1.1 hy with h | h
                        · exact absurd (hl ▸ h) hopen
                        · rw [hx] at h
                          cases h
                  rw [outsideIndex_zero hy]
          | succ k =>
              rw [List.getElem?_cons_succ] at hl hnext
              rw [Lexer.outsideIndex_succ hx, Lexer.outsideIndex_succ hx, ih htail hl hnext]

end Lexer

namespace Stream

variable {ls : List Lexeme} {t u : Token}

/-- The stream of the lexemes. -/
def ofLexemes (ls : List Lexeme) : Stream :=
  ofTokens (Token.place 0 Position.start ls)

/-- The stream of lexemes has them at their indices. -/
theorem get?_ofLexemes (ls : List Lexeme) (i : Nat) :
    ((ofLexemes ls).get? i).map Token.lexeme = ls[i]? := by
  have hmap := Token.map_lexeme_place 0 Position.start ls
  conv => rhs; rw [← hmap]
  rw [List.getElem?_map]
  simp [get?, ofLexemes, ofTokens]

/-- The token of a lexeme. -/
theorem exists_has_ofLexemes {i : Nat} {l : Lexeme} (h : ls[i]? = some l) :
    ∃ t, (ofLexemes ls).Has t ∧ t.index = i ∧ t.lexeme = l := by
  rw [← get?_ofLexemes] at h
  obtain ⟨t, ht, hlexeme⟩ := Option.map_eq_some_iff.1 h
  have hplaced := placed_ofTokens ls
  exact ⟨t, hplaced.has_of_get? ht, hplaced.index ht, hlexeme⟩

/-- A token of the stream of lexemes has the lexeme at its index. -/
theorem Has.getElem?_lexeme (ht : (ofLexemes ls).Has t) : ls[t.index]? = some t.lexeme := by
  rw [← get?_ofLexemes, ht]
  rfl

/-- The token outside of comments by its number among them. -/
theorem exists_has_outside (ht : (ofLexemes ls).Has t) (hkind : t.kind.isInner = false) :
    ∃ u, (ofLexemes (outside ls)).Has u ∧ t.index = outsideIndex ls u.index := by
  obtain ⟨k, hk⟩ := exists_outsideIndex ht.getElem?_lexeme hkind
  have hget := getElem?_outsideIndex ls k
  rw [hk, ht.getElem?_lexeme] at hget
  obtain ⟨u, hu, rfl, -⟩ := exists_has_ofLexemes hget.symm
  exact ⟨u, hu, hk.symm⟩

/-- Each token of the row without comments stands in the whole row. -/
theorem exists_has_of_outside (hu : (ofLexemes (outside ls)).Has u) :
    ∃ t, (ofLexemes ls).Has t ∧ t.index = outsideIndex ls u.index ∧ t.lexeme = u.lexeme := by
  have hget := getElem?_outsideIndex ls u.index
  rw [hu.getElem?_lexeme] at hget
  exact exists_has_ofLexemes hget

/-- The tokens at corresponding indices have the same lexeme. -/
theorem lexeme_eq_of_outside (ht : (ofLexemes ls).Has t) (hu : (ofLexemes (outside ls)).Has u)
    (h : t.index = outsideIndex ls u.index) : t.lexeme = u.lexeme := by
  have hget := getElem?_outsideIndex ls u.index
  rw [hu.getElem?_lexeme, ← h, ht.getElem?_lexeme] at hget
  exact Option.some.inj hget

/-! ## Renumbered streams -/

/-- The row without comments is sifted from the whole row. -/
theorem sift_ofLexemes (ls : List Lexeme) :
    Sift (outsideIndex ls) (Token.place 0 Position.start ls)
      (Token.place 0 Position.start (outside ls)) :=
  sift_place (fun j => by rw [Nat.zero_add, Nat.zero_add]) _ _

/-- The nesting in front of a token of the stream. -/
theorem nesting_of_mem {n : Nesting}
    (h : (t, n) ∈ (Token.place 0 Position.start ls).zip
      (Nesting.scan [] (Token.place 0 Position.start ls))) :
    (ofLexemes ls).nesting t.index = n := by
  obtain ⟨i, hi⟩ := List.mem_iff_getElem?.1 h
  rw [List.getElem?_zip_eq_some] at hi
  have hindex := Token.index_place hi.1
  rw [Nat.zero_add] at hindex
  have hnesting : (ofLexemes ls).nestings[i]? = some n := by
    simpa [ofLexemes, ofTokens] using hi.2
  rw [nesting, hindex, hnesting]
  rfl

/-- The nesting of a token is that in the row without comments, under the indices of the whole row.
-/
theorem nesting_eq (hu : (ofLexemes (outside ls)).Has u) :
    (ofLexemes ls).nesting (outsideIndex ls u.index) =
      ((ofLexemes (outside ls)).nesting u.index).rename (outsideIndex ls) := by
  have hmem : ∃ n, (u, n) ∈ (Token.place 0 Position.start (outside ls)).zip
      (Nesting.scan [] (Token.place 0 Position.start (outside ls))) := by
    have hget : (Token.place 0 Position.start (outside ls))[u.index]? = some u := by
      simpa [Has, get?, ofLexemes, ofTokens] using hu
    have hlt := (List.getElem?_eq_some_iff.1 hget).1
    rw [← Nesting.length_scan []] at hlt
    refine ⟨(Nesting.scan [] (Token.place 0 Position.start (outside ls)))[u.index], ?_⟩
    refine List.mem_of_getElem? (i := u.index) ?_
    exact List.getElem?_zip_eq_some.2 ⟨hget, List.getElem?_eq_getElem hlt⟩
  obtain ⟨n, hn⟩ := hmem
  obtain ⟨t, hindex, ht⟩ := (sift_ofLexemes ls).nesting_mem hn
  rw [nesting_of_mem hn, ← hindex]
  exact nesting_of_mem ht

/-- Partners are those in the row without comments, under the indices of the whole row. -/
theorem renames_partners (ls : List Lexeme) :
    Renames (outsideIndex ls) (ofLexemes ls).partners (ofLexemes (outside ls)).partners := by
  have hpairs := (sift_ofLexemes ls).pairs_eq []
  rw [show Nesting.rename (outsideIndex ls) [] = [] from rfl] at hpairs
  show Renames _ (partnersOf _ (Nesting.pairs [] (Token.place 0 Position.start ls))) _
  rw [hpairs]
  refine renames_partnersOf (strictMono_outsideIndex ls) (fun i => ?_) _
  rw [Token.length_place, Token.length_place]
  exact outsideIndex_lt_iff ls i

/-- Scopes are those in the row without comments, under the indices of the whole row. -/
theorem scopes_eq (ls : List Lexeme) :
    (ofLexemes ls).scopes = (ofLexemes (outside ls)).scopes.map
      (Prod.map (outsideIndex ls) (Scope.rename (outsideIndex ls))) :=
  @Scope.scan_sift _ _ _ (fun i => ((ofLexemes ls).partners[i]?).join)
    (fun i => ((ofLexemes (outside ls)).partners[i]?).join) (strictMono_outsideIndex ls)
    (sift_ofLexemes ls) (renames_partners ls).entry

/-- Owners are those in the row without comments, under the indices of the whole row. -/
theorem renames_owners (ls : List Lexeme) :
    Renames (outsideIndex ls) (ofLexemes ls).owners (ofLexemes (outside ls)).owners := by
  show Renames _ (ownersOf _ (ofLexemes ls).scopes) _
  rw [scopes_eq]
  refine renames_ownersOf (strictMono_outsideIndex ls) (fun i => ?_) _
  rw [Token.length_place, Token.length_place]
  exact outsideIndex_lt_iff ls i

/-- The braces around a token belong to the same declaration. -/
theorem owner?_eq (hu : (ofLexemes (outside ls)).Has u) :
    (ofLexemes ls).owner? (outsideIndex ls u.index) =
      ((ofLexemes (outside ls)).owner? u.index).map (outsideIndex ls) := by
  rw [owner?, owner?, nesting_eq hu, Nesting.curly?_rename]
  cases ((ofLexemes (outside ls)).nesting u.index).curly? with
  | none => rfl
  | some curly => exact (renames_owners ls).entry curly

/-- Whether a token stands in a class can be read off the row without comments. -/
theorem inClass_eq (hu : (ofLexemes (outside ls)).Has u) :
    (ofLexemes ls).inClass (outsideIndex ls u.index) =
      (ofLexemes (outside ls)).inClass u.index := by
  rw [inClass, inClass, owner?_eq hu]
  cases (ofLexemes (outside ls)).owner? u.index with
  | none => rfl
  | some owner =>
      rw [Option.map_some, Option.bind_some, Option.bind_some]
      have hget : ((ofLexemes ls).get? (outsideIndex ls owner)).map Token.lexeme =
          ((ofLexemes (outside ls)).get? owner).map Token.lexeme := by
        rw [get?_ofLexemes, get?_ofLexemes, getElem?_outsideIndex]
      cases hu : (ofLexemes (outside ls)).get? owner with
      | none =>
          rw [hu, Option.map_none, Option.map_eq_none_iff] at hget
          rw [hget]
      | some u =>
          rw [hu] at hget
          obtain ⟨t, ht, heq⟩ := Option.map_eq_some_iff.1 hget
          rw [ht]
          exact congrArg (fun l : Lexeme => l.kind.isClassLike) heq

/-! ## Introductions -/

/-- A modifier stands in front of the index with nothing but a type in between. -/
def Introduced (s : Stream) (i : Nat) : Prop :=
  ∃ v, s.Has v ∧ v.index < i ∧ isPropertyLead v = false ∧
    (v.kind = .modifier ∨ v.kind = .varWord) ∧
    ∀ x, s.Has x → v.index < x.index → x.index < i → isPropertyLead x = true

/-- A variable is introduced when the nearest token that is no lead is a modifier or `var`. -/
theorem Placed.introduced_iff {s : Stream} (hs : s.Placed) (i : Nat) :
    (match (s.between 0 i).reverse.find? (!isPropertyLead ·) with
      | some lead => lead.kind == .modifier || lead.kind == .varWord
      | none => false) = true ↔ s.Introduced i := by
  have hsplit : ∀ {v}, s.Has v → v.index < i → (s.between 0 i).reverse =
      (s.between (v.index + 1) i).reverse ++ v :: (s.between 0 v.index).reverse := by
    intro v hv hlt
    rw [between_split hv (Nat.zero_le _) hlt, List.reverse_append, List.reverse_cons,
      List.append_assoc]
    rfl
  constructor
  · -- behind the token that is found, the search passed tokens that lead up to it only
    intro h
    split at h
    · next v hv =>
        obtain ⟨hhas, -, hlt⟩ :=
          hs.mem_between.1 (List.mem_reverse.1 (List.mem_of_find?_eq_some hv))
        refine ⟨v, hhas, hlt, by simpa using List.find?_some hv, by simpa using h,
          fun x hx hvx hxi => ?_⟩
        rw [hsplit hhas hlt, List.find?_append] at hv
        cases hfind : (s.between (v.index + 1) i).reverse.find? (!isPropertyLead ·) with
        | none =>
            have := List.find?_eq_none.1 hfind x
              (List.mem_reverse.2 (hs.mem_between.2 ⟨hx, hvx, hxi⟩))
            simpa using this
        | some w =>
            rw [hfind, Option.some_or, Option.some.injEq] at hv
            have := (hs.mem_between.1 (List.mem_reverse.1 (List.mem_of_find?_eq_some hfind))).2.1
            rw [hv] at this
            omega
    · cases h
  · rintro ⟨v, hv, hlt, hlead, hkind, hbetween⟩
    have hnone : (s.between (v.index + 1) i).reverse.find? (!isPropertyLead ·) = none := by
      rw [List.find?_eq_none]
      intro x hx
      obtain ⟨hx, hvx, hxi⟩ := hs.mem_between.1 (List.mem_reverse.1 hx)
      simp [hbetween x hx hvx hxi]
    rw [hsplit hv hlt, List.find?_append, hnone, Option.none_or,
      List.find?_cons_of_pos (by simpa using hlead)]
    simpa using hkind

/-- Whether a token may lead a property depends on its lexeme only. -/
theorem isPropertyLead_eq (h : t.lexeme = u.lexeme) : isPropertyLead t = isPropertyLead u := by
  have hkind : t.kind = u.kind := congrArg Lexeme.kind h
  have htext : t.text = u.text := congrArg Lexeme.text h
  simp only [isPropertyLead, Parameter.isTypePart, hkind, htext]

/-- Behind tokens that are no open markers nothing is left out. -/
theorem outsideIndex_add (h : Nested ls) {k d : Nat} (hlt : k + d < (outside ls).length)
    (hopen : ∀ j l, k ≤ j → j < k + d → (outside ls)[j]? = some l → l.kind ≠ .docOpen) :
    outsideIndex ls (k + d) = outsideIndex ls k + d := by
  induction d with
  | zero => rfl
  | succ d ih =>
      have hget := List.getElem?_eq_getElem (l := outside ls) (i := k + d) (by omega)
      have hnext := List.getElem?_eq_getElem (l := outside ls) (i := k + d + 1) (by omega)
      have hstep := Nested.outsideIndex_succ h.chain hget
        (hopen (k + d) _ (Nat.le_add_right _ _) (by omega) hget) (by rw [hnext]; simp)
      rw [← Nat.add_assoc, hstep, ih (by omega) fun j l hj hjd => hopen j l hj (by omega)]
      omega

/-- A token is introduced by the same modifier when what stands in comments is left out. -/
theorem introduced_outside_iff (h : Nested ls) (hu : (ofLexemes (outside ls)).Has u) :
    (ofLexemes ls).Introduced (outsideIndex ls u.index) ↔
      (ofLexemes (outside ls)).Introduced u.index := by
  have he := strictMono_outsideIndex ls
  constructor
  · rintro ⟨v, hv, hlt, hlead, hkind, hbetween⟩
    have houter : v.kind.isInner = false := by
      rcases hkind with h | h <;> rw [h] <;> rfl
    obtain ⟨w, hw, hindex⟩ := exists_has_outside hv houter
    have hlexeme := lexeme_eq_of_outside hv hw hindex
    have hwkind : v.kind = w.kind := congrArg Lexeme.kind hlexeme
    rw [hindex, he.lt_iff_lt] at hlt
    refine ⟨w, hw, hlt, by rw [← isPropertyLead_eq hlexeme, hlead], by rwa [← hwkind],
      fun x hx hwx hxu => ?_⟩
    obtain ⟨y, hy, hyindex, hylexeme⟩ := exists_has_of_outside hx
    rw [← isPropertyLead_eq hylexeme]
    refine hbetween y hy ?_ ?_
    · rw [hindex, hyindex]
      exact he hwx
    · rw [hyindex]
      exact he hxu
  · rintro ⟨w, hw, hlt, hlead, hkind, hbetween⟩
    obtain ⟨v, hv, hindex, hlexeme⟩ := exists_has_of_outside hw
    have hvkind : v.kind = w.kind := congrArg Lexeme.kind hlexeme
    refine ⟨v, hv, by rw [hindex]; exact he hlt, by rw [isPropertyLead_eq hlexeme, hlead],
      by rwa [hvkind], fun y hy hvy hyu => ?_⟩
    -- no comment starts between the modifier and the token, so nothing is left out there
    have hulen : u.index < (outside ls).length := (List.getElem?_eq_some_iff.1 hu.getElem?_lexeme).1
    have hopen : ∀ j l, w.index ≤ j → j < u.index → (outside ls)[j]? = some l →
        l.kind ≠ .docOpen := by
      intro j l hwj hju hj hdoc
      obtain ⟨x, hx, rfl, rfl⟩ := exists_has_ofLexemes hj
      have hdoc : x.kind = .docOpen := hdoc
      rcases Nat.eq_or_lt_of_le hwj with heq | hwx
      · rw [← hw.eq hx heq] at hdoc
        rw [hdoc] at hkind
        rcases hkind with h | h <;> cases h
      · have htext : x.text = "/**" :=
          h.opens x.lexeme (List.mem_of_mem_filter (List.mem_of_getElem? hj)) hdoc
        have := hbetween x hx hwx hju
        simp [isPropertyLead, Parameter.isTypePart, hdoc, htext, Kind.isTrivia] at this
    have hadd : ∀ d, w.index + d ≤ u.index →
        outsideIndex ls (w.index + d) = outsideIndex ls w.index + d := fun d hd =>
      outsideIndex_add h (by omega) fun j l hwj hjd => hopen j l hwj (by omega)
    have hend := hadd (u.index - w.index) (by omega)
    rw [show w.index + (u.index - w.index) = u.index by omega] at hend
    have hmid := hadd (y.index - v.index) (by omega)
    have hget := List.getElem?_eq_getElem (l := outside ls)
      (i := w.index + (y.index - v.index)) (by omega)
    obtain ⟨x, hx, hxindex, -⟩ := exists_has_ofLexemes hget
    have hylexeme := lexeme_eq_of_outside hy hx (by rw [hxindex, hmid]; omega)
    rw [isPropertyLead_eq hylexeme]
    exact hbetween x hx (by omega) (by omega)

/-- A token declares a member variable exactly when it does so without what stands in comments. -/
theorem isProperty_outside (h : Nested ls) (ht : (ofLexemes ls).Has t)
    (hu : (ofLexemes (outside ls)).Has u) (hindex : t.index = outsideIndex ls u.index) :
    (ofLexemes ls).isProperty t = (ofLexemes (outside ls)).isProperty u := by
  have hkind : t.kind = u.kind := congrArg Lexeme.kind (lexeme_eq_of_outside ht hu hindex)
  have hs : (ofLexemes ls).Placed := placed_ofTokens ls
  have hs' : (ofLexemes (outside ls)).Placed := placed_ofTokens (outside ls)
  have hlead := introduced_outside_iff h hu
  rw [← hs.introduced_iff, ← hs'.introduced_iff, ← Bool.eq_iff_iff] at hlead
  unfold isProperty inParentheses
  rw [hindex, nesting_eq hu, Nesting.parentheses_rename, inClass_eq hu, hkind]
  congr 1

/-- Texts that differ between the markers of their comments have the same member variables. -/
theorem isProperty_of_outside_eq {ms : List Lexeme} (hls : Nested ls) (hms : Nested ms)
    (heq : outside ms = outside ls)
    (h : ∀ t, (ofLexemes ls).Has t → (ofLexemes ls).isProperty t = false) :
    ∀ t, (ofLexemes ms).Has t → (ofLexemes ms).isProperty t = false := by
  intro t ht
  cases hkind : t.kind.isInner with
  | true =>
      have hvariable : (t.kind == .variable) = false := by
        cases hk : t.kind <;> rw [hk] at hkind <;> cases hkind <;> rfl
      simp [isProperty, hvariable]
  | false =>
      obtain ⟨u, hu, hindex⟩ := exists_has_outside ht hkind
      rw [isProperty_outside hms ht hu hindex]
      rw [heq] at hu ⊢
      obtain ⟨t', ht', hindex', -⟩ := exists_has_of_outside hu
      rw [← isProperty_outside hls ht' hu hindex', h t' ht']

end Stream

end PhpDoc
