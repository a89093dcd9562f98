import Mathlib.Order.Monotone.Basic
import PhpDoc.Declaration.Property
import PhpDoc.Proofs.Token.Sound

/-!
# What stands outside of comments

Leaving out the lexemes between the markers of doc comments renumbers the others. Nestings, partners
and scopes are found by the tokens that remain, so they are those of the shorter stream under the
renumbering (`Lexer.outsideIndex`), and a token declares a member variable in the one exactly when
it does in the other.
-/

namespace PhpDoc

open Text Lexer

/-- The kinds of the lexemes between the markers of a doc comment. -/
def Kind.isInner (k : Kind) : Bool :=
  k == docStar || k == docBlank || k == docTag || k == docString

namespace Lexer

/-- The lexemes without those between the markers of doc comments. -/
def outside (ls : List Lexeme) : List Lexeme :=
  ls.filter (!·.kind.isInner)

/-- The index at which number `i` of the lexemes outside of comments stands. -/
def outsideIndex : List Lexeme → Nat → Nat
  | [], i => i
  | l :: ls, 0 => if l.kind.isInner then outsideIndex ls 0 + 1 else 0
  | l :: ls, i + 1 =>
      if l.kind.isInner then outsideIndex ls (i + 1) + 1 else outsideIndex ls i + 1

variable {l : Lexeme} {ls : List Lexeme}

/-- A first lexeme inside of a comment moves the others by one. -/
theorem outsideIndex_inner (h : l.kind.isInner = true) (i : Nat) :
    outsideIndex (l :: ls) i = outsideIndex ls i + 1 := by
  cases i <;> simp [outsideIndex, h]

/-- A first lexeme outside of comments keeps its index. -/
theorem outsideIndex_zero (h : l.kind.isInner = false) : outsideIndex (l :: ls) 0 = 0 := by
  simp [outsideIndex, h]

/-- Behind a first lexeme outside of comments the indices go on as in the rest. -/
theorem outsideIndex_succ (h : l.kind.isInner = false) (i : Nat) :
    outsideIndex (l :: ls) (i + 1) = outsideIndex ls i + 1 := by
  simp [outsideIndex, h]

/-- A lexeme inside of a comment is left out. -/
theorem outside_inner (h : l.kind.isInner = true) : outside (l :: ls) = outside ls := by
  simp [outside, h]

/-- A lexeme outside of comments is kept. -/
theorem outside_cons (h : l.kind.isInner = false) : outside (l :: ls) = l :: outside ls := by
  simp [outside, h]

/-- Lexemes outside of comments keep their order. -/
theorem strictMono_outsideIndex (ls : List Lexeme) : StrictMono (outsideIndex ls) := by
  induction ls with
  | nil => exact strictMono_id
  | cons l ls ih =>
      refine strictMono_nat_of_lt_succ fun i => ?_
      cases hl : l.kind.isInner with
      | true =>
          rw [outsideIndex_inner hl, outsideIndex_inner hl]
          exact Nat.succ_lt_succ (ih (Nat.lt_succ_self i))
      | false =>
          rw [outsideIndex_succ hl]
          cases i with
          | zero =>
              rw [outsideIndex_zero hl]
              exact Nat.succ_pos _
          | succ i =>
              rw [outsideIndex_succ hl]
              exact Nat.succ_lt_succ (ih (Nat.lt_succ_self i))

/-- The lexemes outside of comments stand at their indices. -/
theorem getElem?_outsideIndex (ls : List Lexeme) (i : Nat) :
    ls[outsideIndex ls i]? = (outside ls)[i]? := by
  induction ls generalizing i with
  | nil => rfl
  | cons l ls ih =>
      cases hl : l.kind.isInner with
      | true => rw [outsideIndex_inner hl, outside_inner hl, List.getElem?_cons_succ, ih]
      | false =>
          rw [outside_cons hl]
          cases i with
          | zero => rw [outsideIndex_zero hl, List.getElem?_cons_zero, List.getElem?_cons_zero]
          | succ i =>
              rw [outsideIndex_succ hl, List.getElem?_cons_succ, List.getElem?_cons_succ, ih]

/-- Every lexeme outside of comments has a number. -/
theorem exists_outsideIndex {i : Nat} (hi : ls[i]? = some l) (hl : l.kind.isInner = false) :
    ∃ k, outsideIndex ls k = i := by
  induction ls generalizing i with
  | nil => cases hi
  | cons m ls ih =>
      cases hm : m.kind.isInner with
      | true =>
          cases i with
          | zero =>
              rw [List.getElem?_cons_zero, Option.some.injEq] at hi
              rw [hi, hl] at hm
              cases hm
          | succ i =>
              obtain ⟨k, rfl⟩ := ih hi
              exact ⟨k, outsideIndex_inner hm k⟩
      | false =>
          cases i with
          | zero => exact ⟨0, outsideIndex_zero hm⟩
          | succ i =>
              obtain ⟨k, rfl⟩ := ih hi
              exact ⟨k + 1, outsideIndex_succ hm k⟩

/-- An index of the row without comments leads into the whole row, and no other one does. -/
theorem outsideIndex_lt_iff (ls : List Lexeme) (i : Nat) :
    outsideIndex ls i < ls.length ↔ i < (outside ls).length := by
  have h := getElem?_outsideIndex ls i
  rw [← not_iff_not, Nat.not_lt, Nat.not_lt, ← List.getElem?_eq_none_iff, h,
    List.getElem?_eq_none_iff]

end Lexer

/-- The tokens `us` are the tokens `ts` without those between the markers of comments, where the
token `i` is `e i` among the others. -/
inductive Sift (e : Nat → Nat) : List Token → List Token → Prop where
  | nil : Sift e [] []
  | skip {t : Token} {ts us : List Token} (inner : t.kind.isInner = true) (rest : Sift e ts us) :
      Sift e (t :: ts) us
  | keep {t u : Token} {ts us : List Token} (outer : t.kind.isInner = false)
      (lexeme : t.lexeme = u.lexeme) (index : t.index = e u.index) (rest : Sift e ts us) :
      Sift e (t :: ts) (u :: us)

/-- The row without comments is sifted from the whole row, wherever the two start. -/
theorem Lexer.sift_place {ls : List Lexeme} {e : Nat → Nat} {i k : Nat}
    (h : ∀ j, e (k + j) = i + outsideIndex ls j) (p q : Position) :
    Sift e (Token.place i p ls) (Token.place k q (outside ls)) := by
  induction ls generalizing i k p q with
  | nil => exact .nil
  | cons l ls ih =>
      rw [Token.place]
      cases hl : l.kind.isInner with
      | true =>
          rw [outside_inner hl]
          refine .skip hl (ih (fun j => ?_) _ _)
          rw [h, outsideIndex_inner hl]
          omega
      | false =>
          rw [outside_cons hl, Token.place]
          refine .keep hl rfl ?_ (ih (fun j => ?_) _ _)
          · have := h 0
            rw [outsideIndex_zero hl] at this
            exact this.symm
          · have := h (j + 1)
            rw [outsideIndex_succ hl] at this
            rw [show k + 1 + j = k + (j + 1) by omega, this]
            omega

/-! ## Renumbered nestings -/

/-- The bracket at another index. -/
def OpenBracket.rename (e : Nat → Nat) (b : OpenBracket) : OpenBracket :=
  ⟨b.bracket, e b.index⟩

namespace Nesting

variable {e : Nat → Nat} {n : Nesting} {t u : Token}

/-- The nesting with other indices. -/
def rename (e : Nat → Nat) (n : Nesting) : Nesting :=
  n.map (OpenBracket.rename e)

/-- Closing a bracket does not depend on how the open ones are numbered. -/
theorem close?_rename (e : Nat → Nat) (b : Bracket) (n : Nesting) :
    close? b (n.rename e) = (close? b n).map (Prod.map e (rename e)) := by
  unfold close? rename
  rw [List.dropWhile_map]
  have hsame : ((fun x : OpenBracket => x.bracket != b) ∘ OpenBracket.rename e) =
      fun x : OpenBracket => x.bracket != b := rfl
  rw [hsame]
  cases n.dropWhile (·.bracket != b) with
  | nil => rfl
  | cons x n => rfl

/-- A token changes the nesting in the same way under other indices. -/
theorem advance_rename (hlexeme : t.lexeme = u.lexeme) (hindex : t.index = e u.index) :
    advance (n.rename e) t = Prod.map (rename e) (Option.map e) (advance n u) := by
  have hkind : t.kind = u.kind := congrArg Lexeme.kind hlexeme
  unfold advance
  rw [hkind, hindex]
  split
  · rfl
  · rw [close?_rename]
    cases n.close? _ with
    | none => rfl
    | some _ => rfl
  · rfl

/-- What stands in a comment opens and closes nothing. -/
theorem advance_inner (h : t.kind.isInner = true) : advance n t = (n, none) := by
  unfold advance
  cases hkind : t.kind <;> rw [hkind] at h <;> cases h <;> rfl

/-- The innermost brace is the same one under another index. -/
@[simp] theorem curly?_rename (e : Nat → Nat) (n : Nesting) :
    (n.rename e).curly? = n.curly?.map e := by
  unfold curly? rename
  rw [List.find?_map, Option.map_map, Option.map_map]
  rfl

/-- The depth of parentheses does not depend on the indices. -/
@[simp] theorem parentheses_rename (e : Nat → Nat) (n : Nesting) :
    (n.rename e).parentheses = n.parentheses := by
  unfold parentheses rename
  rw [List.countP_map]
  rfl

end Nesting

namespace Sift

variable {e : Nat → Nat} {ts us : List Token}

/-- The pairs of the whole row are those of the row without comments, under other indices. -/
theorem pairs_eq (h : Sift e ts us) (n : Nesting) :
    Nesting.pairs (n.rename e) ts = (Nesting.pairs n us).map (Prod.map e e) := by
  induction h generalizing n with
  | nil => rfl
  | skip inner rest ih =>
      rw [Nesting.pairs, Nesting.advance_inner inner]
      exact ih n
  | @keep t u ts us outer lexeme index rest ih =>
      rw [Nesting.pairs, Nesting.pairs, Nesting.advance_rename lexeme index]
      simp only [Prod.map]
      cases (n.advance u).2 with
      | none => exact ih _
      | some o =>
          simp only [Option.map_some, List.map_cons, ih, index, Prod.map]

/-- The nesting in front of a token. -/
theorem nesting_mem (h : Sift e ts us) {n : Nesting} {u : Token} {m : Nesting}
    (hu : (u, m) ∈ us.zip (Nesting.scan n us)) :
    ∃ t, t.index = e u.index ∧ (t, m.rename e) ∈ ts.zip (Nesting.scan (n.rename e) ts) := by
  induction h generalizing n with
  | nil => cases hu
  | @skip t ts us inner rest ih =>
      obtain ⟨t', hindex, hmem⟩ := ih hu
      refine ⟨t', hindex, ?_⟩
      rw [Nesting.scan, Nesting.advance_inner inner, List.zip_cons_cons]
      exact List.mem_cons_of_mem _ hmem
  | @keep t u' ts us outer lexeme index rest ih =>
      rw [Nesting.scan, List.zip_cons_cons] at hu ⊢
      rw [Nesting.advance_rename lexeme index]
      rcases List.mem_cons.1 hu with heq | hu
      · cases heq
        exact ⟨t, index, List.mem_cons_self⟩
      · obtain ⟨t', hindex, hmem⟩ := ih hu
        exact ⟨t', hindex, List.mem_cons_of_mem _ hmem⟩

/-- What is looked for outside of comments is found there. -/
theorem find?_eq (h : Sift e ts us) {p : Kind → Bool}
    (hp : ∀ k : Kind, k.isInner = true → p k = false) :
    (ts.find? (p ·.kind)).map (fun t => (t.kind, t.index)) =
      (us.find? (p ·.kind)).map (fun u => (u.kind, e u.index)) := by
  induction h with
  | nil => rfl
  | skip inner rest ih =>
      rw [List.find?_cons_of_neg (by simp [hp _ inner])]
      exact ih
  | @keep t u ts us outer lexeme index rest ih =>
      have hkind : t.kind = u.kind := congrArg Lexeme.kind lexeme
      cases hfound : p u.kind with
      | true =>
          rw [List.find?_cons_of_pos (by simpa [hkind] using hfound),
            List.find?_cons_of_pos (by simpa using hfound), Option.map_some, Option.map_some,
            hkind, index]
      | false =>
          rw [List.find?_cons_of_neg (by simp [hkind, hfound]),
            List.find?_cons_of_neg (by simp [hfound])]
          exact ih

end Sift

/-! ## Renumbered scopes -/

namespace Scope

variable {e : Nat → Nat} {ts us : List Token} {partner partner' : Nat → Option Nat}

/-- The scope with other indices. -/
def rename (e : Nat → Nat) (sc : Scope) : Scope :=
  ⟨sc.parenOpener.map e, sc.parenCloser.map e, sc.bodyOpener.map e, sc.bodyCloser.map e⟩

/-- The parameter list opens at the same token. -/
theorem parameterOpener?_sift (h : Sift e ts us) :
    parameterOpener? ts = (parameterOpener? us).map e := by
  have hfind := h.find?_eq (p := fun k => k == .openParenthesis || k == .semicolon ||
    k == .openCurly || k == .closeCurly) (by intro k hk; cases k <;> cases hk <;> rfl)
  unfold parameterOpener?
  cases hu : us.find? fun t => t.kind == .openParenthesis || t.kind == .semicolon ||
      t.kind == .openCurly || t.kind == .closeCurly with
  | none =>
      rw [hu, Option.map_none, Option.map_eq_none_iff] at hfind
      rw [hfind]
      rfl
  | some u =>
      rw [hu] at hfind
      obtain ⟨t, ht, heq⟩ := Option.map_eq_some_iff.1 hfind
      obtain ⟨hkind, hindex⟩ := Prod.mk.inj heq
      rw [ht]
      simp only [hkind, hindex]
      split <;> rfl

/-- The body is found at the same place. The bounds of the search part the same indices. -/
theorem functionBody?_sift (he : StrictMono e) (h : Sift e ts us)
    (hpartner : ∀ i, partner (e i) = (partner' i).map e) {resume resume' : Nat}
    (hresume : ∀ i, e i < resume ↔ i < resume') :
    functionBody? partner resume ts = (functionBody? partner' resume' us).map e := by
  induction h generalizing resume resume' with
  | nil => rfl
  | @skip t ts us inner rest ih =>
      rw [functionBody?]
      have hkeep := ih hresume
      split
      · exact hkeep
      · cases hkind : t.kind <;> rw [hkind] at inner <;> cases inner <;> exact hkeep
  | @keep t u ts us outer lexeme index rest ih =>
      have hkind : t.kind = u.kind := congrArg Lexeme.kind lexeme
      have hiff := hresume u.index
      rw [functionBody?, functionBody?, index, hkind]
      by_cases hlt : u.index < resume'
      · rw [if_pos hlt, if_pos (hiff.2 hlt)]
        exact ih hresume
      · rw [if_neg hlt, if_neg fun h => hlt (hiff.1 h)]
        split
        · rfl
        · rfl
        · -- a parenthesis is passed up to its partner, which is renumbered as well
          refine ih fun i => ?_
          rw [hpartner]
          cases partner' u.index with
          | none => exact hresume i
          | some p =>
              simp only [Option.map_some, Option.elim_some]
              rw [Nat.lt_succ_iff, Nat.lt_succ_iff, he.le_iff_le]
        · exact ih hresume

/-- The scope of a function has the same brackets, under other indices. -/
theorem ofFunction_sift (he : StrictMono e) (h : Sift e ts us)
    (hpartner : ∀ i, partner (e i) = (partner' i).map e) :
    ofFunction partner ts = (ofFunction partner' us).rename e := by
  unfold ofFunction
  rw [parameterOpener?_sift h]
  cases parameterOpener? us with
  | none => rfl
  | some parenOpener =>
      simp only [Option.map_some, hpartner]
      cases partner' parenOpener with
      | none => rfl
      | some parenCloser =>
          have hresume : ∀ i, e i < e parenCloser + 1 ↔ i < parenCloser + 1 := by
            intro i
            rw [Nat.lt_succ_iff, Nat.lt_succ_iff, he.le_iff_le]
          simp only [Option.map_some]
          rw [functionBody?_sift he h hpartner hresume]
          cases functionBody? partner' (parenCloser + 1) us with
          | none => rfl
          | some body =>
              simp only [Option.map_some, hpartner]
              rfl

/-- The scope of a class has the same brackets, under other indices. -/
theorem ofClass_sift (h : Sift e ts us) (hpartner : ∀ i, partner (e i) = (partner' i).map e) :
    ofClass partner ts = (ofClass partner' us).rename e := by
  have hfind := h.find?_eq (p := fun k => k == .openCurly || k == .semicolon)
    (by intro k hk; cases k <;> cases hk <;> rfl)
  unfold ofClass
  cases hu : us.find? fun t => t.kind == .openCurly || t.kind == .semicolon with
  | none =>
      rw [hu, Option.map_none, Option.map_eq_none_iff] at hfind
      rw [hfind]
      rfl
  | some u =>
      rw [hu] at hfind
      obtain ⟨t, ht, heq⟩ := Option.map_eq_some_iff.1 hfind
      obtain ⟨hkind, hindex⟩ := Prod.mk.inj heq
      rw [ht]
      simp only [hkind, hindex, hpartner]
      split <;> rfl

/-- The same declarations are found, under other indices. -/
theorem scan_sift (he : StrictMono e) (h : Sift e ts us)
    (hpartner : ∀ i, partner (e i) = (partner' i).map e) :
    scan partner ts = (scan partner' us).map (Prod.map e (rename e)) := by
  induction h with
  | nil => rfl
  | @skip t ts us inner rest ih =>
      rw [scan]
      cases hkind : t.kind <;> rw [hkind] at inner <;> cases inner <;> exact ih
  | @keep t u ts us outer lexeme index rest ih =>
      have hkind : t.kind = u.kind := congrArg Lexeme.kind lexeme
      rw [scan, scan, hkind, index, ofFunction_sift he rest hpartner, ofClass_sift rest hpartner]
      split
      · rw [ih]
        rfl
      · split
        · rw [ih]
          rfl
        · exact ih

end Scope

namespace Stream

variable {e : Nat → Nat} {as bs : Array (Option Nat)}

/-- The entries of `as` at the new indices are those of `bs`, with new indices. -/
structure Renames (e : Nat → Nat) (as bs : Array (Option Nat)) : Prop where
  lt_iff : ∀ i, e i < as.size ↔ i < bs.size
  entry : ∀ i, (as[e i]?).join = ((bs[i]?).join).map e

/-- Entries at corresponding indices may be exchanged. -/
theorem Renames.set (he : StrictMono e) (h : Renames e as bs) (i : Nat) (entry : Option Nat) :
    Renames e (as.setIfInBounds (e i) (entry.map e)) (bs.setIfInBounds i entry) := by
  refine ⟨fun k => by simpa using h.lt_iff k, fun k => ?_⟩
  rw [Array.getElem?_setIfInBounds, Array.getElem?_setIfInBounds]
  by_cases hk : i = k
  · subst hk
    rw [if_pos rfl, if_pos rfl]
    by_cases hlt : i < bs.size
    · rw [if_pos hlt, if_pos ((h.lt_iff i).2 hlt)]
      rfl
    · rw [if_neg hlt, if_neg fun hin => hlt ((h.lt_iff i).1 hin)]
      rfl
  · rw [if_neg hk, if_neg fun heq => hk (he.injective heq)]
    exact h.entry k

/-- Arrays without entries correspond when their sizes do. -/
theorem renames_replicate {n m : Nat} (h : ∀ i, e i < n ↔ i < m) :
    Renames e (Array.replicate n none) (Array.replicate m none) := by
  refine ⟨fun i => by simpa using h i, fun i => ?_⟩
  rw [Array.getElem?_replicate, Array.getElem?_replicate]
  split <;> split <;> rfl

/-- The partners from pairs correspond to those from pairs under other indices. -/
theorem renames_partnersOf (he : StrictMono e) {n m : Nat} (h : ∀ i, e i < n ↔ i < m)
    (pairs : List (Nat × Nat)) :
    Renames e (partnersOf n (pairs.map (Prod.map e e))) (partnersOf m pairs) := by
  unfold partnersOf
  have hstart := renames_replicate h
  generalize Array.replicate n none = as at hstart ⊢
  generalize Array.replicate m none = bs at hstart ⊢
  induction pairs generalizing as bs with
  | nil => exact hstart
  | cons p pairs ih =>
      rw [List.map_cons, List.foldl_cons, List.foldl_cons]
      exact ih _ _ ((hstart.set he p.1 (some p.2)).set he p.2 (some p.1))

/-- The owners from scopes correspond to those from scopes under other indices. -/
theorem renames_ownersOf (he : StrictMono e) {n m : Nat} (h : ∀ i, e i < n ↔ i < m)
    (scopes : List (Nat × Scope)) :
    Renames e (ownersOf n (scopes.map (Prod.map e (Scope.rename e)))) (ownersOf m scopes) := by
  unfold ownersOf
  have hstart := renames_replicate h
  generalize Array.replicate n none = as at hstart ⊢
  generalize Array.replicate m none = bs at hstart ⊢
  induction scopes generalizing as bs with
  | nil => exact hstart
  | cons sc scopes ih =>
      rw [List.map_cons, List.foldl_cons, List.foldl_cons]
      refine ih _ _ ?_
      cases hbody : sc.2.bodyOpener with
      | none => simpa [Scope.rename, hbody] using hstart
      | some body => simpa [Scope.rename, hbody] using hstart.set he body (some sc.1)

end Stream

end PhpDoc
