import PhpDoc.Config.Version
import PhpDoc.Proofs.Comment.Group
import PhpDoc.Proofs.Rule.Repair
import PhpDoc.Proofs.Token.Bracket

/-!
# Strict reading

The definitions of the project look for tokens and take what they find. A strict check goes by
indices instead: every index is worked out first and then read, and a read where there is nothing is
a `Fault` that breaks off the whole check. This module has the reads. Each comes with the condition
under which it succeeds and with what it reads then.
-/

namespace PhpDoc

/-- Why a strict check breaks off: an index without a token, a marker without a partner, tags and
ends of different number, a list without the element that is asked for, a search that does not move
on, a padding without a space, or a version that cannot be read again. -/
inductive Fault where
  | outside (index : Int)
  | unpaired (marker : Nat)
  | uneven (tags ends : Nat)
  | absent
  | stuck (index : Nat)
  | narrow (padding : Int)
  | version (cause : VersionError)
  deriving DecidableEq, Repr

namespace Strict

variable {s : Stream} {t : Token} {p : Kind → Bool} {start stop : Nat}

/-! ## Results without a fault -/

section Results

variable {α β ε : Type}

/-- What succeeds hands its result on. -/
@[simp] theorem ok_bind (a : α) (f : α → Except ε β) : (Except.ok a >>= f) = f a := rfl

/-- What succeeds is mapped to a success. -/
@[simp] theorem map_ok (a : α) (f : α → β) : (Except.ok a : Except ε α).map f = .ok (f a) := rfl

/-- A plain result is a success. -/
@[simp] theorem pure_eq_ok (a : α) : (pure a : Except ε α) = .ok a := rfl

/-- A row of steps without a fault has no fault. -/
theorem mapM_eq_ok {f : α → Except ε β} {g : α → β} {xs : List α}
    (h : ∀ x ∈ xs, f x = .ok (g x)) : xs.mapM f = .ok (xs.map g) := by
  induction xs with
  | nil => rfl
  | cons x xs ih =>
      obtain ⟨hx, hxs⟩ := List.forall_mem_cons.1 h
      rw [List.mapM_cons, hx, ih hxs]
      rfl

/-- What is found at the elements of a list, one after the other. -/
def collect (f : α → Except ε (List β)) (xs : List α) : Except ε (List β) :=
  (xs.mapM f).map List.flatten

/-- Results that are collected without a fault are those in a row. -/
theorem collect_eq_ok {f : α → Except ε (List β)} {g : α → List β} {xs : List α}
    (h : ∀ x ∈ xs, f x = .ok (g x)) : collect f xs = .ok (xs.flatMap g) := by
  rw [collect, mapM_eq_ok h, map_ok, List.flatMap_def]

/-- What is found at those elements of a list at which something is found. -/
def collectSome (f : α → Except ε (Option β)) (xs : List α) : Except ε (List β) :=
  (xs.mapM f).map (List.filterMap id)

/-- Results that may be missing are collected without a fault where each step has none. -/
theorem collectSome_eq_ok {f : α → Except ε (Option β)} {g : α → Option β} {xs : List α}
    (h : ∀ x ∈ xs, f x = .ok (g x)) : collectSome f xs = .ok (xs.filterMap g) := by
  rw [collectSome, mapM_eq_ok h, map_ok, List.filterMap_map, Function.id_comp]

end Results

/-! ## Tokens -/

/-- The token at an index. -/
def fetch (s : Stream) : Int → Except Fault Token
  | .ofNat i => (s.get? i).elim (.error (.outside i)) .ok
  | .negSucc i => .error (.outside (.negSucc i))

/-- A read succeeds exactly at the index of a token. -/
theorem fetch_eq_ok (hs : s.Placed) {i : Int} :
    fetch s i = .ok t ↔ s.Has t ∧ (t.index : Int) = i := by
  constructor
  · intro h
    cases i with
    | ofNat i =>
        cases hget : s.get? i with
        | none =>
            simp only [fetch, hget] at h
            cases h
        | some u =>
            simp only [fetch, hget] at h
            cases h
            exact ⟨hs.has_of_get? hget, congrArg Int.ofNat (hs.index hget)⟩
    | negSucc i => cases h
  · rintro ⟨ht, rfl⟩
    have hget : s.get? t.index = some t := ht
    show (s.get? t.index).elim _ _ = _
    rw [hget]
    rfl

/-- A token of the stream is read by its index. -/
theorem fetch_has (ht : s.Has t) : fetch s t.index = .ok t := by
  have hget : s.get? t.index = some t := ht
  show (s.get? t.index).elim _ _ = _
  rw [hget]
  rfl

/-- The tokens with indices from `start` up to, but not including, `stop`. -/
def fetchRange (s : Stream) (start stop : Nat) : Except Fault (List Token) :=
  (List.range' start (stop - start)).mapM fun i : Nat => fetch s i

/-- Every index below the size of the stream has a token. -/
theorem exists_has (hs : s.Placed) {i : Nat} (h : i < s.size) : ∃ t, s.Has t ∧ t.index = i := by
  have hget : s.get? i = some s.tokens[i] := Array.getElem?_eq_getElem h
  exact ⟨_, hs.has_of_get? hget, hs.index hget⟩

/-- A range inside the stream is read without a fault. -/
theorem fetchRange_eq_ok (hs : s.Placed) (h : stop ≤ s.size) :
    fetchRange s start stop = .ok (s.between start stop) := by
  unfold fetchRange
  induction hl : stop - start generalizing start with
  | zero =>
      rw [Stream.between_eq_nil (by omega)]
      rfl
  | succ n ih =>
      obtain ⟨t, ht, rfl⟩ := exists_has hs (i := start) (by omega)
      rw [List.range'_succ, List.mapM_cons, fetch_has ht, ih (by omega),
        Stream.between_cons ht (by omega)]
      rfl

/-- The token in front of index `i`, none at the beginning. -/
def fetchBefore (s : Stream) (i : Nat) : Except Fault (Option Token) :=
  if i = 0 then .ok none else (fetch s ((i : Int) - 1)).map some

/-- The token in front of an index of the stream is read without a fault. -/
theorem fetchBefore_eq_ok (hs : s.Placed) {i : Nat} (h : i ≤ s.size) :
    fetchBefore s i = .ok (s.before? i) := by
  unfold fetchBefore
  split
  · next hzero => rw [hzero]; rfl
  · next hpos =>
      obtain ⟨t, ht, hindex⟩ := exists_has hs (i := i - 1) (by omega)
      rw [(fetch_eq_ok hs).2 ⟨ht, by omega⟩, hs.before?.2 ⟨ht, by omega⟩]
      rfl

/-- The token at index `i`, if it stands in front of `stop` and has the property. -/
def fetchIf (s : Stream) (p : Token → Bool) (i stop : Nat) : Except Fault (Option Token) :=
  if i < stop then (fetch s i).map fun t => if p t then some t else none else .ok none

/-- A token of a class is read without a fault where the range is inside the stream. -/
theorem fetchIf_eq_ok (hs : s.Placed) {p : Token → Bool} {i : Nat} (h : stop ≤ s.size) :
    fetchIf s p i stop = .ok ((s.between i stop).head?.filter p) := by
  unfold fetchIf
  split
  · next hlt =>
      obtain ⟨t, ht, rfl⟩ := exists_has hs (i := i) (by omega)
      rw [fetch_has ht, Stream.between_cons ht hlt, map_ok, List.head?_cons, Option.filter_some]
  · next hle =>
      rw [Stream.between_eq_nil (by omega)]
      rfl

/-! ## Searches -/

/-- The first token from `start` up to, but not including, `stop` whose kind satisfies `p`. The
search goes no further than the stream. -/
def fetchFirst (s : Stream) (p : Kind → Bool) (start stop : Nat) : Except Fault (Option Token) :=
  (fetchRange s start (min stop s.size)).map (·.find? (p ·.kind))

/-- The last token from `start` up to, but not including, `stop` whose kind satisfies `p`. The
search goes no further than the stream. -/
def fetchLast (s : Stream) (p : Kind → Bool) (start stop : Nat) : Except Fault (Option Token) :=
  (fetchRange s start (min stop s.size)).map (·.reverse.find? (p ·.kind))

/-- A range ends with the stream, however far it is said to reach. -/
theorem between_min (s : Stream) (start stop : Nat) :
    s.between start (min stop s.size) = s.between start stop := by
  rcases Nat.le_total stop s.size with hle | hle
  · rw [Nat.min_eq_left hle]
  · have hlength : (s.tokens.toList.drop start).length = s.size - start := by
      rw [List.length_drop, Array.length_toList]
      rfl
    rw [Nat.min_eq_right hle]
    unfold Stream.between
    simp only [Array.toList_extract, List.extract_eq_take_drop]
    rw [List.take_of_length_le (by omega), List.take_of_length_le (by omega)]

/-- The first token of a class is found without a fault. -/
theorem fetchFirst_eq_ok (hs : s.Placed) :
    fetchFirst s p start stop = .ok (s.firstBetween p start stop) := by
  rw [fetchFirst, fetchRange_eq_ok hs (Nat.min_le_right _ _), between_min]
  rfl

/-- The last token of a class is found without a fault. -/
theorem fetchLast_eq_ok (hs : s.Placed) :
    fetchLast s p start stop = .ok (s.lastBetween p start stop) := by
  rw [fetchLast, fetchRange_eq_ok hs (Nat.min_le_right _ _), between_min]
  rfl

/-! ## Lists -/

section Lists

variable {α β : Type}

/-- The element of a list at an index. -/
def element (xs : List α) (i : Nat) : Except Fault α :=
  (xs[i]?).elim (.error .absent) .ok

/-- An element that is there is read without a fault. -/
theorem element_eq_ok {xs : List α} {i : Nat} {x : α} (h : xs[i]? = some x) :
    element xs i = .ok x := by
  rw [element, h]
  rfl

/-- The last element of a list. -/
def lastElement (xs : List α) : Except Fault α :=
  xs.getLast?.elim (.error .absent) .ok

/-- The last element of a list that has one is read without a fault. -/
theorem lastElement_eq_ok {xs : List α} {x : α} (h : xs.getLast? = some x) :
    lastElement xs = .ok x := by
  rw [lastElement, h]
  rfl

/-- The pairs of two lists, which have to be of one length. -/
def zipStrict (xs : List α) (ys : List β) : Except Fault (List (α × β)) :=
  if xs.length = ys.length then .ok (xs.zip ys) else .error (.uneven xs.length ys.length)

/-- Lists of the same length are zipped without a fault. -/
theorem zipStrict_eq_ok {xs : List α} {ys : List β} (h : xs.length = ys.length) :
    zipStrict xs ys = .ok (xs.zip ys) :=
  if_pos h

end Lists

/-! ## Paddings and fixes -/

/-- The padding of an entry in a column, which has to be at least one space. -/
def padding (longest length : Nat) : Except Fault Int :=
  let spaces := requiredPadding longest length
  if 1 ≤ spaces then .ok spaces else .error (.narrow spaces)

/-- The padding behind a text that is not longer than the longest one is no fault. -/
theorem padding_eq_ok {longest length : Nat} (h : length ≤ longest) :
    padding longest length = .ok (requiredPadding longest length) :=
  if_pos (one_le_requiredPadding h)

/-- A finding with the change `change` as its fix, if it has a fix. Nothing is read for it when it
has none. -/
def refix (change : Except Fault Changeset) (v : Violation) : Except Fault Violation :=
  match v.fix with
  | none => .ok v
  | some _ => change.map fun c => { v with fix := some c.edits }

/-- A fix that is computed again without a fault is the fix of the finding. -/
theorem refix_eq_ok {v : Violation} {change : Except Fault Changeset}
    (h : v.FixedBy fun c => change = .ok c) : refix change v = .ok v := by
  unfold refix
  rcases h with hfix | ⟨c, hc, hfix⟩
  · rw [hfix]
  · rw [hfix, hc]
    simp only [map_ok]
    rw [← hfix]

/-- The findings, with the change `change` as the fix of those that have one. -/
def fixing (vs : List Violation) (change : Except Fault Changeset) :
    Except Fault (List Violation) :=
  vs.mapM (refix change)

/-- Fixes that are computed again without a fault are those of the findings. -/
theorem fixing_eq_ok {vs : List Violation} {change : Except Fault Changeset}
    (h : ∀ v ∈ vs, v.FixedBy fun c => change = .ok c) : fixing vs change = .ok vs := by
  have hvs : ∀ v ∈ vs, refix change v = .ok v := fun v hv => refix_eq_ok (h v hv)
  rw [fixing, mapM_eq_ok hvs, List.map_id']

/-- A fix is computed again only where its condition holds. -/
theorem fixing_report {condition : Bool} {family code message : String} {c : Changeset}
    {change : Except Fault Changeset} (h : condition = true → change = .ok c) :
    fixing (report condition (.fixed family code message t c)) change =
      .ok (report condition (.fixed family code message t c)) :=
  fixing_eq_ok fun _ hv => Violation.fixedBy_of_mem_report_fixed hv h

end Strict

end PhpDoc
