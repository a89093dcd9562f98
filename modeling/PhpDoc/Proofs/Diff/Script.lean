import Mathlib.Data.List.Infix
import PhpDoc.Diff.Script

/-!
# Scripts

The search for a shared run goes through the old lines and has for each new line the length of the
longest run of seeds that ends with both (`Exact`). Therefore the run that is found stands in both
lists and no run of seeds is longer, also when it has grown (`best_longest`). So a script takes all
the old lines and puts all the new ones, in their order (`flatMap_old_script`,
`flatMap_new_script`), and a line that one change removes and adds again is none of the seeds
(`mem_commonLines_of_change`).
-/

namespace PhpDoc.Diff

variable {isSeed : String → Bool} {old new seen common : List String} {x y : String}
variable {lengths row : List Nat} {run best : Shared} {m : Nat}

/-- The old lines of a kept piece are its lines. -/
@[simp] theorem Piece.old_keep (kept : List String) : (keep kept).old = kept := rfl

/-- The new lines of a kept piece are its lines. -/
@[simp] theorem Piece.new_keep (kept : List String) : (keep kept).new = kept := rfl

/-- The old lines of a change are those that it removes. -/
@[simp] theorem Piece.old_change (removed added : List String) :
    (change removed added).old = removed := rfl

/-- The new lines of a change are those that it adds. -/
@[simp] theorem Piece.new_change (removed added : List String) :
    (change removed added).new = added := rfl

/-! ## The search for a shared run -/

/-- The run stands in both lists. -/
inductive Stands : List String → List String → Shared → Prop
  | mk (front common back front' back' : List String) :
      Stands (front ++ common ++ back) (front' ++ common ++ back')
        ⟨front.length, front'.length, common.length⟩

/-- Both lists end with the same `m` seeds. -/
def EndAlike (isSeed : String → Bool) (old new : List String) (m : Nat) : Prop :=
  ∃ common : List String, common.length = m ∧ (∀ line ∈ common, isSeed line = true) ∧
    common <:+ old ∧ common <:+ new

/-- All lists end with the same seeds when none are asked for. -/
theorem endAlike_zero : EndAlike isSeed old new 0 :=
  ⟨[], rfl, by simp, List.nil_suffix, List.nil_suffix⟩

/-- Lists end with one more common seed when their last lines are the same seed. -/
theorem endAlike_concat : EndAlike isSeed (old ++ [x]) (new ++ [y]) (m + 1) ↔
    x = y ∧ isSeed x = true ∧ EndAlike isSeed old new m := by
  constructor
  · intro ⟨common, hlength, hseeds, hold, hnew⟩
    obtain ⟨front, z, rfl⟩ := List.eq_nil_or_concat' common |>.resolve_left fun h => by
      simp [h] at hlength
    rw [List.suffix_concat_iff] at hold hnew
    simp only [List.append_eq_nil_iff, List.cons_ne_nil, and_false, false_or] at hold hnew
    obtain ⟨front', h, hold⟩ := hold
    obtain ⟨rfl, rfl⟩ := List.append_singleton_inj.1 h
    obtain ⟨front', h, hnew⟩ := hnew
    obtain ⟨rfl, rfl⟩ := List.append_singleton_inj.1 h
    exact ⟨rfl, hseeds _ (by simp), front, by simpa using hlength,
      fun line hline => hseeds line (by simp [hline]), hold, hnew⟩
  · intro ⟨hxy, hx, front, hlength, hseeds, ⟨before, hold⟩, before', hnew⟩
    subst hxy hold hnew
    refine ⟨front ++ [x], by simp [hlength], fun line hline => ?_, ⟨before, by simp⟩,
      before', by simp⟩
    rcases List.mem_append.1 hline with h | h
    · exact hseeds line h
    · exact List.mem_singleton.1 h ▸ hx

/-- For every place in front of, between and behind the new lines, `lengths` has the number of
seeds with which the lines up to there and the lines `seen` end alike. -/
structure Exact (isSeed : String → Bool) (seen new : List String) (lengths : List Nat) : Prop where
  length_eq : lengths.length = new.length + 1
  endAlike_iff : ∀ j n, lengths[j]? = some n →
    ∀ m, EndAlike isSeed seen (new.take j) m ↔ m ≤ n

/-- In front of the old lines nothing ends alike. -/
theorem exact_nil : Exact isSeed [] new (0 :: List.replicate new.length 0) := by
  refine ⟨by simp, fun j n hn m => ?_⟩
  have hn0 : n = 0 := by
    have hmem : n ∈ 0 :: List.replicate new.length 0 := List.mem_of_getElem? hn
    simp only [List.mem_cons, List.mem_replicate] at hmem
    omega
  subst hn0
  constructor
  · intro ⟨common, hlength, _, hsuffix, _⟩
    have hnil : common = [] := List.suffix_nil.1 hsuffix
    simp [← hlength, hnil]
  · intro hm
    rw [Nat.le_zero.1 hm]
    exact endAlike_zero

/-- One more old line. -/
theorem Exact.next (h : Exact isSeed seen new (0 :: row)) (x : String) :
    Exact isSeed (seen ++ [x]) new (0 :: nextRow isSeed x row new) := by
  have hlength := h.length_eq
  refine ⟨by simp [nextRow] at *; omega, fun j n hn m => ?_⟩
  cases m with
  | zero => simp [endAlike_zero]
  | succ m =>
      cases j with
      | zero =>
          -- no line is in front of the first new one
          have hn0 : n = 0 := by simpa using hn.symm
          subst hn0
          refine iff_of_false ?_ (Nat.not_succ_le_zero m)
          intro ⟨common, hcommon, _, _, hsuffix⟩
          have hnil : common = [] := List.suffix_nil.1 (by simpa using hsuffix)
          simp [hnil] at hcommon
      | succ j =>
          rw [List.getElem?_cons_succ, nextRow, List.getElem?_zipWith_eq_some] at hn
          obtain ⟨d, y, hd, hy, hn⟩ := hn
          have htake : new.take (j + 1) = new.take j ++ [y] := by
            rw [List.take_add_one, hy]
            rfl
          rw [htake, endAlike_concat, h.endAlike_iff j d hd m, ← hn]
          split
          · next hseed =>
              simp only [Bool.and_eq_true, beq_iff_eq] at hseed
              obtain ⟨rfl, hx⟩ := hseed
              simp [hx]
          · next hseed =>
              simp only [Bool.and_eq_true, beq_iff_eq, not_and] at hseed
              refine iff_of_false ?_ (Nat.not_succ_le_zero m)
              intro ⟨hxy, hx, _⟩
              exact hseed hxy (hxy ▸ hx)

/-- The run stands in both lists, and no run of seeds in both is longer. -/
structure Best (isSeed : String → Bool) (old new : List String) (run : Shared) : Prop where
  stands : Stands old new run
  le : ∀ common : List String, (∀ line ∈ common, isSeed line = true) → common <:+: old →
    common <:+: new → common.length ≤ run.length

/-- A fold of the better ones is `best` or comes from one of the lengths, and it is at least as
long as all of them. -/
theorem foldl_better (i : Nat) (entries : List (Nat × Nat)) (best : Shared) :
    let result := entries.foldl (fun best (length, j) =>
      if best.length < length then ⟨i + 1 - length, j + 1 - length, length⟩ else best) best
    (result = best ∨ ∃ entry ∈ entries,
      result = ⟨i + 1 - entry.1, entry.2 + 1 - entry.1, entry.1⟩) ∧
      best.length ≤ result.length ∧ ∀ entry ∈ entries, entry.1 ≤ result.length := by
  induction entries generalizing best with
  | nil => simp
  | cons entry entries ih =>
      obtain ⟨length, j⟩ := entry
      simp only [List.foldl_cons]
      split
      · next hlt =>
          obtain ⟨hfrom, hbest, hall⟩ := ih ⟨i + 1 - length, j + 1 - length, length⟩
          refine ⟨.inr ?_, hlt.le.trans hbest, List.forall_mem_cons.2 ⟨hbest, hall⟩⟩
          rcases hfrom with h | ⟨found, hfound, h⟩
          · exact ⟨(length, j), List.mem_cons_self, h⟩
          · exact ⟨found, List.mem_cons_of_mem _ hfound, h⟩
      · next hle =>
          obtain ⟨hfrom, hbest, hall⟩ := ih best
          refine ⟨?_, hbest, List.forall_mem_cons.2 ⟨(Nat.le_of_not_lt hle).trans hbest, hall⟩⟩
          rcases hfrom with h | ⟨found, hfound, h⟩
          · exact .inl h
          · exact .inr ⟨found, List.mem_cons_of_mem _ hfound, h⟩

/-- The better run is `best` or belongs to one of the lengths, and it is at least as long as each of
these. -/
theorem better_spec (i : Nat) (row : List Nat) (best : Shared) :
    (better i best row = best ∨ ∃ n j, row[j]? = some n ∧
      better i best row = ⟨i + 1 - n, j + 1 - n, n⟩) ∧
      best.length ≤ (better i best row).length ∧ ∀ n ∈ row, n ≤ (better i best row).length := by
  have hfold : (better i best row = best ∨ ∃ entry ∈ row.zipIdx,
      better i best row = ⟨i + 1 - entry.1, entry.2 + 1 - entry.1, entry.1⟩) ∧
      best.length ≤ (better i best row).length ∧
        ∀ entry ∈ row.zipIdx, entry.1 ≤ (better i best row).length :=
    foldl_better i row.zipIdx best
  obtain ⟨hfrom, hbest, hall⟩ := hfold
  refine ⟨hfrom.imp_right ?_, hbest, fun n hn => ?_⟩
  · intro ⟨⟨n, j⟩, hentry, h⟩
    exact ⟨n, j, List.mem_zipIdx_iff_getElem?.1 hentry, h⟩
  · obtain ⟨j, hj⟩ := List.mem_iff_getElem?.1 hn
    exact hall (n, j) (List.mem_zipIdx_iff_getElem?.2 hj)

/-- Lines with which both lists end at a place are a run. -/
theorem stands_of_suffix {j : Nat} (hseen : common <:+ seen) (hnew : common <:+ new.take j)
    (hj : j ≤ new.length) :
    Stands seen new ⟨seen.length - common.length, j - common.length, common.length⟩ := by
  obtain ⟨front, rfl⟩ := hseen
  obtain ⟨front', hfront'⟩ := hnew
  have hsplit : new = front' ++ common ++ new.drop j := by rw [hfront', List.take_append_drop]
  have hlength : front'.length = j - common.length := by
    have := congrArg List.length hfront'
    simp only [List.length_append, List.length_take] at this
    omega
  have hstands := Stands.mk front common [] front' (new.drop j)
  rw [← hsplit, List.append_nil, hlength] at hstands
  simpa using hstands

/-- A run that stands in the old lines stands in them when more lines follow. -/
theorem Stands.append_old (h : Stands old new run) (more : List String) :
    Stands (old ++ more) new run := by
  obtain ⟨front, common, back, front', back'⟩ := h
  rw [List.append_assoc (front ++ common)]
  exact .mk front common (back ++ more) front' back'

/-- The better run after one more old line. -/
theorem Best.step (h : Best isSeed seen new best)
    (hexact : Exact isSeed (seen ++ [x]) new (0 :: row)) :
    Best isSeed (seen ++ [x]) new (better seen.length best row) := by
  obtain ⟨hfrom, hbest, hall⟩ := better_spec seen.length row best
  have hrow : row.length = new.length := by simpa using hexact.length_eq
  constructor
  · rcases hfrom with hfrom | ⟨n, j, hn, hfrom⟩
    · rw [hfrom]
      exact h.stands.append_old [x]
    · rw [hfrom]
      obtain ⟨common, rfl, -, hseen, hnew⟩ := (hexact.endAlike_iff (j + 1) n hn n).2 (Nat.le_refl n)
      have hj : j + 1 ≤ new.length := by
        have hlt : j < row.length := (List.getElem?_eq_some_iff.1 hn).1
        omega
      simpa using stands_of_suffix hseen hnew hj
  · intro common hseeds hseen hnew
    rcases List.infix_concat_iff.1 hseen with hseen | hseen
    · -- the run ends with the new old line, so it is one of the row
      obtain ⟨front, back, hsplit⟩ := hnew
      rcases Nat.eq_zero_or_pos common.length with hzero | hpos
      · omega
      obtain ⟨j, hj⟩ : ∃ j, (front ++ common).length = j + 1 :=
        Nat.exists_eq_succ_of_ne_zero (by rw [List.length_append]; omega)
      have hlt : j < row.length := by
        have hnewLength := congrArg List.length hsplit
        rw [List.length_append] at hnewLength
        omega
      have htake : new.take (j + 1) = front ++ common := by
        rw [← hsplit, ← hj, List.take_left]
      have halike : EndAlike isSeed (seen ++ [x]) (new.take (j + 1)) common.length :=
        ⟨common, rfl, hseeds, hseen, htake ▸ List.suffix_append front common⟩
      have hn : (0 :: row)[j + 1]? = some row[j] := List.getElem?_eq_getElem hlt
      have hle := (hexact.endAlike_iff (j + 1) row[j] hn common.length).1 halike
      exact hle.trans (hall row[j] (List.getElem_mem hlt))
    · exact (h.le common hseeds hseen hnew).trans hbest

/-- The search over the old lines that are left finds a best run. -/
theorem best_longestFrom (hexact : Exact isSeed seen new (0 :: row))
    (hbest : Best isSeed seen new best) (old : List String) :
    Best isSeed (seen ++ old) new (longestFrom isSeed new seen.length row best old) := by
  induction old generalizing seen row best with
  | nil => simpa [longestFrom] using hbest
  | cons x old ih =>
      have hnext := hexact.next x
      have hbetter := hbest.step hnext
      simpa [longestFrom] using ih hnext hbetter

/-! ## The growing of a run -/

/-- Two lists begin with the lines in which they agree. -/
theorem exists_agreement (xs ys : List String) :
    ∃ common xs' ys', xs = common ++ xs' ∧ ys = common ++ ys' ∧
      common.length = agreement xs ys := by
  fun_induction agreement xs ys with
  | case1 x xs y ys hxy ih =>
      obtain ⟨common, xs', ys', rfl, rfl, hlength⟩ := ih
      rw [beq_iff_eq] at hxy
      exact ⟨x :: common, xs', ys', rfl, by simp [hxy], by simp [hlength]⟩
  | case2 x xs y ys hxy => exact ⟨[], _, _, rfl, rfl, rfl⟩
  | case3 => exact ⟨[], _, _, rfl, rfl, rfl⟩

/-- A list is cut where its parts meet. -/
theorem cut_append (front common back : List String) :
    (front ++ common ++ back).take front.length = front ∧
      ((front ++ common ++ back).drop front.length).take common.length = common ∧
      (front ++ common ++ back).drop (front.length + common.length) = back := by
  refine ⟨?_, ?_, ?_⟩
  · rw [List.append_assoc, List.take_left]
  · rw [List.append_assoc, List.drop_left, List.take_left]
  · rw [← List.length_append, List.drop_left]

/-- How far a run grows. -/
theorem grow_append (front common back front' back' : List String) :
    grow (front ++ common ++ back) (front' ++ common ++ back')
      ⟨front.length, front'.length, common.length⟩ =
        ⟨front.length - agreement front.reverse front'.reverse,
          front'.length - agreement front.reverse front'.reverse,
          agreement front.reverse front'.reverse + common.length + agreement back back'⟩ := by
  simp only [grow, cut_append]

/-- A run that stands in both lists still does when it has grown. -/
theorem Stands.grow (h : Stands old new run) :
    Stands old new (grow old new run) ∧ run.length ≤ (Diff.grow old new run).length := by
  obtain ⟨front, common, back, front', back'⟩ := h
  obtain ⟨above, rest, rest', habove, habove', hlength⟩ :=
    exists_agreement front.reverse front'.reverse
  obtain ⟨below, back, back', rfl, rfl, hlengthBelow⟩ := exists_agreement back back'
  have hfront : front = rest.reverse ++ above.reverse := by
    rw [← List.reverse_append, ← habove, List.reverse_reverse]
  have hfront' : front' = rest'.reverse ++ above.reverse := by
    rw [← List.reverse_append, ← habove', List.reverse_reverse]
  rw [grow_append, ← hlength, ← hlengthBelow]
  refine ⟨?_, by simp only; omega⟩
  have hgrown := Stands.mk rest.reverse (above.reverse ++ common ++ below) back rest'.reverse back'
  simpa [hfront, hfront', Nat.add_assoc] using hgrown

/-- The run that two lists are matched at stands in both, and no run of seeds is longer. -/
theorem best_longest (isSeed : String → Bool) (old new : List String) :
    Best isSeed old new (longest isSeed old new) := by
  have hnil : Best isSeed [] new ⟨0, 0, 0⟩ := by
    refine ⟨by simpa using Stands.mk [] [] [] [] new, fun common _ hold _ => ?_⟩
    rw [List.eq_nil_of_infix_nil hold]
    exact Nat.le_refl 0
  have hbest := best_longestFrom exact_nil hnil old
  rw [List.nil_append] at hbest
  obtain ⟨hstands, hle⟩ := hbest.stands.grow
  exact ⟨hstands, fun common hseeds hold hnew => (hbest.le common hseeds hold hnew).trans hle⟩

/-! ## Pieces -/

/-- The pieces make the new lines of the old ones. What is kept on both sides of the run that was
found is kept in the same way, and where no run was found the lists have no seed in common. -/
inductive Makes (isSeed : String → Bool) : List String → List String → List Piece → Prop
  | nil : Makes isSeed [] [] []
  | change {removed added : List String} : (∀ line ∈ removed, line ∈ added → isSeed line = false) →
      Makes isSeed removed added [.change removed added]
  | keep {front common back front' back' : List String} {above below : List Piece} :
      Makes isSeed front front' above → Makes isSeed back back' below →
      Makes isSeed (front ++ common ++ back) (front' ++ common ++ back')
        (above ++ .keep common :: below)

/-- Lists without a common seed are made of each other by one change. -/
theorem makes_changePiece (h : ∀ line ∈ old, line ∈ new → isSeed line = false) :
    Makes isSeed old new (changePiece old new) := by
  rw [changePiece]
  split
  · next hempty =>
      simp only [Bool.and_eq_true, List.isEmpty_iff] at hempty
      obtain ⟨rfl, rfl⟩ := hempty
      exact .nil
  · exact .change h

/-- Without a run of at least one line the lists have no seed in common. -/
theorem Best.not_seed (h : Best isSeed old new run) (hrun : run.length = 0) :
    ∀ line ∈ old, line ∈ new → isSeed line = false := by
  intro line hold hnew
  by_contra hseed
  have hle := h.le [line] (by simpa using hseed) ((List.singleton_infix_iff line old).2 hold)
    ((List.singleton_infix_iff line new).2 hnew)
  rw [List.length_singleton] at hle
  omega

/-- The pieces of two lists make the new one of the old one. -/
theorem makes_pieces (isSeed : String → Bool) (old new : List String) :
    Makes isSeed old new (pieces isSeed old new) := by
  induction hn : old.length using Nat.strongRecOn generalizing old new with
  | _ n ih =>
      have hbest := best_longest isSeed old new
      have hstands := hbest.stands
      rw [pieces]
      generalize longest isSeed old new = run at hbest hstands ⊢
      obtain ⟨front, common, back, front', back'⟩ := hstands
      simp only
      split
      · next hrun =>
          simp only [cut_append]
          refine .keep (ih front.length ?_ _ _ rfl) (ih back.length ?_ _ _ rfl)
          · simp only [List.length_append] at hn
            omega
          · simp only [List.length_append] at hn
            omega
      · next hrun =>
          refine makes_changePiece (hbest.not_seed ?_)
          simp only [List.length_append] at hrun ⊢
          omega

/-- The pieces take exactly the old lines. -/
theorem Makes.flatMap_old {ps : List Piece} (h : Makes isSeed old new ps) :
    ps.flatMap Piece.old = old := by
  induction h with
  | nil => rfl
  | change => simp
  | keep _ _ ihAbove ihBelow => simp [ihAbove, ihBelow]

/-- The pieces put exactly the new lines. -/
theorem Makes.flatMap_new {ps : List Piece} (h : Makes isSeed old new ps) :
    ps.flatMap Piece.new = new := by
  induction h with
  | nil => rfl
  | change => simp
  | keep _ _ ihAbove ihBelow => simp [ihAbove, ihBelow]

/-- A line that is removed and added by one change is no seed. -/
theorem Makes.not_seed_of_change {ps : List Piece} {removed added : List String}
    (h : Makes isSeed old new ps) (hmem : .change removed added ∈ ps) :
    ∀ line ∈ removed, line ∈ added → isSeed line = false := by
  induction h with
  | nil => cases hmem
  | change hseed =>
      cases List.mem_singleton.1 hmem
      exact hseed
  | keep _ _ ihAbove ihBelow =>
      rcases List.mem_append.1 hmem with hmem | hmem
      · exact ihAbove hmem
      · cases hmem with
        | tail _ hmem => exact ihBelow hmem

/-! ## Scripts -/

/-- A kept piece in front of pieces whose kept ones are joined. -/
theorem flatMap_joinKept (f : Piece → List String)
    (hkeep : ∀ lines more, f (.keep (lines ++ more)) = f (.keep lines) ++ f (.keep more))
    (ps : List Piece) : (joinKept ps).flatMap f = ps.flatMap f := by
  fun_induction joinKept ps with
  | case1 => rfl
  | case2 lines rest more others h ih => simp [← ih, h, hkeep]
  | case3 lines rest _ ih => simp [ih]
  | case4 removed added rest ih => simp [ih]

/-- The joining leaves the changes as they are. -/
theorem change_mem_joinKept {ps : List Piece} {removed added : List String} :
    .change removed added ∈ joinKept ps ↔ .change removed added ∈ ps := by
  fun_induction joinKept ps with
  | case1 => rfl
  | case2 lines rest more others h ih => simp [← ih, h]
  | case3 lines rest _ ih => simp [ih]
  | case4 removed' added' rest ih => simp [ih]

/-- A script takes the old lines, in their order. -/
theorem flatMap_old_script (old new : List String) : (script old new).flatMap Piece.old = old := by
  rw [script, flatMap_joinKept Piece.old fun _ _ => rfl]
  exact (makes_pieces _ old new).flatMap_old

/-- A script puts the new lines, in their order. -/
theorem flatMap_new_script (old new : List String) : (script old new).flatMap Piece.new = new := by
  rw [script, flatMap_joinKept Piece.new fun _ _ => rfl]
  exact (makes_pieces _ old new).flatMap_new

/-- Lists without a common line are replaced as a whole. -/
theorem script_of_disjoint (h : ∀ line ∈ old, line ∉ new) :
    script old new = changePiece old new := by
  have hpieces (isSeed : String → Bool) : pieces isSeed old new = changePiece old new := by
    have hstands := (best_longest isSeed old new).stands
    rw [pieces]
    generalize longest isSeed old new = run at hstands ⊢
    obtain ⟨front, common, back, front', back'⟩ := hstands
    have hcommon : common = [] := by
      rw [List.eq_nil_iff_forall_not_mem]
      intro line hline
      exact h line (by simp [hline]) (by simp [hline])
    exact dif_neg (by simp [hcommon])
  simp only [script, hpieces, changePiece]
  split
  · rfl
  · rfl

/-- A line that is removed and added by the same change occurs too often to be a seed. -/
theorem mem_commonLines_of_change {removed added : List String}
    (h : .change removed added ∈ script old new) :
    ∀ line ∈ removed, line ∈ added → line ∈ commonLines new := by
  intro line hremoved hadded
  have hseed := (makes_pieces _ old new).not_seed_of_change (change_mem_joinKept.1 h) line hremoved
    hadded
  simpa using hseed

end PhpDoc.Diff
