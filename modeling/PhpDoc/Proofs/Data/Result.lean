import Mathlib.Data.List.Forall2

/-!
# Results

Of two computations in a row the second is started with the result of the first (`bind_eq_ok_iff`),
and an error is that of the first or that of the second (`bind_eq_error_iff`). The results of the
elements of a list are collected when every element has one (`mapM_eq_ok_iff`). Otherwise there is
the error of the first element that has none (`mapM_eq_error_iff`).
-/

namespace PhpDoc.Result

variable {α β ε : Type} {f : α → Except ε β} {x : α} {xs : List α} {ys : List β} {e : ε}

/-! ## One after the other -/

/-- Two steps succeed exactly when each of them succeeds. -/
theorem bind_eq_ok_iff {r : Except ε α} {b : β} :
    (r >>= f) = .ok b ↔ ∃ a, r = .ok a ∧ f a = .ok b := by
  cases r with
  | error e => exact iff_of_false nofun nofun
  | ok a => exact ⟨fun h => ⟨a, rfl, h⟩, fun ⟨_, ha, h⟩ => by cases ha; exact h⟩

/-- Two steps fail when the first one fails, or when it succeeds and the second one fails. -/
theorem bind_eq_error_iff {r : Except ε α} :
    (r >>= f) = .error e ↔ r = .error e ∨ ∃ a, r = .ok a ∧ f a = .error e := by
  cases r with
  | error e' =>
      exact ⟨fun h => .inl (congrArg _ (Except.error.inj h)), fun h => by
        rcases h with h | ⟨a, ha, -⟩
        · exact congrArg _ (Except.error.inj h)
        · cases ha⟩
  | ok a =>
      constructor
      · exact fun h => .inr ⟨a, rfl, h⟩
      · rintro (h | ⟨a, ha, h⟩)
        · cases h
        · cases ha
          exact h

/-- Rewording the error leaves a result as it is. -/
theorem mapError_eq_ok_iff {ε' : Type} {r : Except ε α} {g : ε → ε'} {a : α} :
    r.mapError g = .ok a ↔ r = .ok a := by
  cases r with
  | error e => exact iff_of_false nofun nofun
  | ok b => simp only [Except.mapError, Except.ok.injEq]

/-- A failure with another cause comes from a failure with the first cause. -/
theorem mapError_eq_error_iff {ε' : Type} {r : Except ε α} {g : ε → ε'} {e' : ε'} :
    r.mapError g = .error e' ↔ ∃ e, r = .error e ∧ g e = e' := by
  cases r with
  | error e => simp only [Except.mapError, Except.error.injEq, exists_eq_left']
  | ok b => exact iff_of_false nofun nofun

/-! ## Collections -/

/-- A row of steps fails where its first step fails. -/
theorem mapM_cons_of_error (h : f x = .error e) (xs : List α) : (x :: xs).mapM f = .error e := by
  rw [List.mapM_cons, h]
  rfl

/-- A first step that succeeds leaves the result to the others. -/
theorem mapM_cons_of_ok {y : β} (h : f x = .ok y) (xs : List α) :
    (x :: xs).mapM f = (xs.mapM f).map (y :: ·) := by
  rw [List.mapM_cons, h]
  cases xs.mapM f <;> rfl

/-- Results are collected exactly when they are the results of the elements. -/
theorem mapM_eq_ok_iff : xs.mapM f = .ok ys ↔ List.Forall₂ (fun x y => f x = .ok y) xs ys := by
  induction xs generalizing ys with
  | nil =>
      rw [List.forall₂_nil_left_iff]
      exact ⟨fun h => by cases h; rfl, fun h => by rw [h]; rfl⟩
  | cons x xs ih =>
      rw [List.forall₂_cons_left_iff]
      cases hx : f x with
      | error e =>
          rw [mapM_cons_of_error hx]
          exact iff_of_false nofun nofun
      | ok y =>
          rw [mapM_cons_of_ok hx]
          constructor
          · intro h
            cases hxs : xs.mapM f with
            | error e =>
                rw [hxs] at h
                cases h
            | ok rest =>
                rw [hxs] at h
                cases h
                exact ⟨y, rest, rfl, ih.1 hxs, rfl⟩
          · rintro ⟨y', rest, hy, hrest, rfl⟩
            cases hy
            rw [ih.2 hrest]
            rfl

/-- The error of a collection is that of the first element without a result. -/
theorem mapM_eq_error_iff : xs.mapM f = .error e ↔
    ∃ front x back, xs = front ++ x :: back ∧ (∀ y ∈ front, ∃ r, f y = .ok r) ∧
      f x = .error e := by
  induction xs with
  | nil => exact iff_of_false nofun fun ⟨front, x, back, h, _⟩ => by simp at h
  | cons x xs ih =>
      cases hx : f x with
      | error e' =>
          rw [mapM_cons_of_error hx]
          constructor
          · rintro h
            cases h
            exact ⟨[], x, xs, rfl, by simp, hx⟩
          · rintro ⟨front, z, back, heq, hfront, hz⟩
            cases front with
            | nil =>
                cases heq
                rw [Except.error.inj (hx.symm.trans hz)]
            | cons y front =>
                cases heq
                obtain ⟨r, hr⟩ := hfront x List.mem_cons_self
                rw [hx] at hr
                cases hr
      | ok y =>
          rw [mapM_cons_of_ok hx]
          constructor
          · intro h
            cases hxs : xs.mapM f with
            | error e' =>
                rw [hxs] at h
                cases h
                obtain ⟨front, z, back, rfl, hfront, hz⟩ := ih.1 hxs
                exact ⟨x :: front, z, back, rfl, List.forall_mem_cons.2 ⟨⟨y, hx⟩, hfront⟩, hz⟩
            | ok rest =>
                rw [hxs] at h
                cases h
          · rintro ⟨front, z, back, heq, hfront, hz⟩
            cases front with
            | nil =>
                cases heq
                rw [hx] at hz
                cases hz
            | cons w front =>
                cases heq
                rw [ih.2 ⟨front, z, back, rfl, (List.forall_mem_cons.1 hfront).2, hz⟩]
                rfl

/-- When every element has a result, the results can be collected. -/
theorem exists_mapM {p : β → Prop} (h : ∀ x ∈ xs, ∃ y, f x = .ok y ∧ p y) :
    ∃ ys, xs.mapM f = .ok ys ∧ ∀ y ∈ ys, p y := by
  induction xs with
  | nil => exact ⟨[], rfl, by simp⟩
  | cons x xs ih =>
      obtain ⟨⟨y, hy, hp⟩, hxs⟩ := List.forall_mem_cons.1 h
      obtain ⟨ys, hys, hps⟩ := ih hxs
      refine ⟨y :: ys, ?_, List.forall_mem_cons.2 ⟨hp, hps⟩⟩
      rw [mapM_cons_of_ok hy, hys]
      rfl

end PhpDoc.Result
