import PhpDoc.Config.Basic
import PhpDoc.Proofs.Data.Json
import Mathlib.Data.List.Nodup

/-!
# What a fingerprint stands for

The canonical text of settings is written from them in one order, so the order in which overrides
were written does not matter, and nothing is lost in it: two canonical texts are the same exactly
when the settings are, overrides being compared as a mapping (`Written.canonicalText_eq_iff`).
-/

namespace PhpDoc

/-! ## Mappings as lists -/

section Mapping

variable {α β : Type} [DecidableEq α] {key : α} {value : β} {l m : List (α × β)}

/-- What a mapping has under a key is what stands in it with the key. -/
theorem lookup_eq_some_iff_mem (h : (l.map (·.1)).Nodup) :
    l.lookup key = some value ↔ (key, value) ∈ l := by
  induction l with
  | nil => simp
  | cons entry l ih =>
      obtain ⟨k, v⟩ := entry
      rw [List.map_cons, List.nodup_cons] at h
      rw [List.lookup_cons, List.mem_cons, ← ih h.2]
      by_cases hkey : key = k
      · subst hkey
        have hout : l.lookup key ≠ some value := by
          intro hfound
          exact h.1 (List.mem_map.2 ⟨(key, value), (ih h.2).1 hfound, rfl⟩)
        simp [hout, eq_comm]
      · have hne : (key == k) = false := beq_false_of_ne hkey
        simp [hne, hkey]

/-- Two mappings are the same, apart from the order of their entries, when they have the same under
every key. -/
theorem perm_iff_lookup (hl : (l.map (·.1)).Nodup) (hm : (m.map (·.1)).Nodup) :
    l.Perm m ↔ ∀ key, l.lookup key = m.lookup key := by
  rw [List.perm_ext_iff_of_nodup (.of_map _ hl) (.of_map _ hm)]
  constructor
  · intro h key
    refine Option.ext fun value => ?_
    rw [lookup_eq_some_iff_mem hl, lookup_eq_some_iff_mem hm]
    exact h (key, value)
  · intro h entry
    have hentry := h entry.1
    rw [← lookup_eq_some_iff_mem hl, ← lookup_eq_some_iff_mem hm, hentry]

end Mapping

namespace Config.Written

variable {a b : Written}

/-- No two overrides are for the same rule or family. -/
def Single (w : Written) : Prop :=
  (w.overrides.map (·.1)).Nodup

/-- Whether overrides repeat a rule is found by comparing their rules. -/
instance (w : Written) : Decidable w.Single :=
  inferInstanceAs (Decidable (List.Nodup _))

/-! ## Overrides in order -/

/-- Overrides in order are the same overrides. -/
theorem sortedOverrides_perm (w : Written) : w.sortedOverrides.Perm w.overrides :=
  List.mergeSort_perm _ _

/-- Overrides in order go up by their rules. -/
theorem pairwise_sortedOverrides (w : Written) :
    w.sortedOverrides.Pairwise fun x y => x.1 ≤ y.1 := by
  let le (x y : String × String) : Bool := !decide (y.1 < x.1)
  have hle : ∀ x y, le x y = true ↔ x.1 ≤ y.1 := by
    intro x y
    rw [Bool.not_eq_true', decide_eq_false_iff_not, String.not_lt]
  have htrans : ∀ x y z, le x y = true → le y z = true → le x z = true := by
    intro x y z hxy hyz
    exact (hle x z).2 (String.le_trans ((hle x y).1 hxy) ((hle y z).1 hyz))
  have htotal : ∀ x y, (le x y || le y x) = true := by
    intro x y
    rw [Bool.or_eq_true, hle, hle]
    exact String.le_total x.1 y.1
  exact (List.pairwise_mergeSort htrans htotal w.overrides).imp fun h => (hle _ _).1 h

/-- Overrides are the same in order when they are the same in some order. -/
theorem sortedOverrides_eq_iff (ha : a.Single) :
    a.sortedOverrides = b.sortedOverrides ↔ a.overrides.Perm b.overrides := by
  constructor
  · intro h
    exact a.sortedOverrides_perm.symm.trans (h ▸ b.sortedOverrides_perm)
  · intro h
    have hperm : a.sortedOverrides.Perm b.sortedOverrides :=
      a.sortedOverrides_perm.trans (h.trans b.sortedOverrides_perm.symm)
    refine hperm.eq_of_pairwise ?_ a.pairwise_sortedOverrides b.pairwise_sortedOverrides
    intro x y hx hy hxy hyx
    have hx : x ∈ a.overrides := a.sortedOverrides_perm.mem_iff.1 hx
    have hy : y ∈ a.overrides := h.mem_iff.2 (b.sortedOverrides_perm.mem_iff.1 hy)
    exact List.inj_on_of_nodup_map ha hx hy (String.le_antisymm hxy hyx)

/-! ## The canonical text -/

/-- The canonical value is known by its text. -/
theorem exact_canonical (w : Written) : Json.Exact w.canonical := by
  have htexts : ∀ texts : List String, Json.Exact (.list (texts.map .text)) := by
    intro texts
    refine .list fun v hv => ?_
    obtain ⟨s, -, rfl⟩ := List.mem_map.1 hv
    exact .text s
  have hoverrides : Json.Exact
      (.map (w.sortedOverrides.map fun o => (o.1, .text o.2))) := by
    refine .map fun field hfield => ?_
    obtain ⟨o, -, rfl⟩ := List.mem_map.1 hfield
    exact .text o.2
  refine .map fun field hfield => ?_
  simp only [List.mem_cons, List.not_mem_nil, or_false] at hfield
  obtain rfl | rfl | rfl | rfl | rfl := hfield
  · exact htexts w.exclude
  · exact htexts w.extensions
  · exact .int w.maxFixPasses
  · exact .text w.version
  · exact hoverrides

/-- Settings have the same canonical value exactly when their parts are the same, the overrides in
order. -/
theorem canonical_eq_iff : a.canonical = b.canonical ↔
    a.version = b.version ∧ a.extensions = b.extensions ∧ a.exclude = b.exclude ∧
      a.maxFixPasses = b.maxFixPasses ∧ a.sortedOverrides = b.sortedOverrides := by
  have htext : Function.Injective Value.text := fun s t h => Value.text.inj h
  have hentry : Function.Injective
      fun o : String × String => ((o.1, .text o.2) : String × Value) := by
    intro x y h
    obtain ⟨hcode, haction⟩ := Prod.mk.inj h
    exact Prod.ext hcode (htext haction)
  constructor
  · intro h
    simp only [canonical, Value.map.injEq, List.cons.injEq, Prod.mk.injEq, Value.list.injEq,
      Value.int.injEq, Value.text.injEq, true_and, and_true] at h
    obtain ⟨hexclude, hextensions, hpasses, hversion, hoverrides⟩ := h
    exact ⟨hversion, htext.list_map hextensions, htext.list_map hexclude, hpasses,
      hentry.list_map hoverrides⟩
  · rintro ⟨hversion, hextensions, hexclude, hpasses, hoverrides⟩
    rw [canonical, canonical, hversion, hextensions, hexclude, hpasses, hoverrides]

/-- The canonical text identifies the settings: it is the same for two of them exactly when they
have the same version, extensions, excluded paths and number of passes, and the same action for
every rule and family. -/
theorem canonicalText_eq_iff (ha : a.Single) (hb : b.Single) :
    a.canonicalText = b.canonicalText ↔
      a.version = b.version ∧ a.extensions = b.extensions ∧ a.exclude = b.exclude ∧
        a.maxFixPasses = b.maxFixPasses ∧
        ∀ code, a.overrides.lookup code = b.overrides.lookup code := by
  rw [canonicalText, canonicalText, Json.render_compact_inj a.exact_canonical b.exact_canonical,
    canonical_eq_iff, sortedOverrides_eq_iff ha, perm_iff_lookup ha hb]

/-- Two overrides in either order have one canonical text, and a quote that moves from the end of an
excluded path to the start of the next one makes another. -/
theorem canonicalText_eq_two_overrides :
    let first : Written := ⟨"7.4", ["php"], ["a\"", "b"], 3, [("Todo", "error"), ("Doc", "ignore")]⟩
    let swapped : Written := { first with overrides := [("Doc", "ignore"), ("Todo", "error")] }
    let moved : Written := { first with exclude := ["a", "\"b"] }
    first.Single ∧ swapped.Single ∧ moved.Single ∧
      first.canonicalText = swapped.canonicalText ∧ first.canonicalText ≠ moved.canonicalText := by
  intro first swapped moved
  have hfirst : first.Single := by decide
  have hswapped : swapped.Single := by decide
  have hmoved : moved.Single := by decide
  have hsame : first.overrides.Perm swapped.overrides := .swap _ _ _
  refine ⟨hfirst, hswapped, hmoved, ?_, ?_⟩
  · refine (canonicalText_eq_iff hfirst hswapped).2 ⟨rfl, rfl, rfl, rfl, ?_⟩
    exact (perm_iff_lookup hfirst hswapped).1 hsame
  · intro h
    have hexclude := ((canonicalText_eq_iff hfirst hmoved).1 h).2.2.1
    revert hexclude
    decide

end Config.Written

end PhpDoc
