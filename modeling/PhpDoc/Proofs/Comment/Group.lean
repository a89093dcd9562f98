import PhpDoc.Comment.Group
import PhpDoc.Proofs.Comment.Tag
import Mathlib.Data.List.SplitBy

/-!
# Groups of tags

The groups of a block are its tags in order, cut into parts that are not empty. Nothing in a group
is longer than its longest name, so the padding that an entry of a column requires is at least one
space (`one_le_requiredPadding`).
-/

namespace PhpDoc

/-- The maximum of a list is not below any of its numbers. -/
theorem le_foldl_max {ns : List Nat} {n : Nat} (h : n ∈ ns) (m : Nat) : n ≤ ns.foldl max m := by
  have hstart : ∀ (ns : List Nat) (m : Nat), m ≤ ns.foldl max m := by
    intro ns
    induction ns with
    | nil => exact fun _ => Nat.le_refl _
    | cons k ns ih => exact fun m => Nat.le_trans (Nat.le_max_left m k) (ih (max m k))
  induction ns generalizing m with
  | nil => cases h
  | cons k ns ih =>
      rcases List.mem_cons.1 h with rfl | h
      · exact Nat.le_trans (Nat.le_max_right m n) (hstart ns (max m n))
      · exact ih h (max m k)

/-- At least one space stands behind a text that is not longer than the longest one. -/
theorem one_le_requiredPadding {longest length : Nat} (h : length ≤ longest) :
    1 ≤ requiredPadding longest length := by
  unfold requiredPadding
  omega

namespace TagGroup

variable {g : TagGroup} {t : Tag} {m : Misalignment}

/-- No tag name of a group is longer than the longest one. -/
theorem length_name_le_longest (h : t ∈ g.tags) : t.name.length ≤ g.longest :=
  le_foldl_max (List.mem_map_of_mem (f := fun t : Tag => t.name.length) h) 0

/-- A misaligned value has another padding than the required one. -/
theorem misalignment?_eq_some {longest : Nat} :
    misalignment? longest t = some m ↔
      ∃ v, t.value = some v ∧ (t.paddingWidth : Int) ≠ requiredPadding longest t.name.length ∧
        m = ⟨t, v, requiredPadding longest t.name.length, t.paddingWidth⟩ := by
  unfold misalignment? Tag.paddingWidth
  cases t.value with
  | none => simp
  | some v =>
      simp only [Option.some.injEq, exists_eq_left', Option.ite_none_left_eq_some]
      exact and_congr_right fun _ => eq_comm

/-- The misaligned values of a group are those found at its tags. -/
theorem mem_misaligned :
    m ∈ g.misaligned ↔ ∃ t ∈ g.tags, misalignment? g.longest t = some m := by
  rw [misaligned, List.mem_filterMap]

end TagGroup

namespace Block

variable {s : Stream} {b : Block} {g : TagGroup}

/-- A group ends between two tags of which one does not follow the other. -/
theorem map_tags_groups (s : Stream) (b : Block) :
    (b.groups s).map (·.tags) = b.tags.splitBy (follows s) := by
  unfold groups
  rw [List.map_map]
  exact List.zipIdx_map_fst _ _

/-- The groups of a block are numbered in order, from zero. -/
theorem map_number_groups (s : Stream) (b : Block) :
    (b.groups s).map (·.number) = List.range (b.groups s).length := by
  unfold groups
  rw [List.map_map, List.length_map, List.length_zipIdx, List.range_eq_range']
  exact List.zipIdx_map_snd _ _

/-- The groups of a block are its tags in order. -/
theorem flatMap_groups (s : Stream) (b : Block) : (b.groups s).flatMap (·.tags) = b.tags := by
  rw [List.flatMap_def, map_tags_groups, List.flatten_splitBy]

/-- The tags of the groups are tags of the block. -/
theorem mem_tags_of_groups (hg : g ∈ b.groups s) {t : Tag} (ht : t ∈ g.tags) : t ∈ b.tags := by
  rw [← flatMap_groups s b]
  exact List.mem_flatMap.2 ⟨g, hg, ht⟩

/-- Every group has a tag. -/
theorem tags_ne_nil_of_groups (hg : g ∈ b.groups s) : g.tags ≠ [] := by
  unfold groups at hg
  obtain ⟨⟨tags, number⟩, hmem, rfl⟩ := List.mem_map.1 hg
  exact List.ne_nil_of_mem_splitBy (List.fst_mem_of_mem_zipIdx hmem)

/-- The first group of a block starts with the first tag. -/
theorem exists_first_group {t : Tag} {ts : List Tag} (h : b.tags = t :: ts) :
    ∃ g gs, b.groups s = g :: gs ∧ g.tags.head? = some t := by
  have hflat := flatMap_groups s b
  rw [h] at hflat
  cases hgroups : b.groups s with
  | nil =>
      rw [hgroups] at hflat
      cases hflat
  | cons g gs =>
      obtain ⟨u, us, hus⟩ :=
        List.exists_cons_of_ne_nil (tags_ne_nil_of_groups (hgroups ▸ List.mem_cons_self))
      rw [hgroups, List.flatMap_cons, hus] at hflat
      refine ⟨g, gs, rfl, ?_⟩
      rw [hus, List.head?_cons, (List.cons.inj hflat).1]

end Block

end PhpDoc
