import PhpDoc.Proofs.Config.Basic
import PhpDoc.Proofs.Config.Fingerprint
import PhpDoc.Proofs.Text.Case
import Mathlib.Data.List.Perm.Basic

/-!
# The normal form of a configuration

Reading brings settings into a form that reading leaves as it is: the settings of a configuration in
writing are read as that very configuration. And the settings have no order. When the fields are put
into another order, the overrides too, and hyphens and underscores of the keys are exchanged, then
what is read is the same configuration, with the same fingerprint (`ofFields_normal`).
-/

namespace PhpDoc

/-- Under one key, mappings whose entries agree one by one have values that agree. -/
theorem lookup_rel {α β : Type} [DecidableEq α] {R : α → β → β → Prop} {l m : List (α × β)}
    (h : List.Forall₂ (fun f g => f.1 = g.1 ∧ R f.1 f.2 g.2) l m) (key : α) :
    Option.Rel (R key) (l.lookup key) (m.lookup key) := by
  induction h with
  | nil => exact .none
  | @cons f g l m hfield _ ih =>
      obtain ⟨k, v⟩ := f
      obtain ⟨k', w⟩ := g
      obtain ⟨hkey, hvalue⟩ : k = k' ∧ R k v w := hfield
      subst hkey
      rw [List.lookup_cons, List.lookup_cons]
      by_cases hk : key = k
      · subst hk
        simpa using Option.Rel.some hvalue
      · simpa [beq_false_of_ne hk] using ih

namespace Config

variable {fields others : List (String × Value)} {c d : Config} {key : String} {v w : Value}

/-! ## Settings under their keys -/

/-- The fields with their keys as they are looked up. -/
def normalized (fields : List (String × Value)) : List (String × Value) :=
  fields.map fun field => (normalizeKey field.1, field.2)

/-- The keys of settings are in their normal spelling. -/
theorem normalizeKey_of_mem_keys : ∀ key ∈ keys, normalizeKey key = key := by
  decide +kernel

/-- Where no two keys differ only in hyphens and underscores, there is one value to find. -/
theorem setting?_eq_lookup (h : ((normalized fields).map (·.1)).Nodup) (key : String) :
    setting? fields key = (normalized fields).lookup key := by
  -- The last spelling of a key counts, so the search is one in the reversed fields.
  have hreverse : setting? fields key = (normalized fields).reverse.lookup key := by
    unfold setting? normalized
    rw [← List.map_reverse]
    induction fields.reverse with
    | nil => rfl
    | cons field rest ih =>
        rw [List.find?_cons, List.map_cons, List.lookup_cons, ← ih, BEq.comm]
        cases key == normalizeKey field.1 <;> rfl
  rw [hreverse]
  refine (perm_iff_lookup ?_ h).1 (normalized fields).reverse_perm key
  exact ((normalized fields).reverse_perm.map _).nodup_iff.2 h

/-! ## What was read is read again -/

/-- An extension is in lower case and has no dot in front already. -/
theorem extension_extension (text : String) : extension (extension text) = extension text := by
  have hfront : (extension text).toList.dropWhile (· = '.') = (extension text).toList := by
    cases hchars : (extension text).toList with
    | nil => rfl
    | cons first more =>
        refine List.dropWhile_cons_of_neg ?_
        intro hdot
        have hhead : (extension text).toList.head? = some '.' := by
          rw [hchars, of_decide_eq_true hdot]
          rfl
        have hstart := Text.head?_of_head?_lower (by decide) (by decide) hhead
        have hnot := List.head?_dropWhile_not (· = '.') text.toList
        rw [String.toList_ofList] at hstart
        rw [hstart] at hnot
        cases hnot
  calc extension (extension text)
      = Text.lower (String.ofList ((extension text).toList.dropWhile (· = '.'))) := rfl
    _ = Text.lower (extension text) := by rw [hfront, String.ofList_toList]
    _ = extension text := Text.lower_lower _

/-- The settings as the fields of a mapping. -/
def Written.mapping (w : Written) : List (String × Value) :=
  [("minimum_language_version", .text w.version),
   ("extensions", .list (w.extensions.map .text)),
   ("exclude", .list (w.exclude.map .text)),
   ("max_fix_passes", .int w.maxFixPasses),
   ("severity_overrides", .map (w.overrides.map fun (code, action) => (code, .text action)))]

/-- The mapping of settings in writing has all keys of settings. -/
theorem keys_mapping (w : Written) : w.mapping.map (·.1) = keys :=
  rfl

/-- Every field of settings in writing has the key of a setting. -/
theorem mem_keys_of_mem_mapping {w : Written} {field : String × Value} (h : field ∈ w.mapping) :
    field.1 ∈ keys := by
  rw [← keys_mapping w]
  exact List.mem_map_of_mem h

/-- The mapping of settings in writing is in its normal spelling. -/
theorem normalized_mapping (w : Written) : normalized w.mapping = w.mapping := by
  refine List.map_congr_left (g := id) (fun field hfield => ?_) |>.trans (List.map_id _)
  rw [normalizeKey_of_mem_keys _ (mem_keys_of_mem_mapping hfield)]
  rfl

/-- A setting in writing is looked up by its key. -/
theorem setting?_mapping (w : Written) (key : String) :
    setting? w.mapping key = w.mapping.lookup key := by
  have hkeys : ((normalized w.mapping).map (·.1)).Nodup := by
    rw [normalized_mapping, keys_mapping]
    decide
  rw [setting?_eq_lookup hkeys, normalized_mapping]

/-- A list of texts is read as the texts. -/
theorem texts_map_text (key : String) (items : List String) :
    texts key (.list (items.map .text)) = .ok items := by
  have hplain : (items.map Value.text).map (·.plain) = items := by
    rw [List.map_map]
    exact List.map_id _
  rw [texts, hplain]

/-- The overrides are read from the names of their actions. -/
theorem mapM_override_written (c : Config) :
    (c.written.overrides.map fun o => (o.1, Value.text o.2)).mapM override = .ok c.overrides := by
  rw [Result.mapM_eq_ok_iff, written, List.forall₂_map_left_iff, List.forall₂_map_left_iff,
    List.forall₂_same]
  intro o _
  have haction : Action.parse? (Value.text o.2.label).plain = some o.2 := Action.parse?_label o.2
  unfold override
  rw [haction]

/-- The settings of a configuration in writing give the configuration again. -/
theorem Gives.written (h : Gives fields c) : Gives c.written.mapping c where
  known := by
    intro field hfield
    have hkey := mem_keys_of_mem_mapping hfield
    rw [normalizeKey_of_mem_keys _ hkey]
    exact hkey
  version := by
    have htext : versionText c.written.mapping = c.version.text := by
      rw [versionText, setting?_mapping]
      rfl
    rw [htext]
    exact Version.parse_text h.version
  passes := by
    have hpos : ¬ (c.maxFixPasses : Int) < 1 := by
      have hone := h.usable.passes
      omega
    rw [passesOf, setting?_mapping]
    exact if_neg hpos
  extensions := by
    refine ⟨c.extensions, ?_, ?_⟩
    · rw [extensionsOf, setting?_mapping]
      exact texts_map_text "extensions" c.extensions
    · obtain ⟨items, -, hitems⟩ := h.extensions
      rw [hitems, List.map_map]
      exact List.map_congr_left fun text _ => (extension_extension text).symm
  exclude := by
    rw [excludeOf, setting?_mapping]
    exact texts_map_text "exclude" c.exclude
  overrides := by
    rw [overridesOf, setting?_mapping]
    exact mapM_override_written c

/-! ## The order and the spelling of the fields -/

/-- The fields are those of mappings: no two keys differ only in hyphens and underscores, and no two
overrides have the same code. -/
structure Distinct (fields : List (String × Value)) : Prop where
  keys : ((normalized fields).map (·.1)).Nodup
  codes : ∀ overrides, setting? fields "severity_overrides" = some (.map overrides) →
    (overrides.map (·.1)).Nodup

/-- The second value says the same under the key: it is the same value, or has the same overrides in
another order. -/
inductive Restates (key : String) : Value → Value → Prop
  | same (v : Value) : Restates key v v
  | reordered {overrides others : List (String × Value)} (code : key = "severity_overrides")
      (order : overrides.Perm others) : Restates key (.map overrides) (.map others)

/-- The second field says the same as the first one, under a key that differs from its key only in
hyphens and underscores. -/
structure Respells (field other : String × Value) : Prop where
  key : normalizeKey field.1 = normalizeKey other.1
  value : Restates (normalizeKey field.1) field.2 other.2

/-- The other fields say the same as the fields, in some order. -/
def Rearranged (fields others : List (String × Value)) : Prop :=
  ∃ reordered, fields.Perm reordered ∧ List.Forall₂ Respells reordered others

/-- Configurations with the same settings, the overrides being compared as mappings. -/
structure Same (c d : Config) : Prop where
  version : c.version = d.version
  extensions : c.extensions = d.extensions
  exclude : c.exclude = d.exclude
  maxFixPasses : c.maxFixPasses = d.maxFixPasses
  overrides : ∀ code, c.overrides.lookup code = d.overrides.lookup code

/-- Only overrides can be restated in another order; every other value stays what it is. -/
theorem Restates.eq (h : Restates key v w) (hkey : key ≠ "severity_overrides") : v = w := by
  cases h with
  | same => rfl
  | reordered hcode => exact absurd hcode hkey

/-- Rearranged fields have the same keys, as they are looked up. -/
theorem Rearranged.keys_perm (h : Rearranged fields others) :
    ((normalized fields).map (·.1)).Perm ((normalized others).map (·.1)) := by
  obtain ⟨reordered, hperm, hrespells⟩ := h
  have hkeys : (normalized reordered).map (·.1) = (normalized others).map (·.1) := by
    unfold normalized
    rw [List.map_map, List.map_map, ← List.forall₂_eq_eq_eq, List.forall₂_map_left_iff,
      List.forall₂_map_right_iff]
    exact hrespells.imp fun _ _ hfield => hfield.key
  exact hkeys ▸ (hperm.map _).map _

/-- Under every key rearranged fields say the same. -/
theorem Rearranged.setting? (h : Rearranged fields others) (hdistinct : Distinct fields)
    (key : String) :
    Option.Rel (Restates key) (setting? fields key) (Config.setting? others key) := by
  have hothers := h.keys_perm.nodup_iff.1 hdistinct.keys
  obtain ⟨reordered, hperm, hrespells⟩ := h
  have hnormalized : (normalized fields).Perm (normalized reordered) := hperm.map _
  have hreordered := (hnormalized.map _).nodup_iff.1 hdistinct.keys
  rw [setting?_eq_lookup hdistinct.keys, setting?_eq_lookup hothers,
    (perm_iff_lookup hdistinct.keys hreordered).1 hnormalized key]
  refine lookup_rel ?_ key
  unfold normalized
  rw [List.forall₂_map_left_iff, List.forall₂_map_right_iff]
  exact hrespells.imp fun _ _ hfield => ⟨hfield.key, hfield.value⟩

/-- A setting other than the overrides is found as it was. -/
theorem Rearranged.setting?_eq (h : Rearranged fields others) (hdistinct : Distinct fields)
    (hkey : key ≠ "severity_overrides") :
    Config.setting? fields key = Config.setting? others key := by
  have hrel := h.setting? hdistinct key
  generalize Config.setting? fields key = found at hrel ⊢
  generalize Config.setting? others key = found' at hrel ⊢
  cases hrel with
  | none => rfl
  | some hvalue => rw [hvalue.eq hkey]

/-- The codes of the overrides are those of the fields that they are read from. -/
theorem codes_of_mapM_override {o : List (String × Value)} {overrides : List (String × Action)}
    (h : o.mapM override = .ok overrides) : overrides.map (·.1) = o.map (·.1) := by
  have hcodes : List.Forall₂ (fun field entry => field.1 = entry.1) o overrides := by
    refine (Result.mapM_eq_ok_iff.1 h).imp fun field entry hentry => ?_
    unfold override at hentry
    split at hentry
    · cases hentry
      rfl
    · cases hentry
  rw [eq_comm, ← List.forall₂_eq_eq_eq, List.forall₂_map_left_iff, List.forall₂_map_right_iff]
  exact hcodes

/-- The overrides are read in another order. -/
theorem Rearranged.overrides (h : Rearranged fields others) (hdistinct : Distinct fields)
    {overrides : List (String × Action)} (hread : overridesOf fields = .ok overrides) :
    ∃ reordered, overridesOf others = .ok reordered ∧ overrides.Perm reordered := by
  have hrel := h.setting? hdistinct "severity_overrides"
  unfold overridesOf at hread ⊢
  generalize Config.setting? fields "severity_overrides" = found at hread hrel
  generalize Config.setting? others "severity_overrides" = found' at hrel ⊢
  cases hrel with
  | none => exact ⟨overrides, hread, .refl _⟩
  | some hvalue =>
      cases hvalue with
      | same => exact ⟨overrides, hread, .refl _⟩
      | reordered _ horder =>
          obtain ⟨reordered, hreordered, hperm⟩ :=
            List.perm_comp_forall₂ horder.symm (Result.mapM_eq_ok_iff.1 hread)
          exact ⟨reordered, Result.mapM_eq_ok_iff.2 hreordered, hperm.symm⟩

/-- No two overrides that were read have the same code. -/
theorem Distinct.nodup_overrides (h : Distinct fields) {overrides : List (String × Action)}
    (hread : overridesOf fields = .ok overrides) : (overrides.map (·.1)).Nodup := by
  have hcodes := h.codes
  unfold overridesOf severityOverrides at hread
  split at hread
  · cases hread
    exact List.nodup_nil
  · next o hfound =>
      rw [codes_of_mapM_override hread]
      refine hcodes o ?_
      cases hsetting : setting? fields "severity_overrides" with
      | none =>
          rw [hsetting] at hfound
          cases hfound
      | some v =>
          rw [hsetting] at hfound
          rw [← hfound]
          rfl
  · cases hread

/-- Rearranged fields give the same settings, with the overrides as they are read. -/
theorem Rearranged.gives (h : Rearranged fields others) (hdistinct : Distinct fields)
    (hgives : Gives fields c) {overrides : List (String × Action)}
    (hread : overridesOf others = .ok overrides) :
    Gives others { c with overrides := overrides } where
  known := by
    intro field hfield
    have hmem : normalizeKey field.1 ∈ (normalized others).map (·.1) :=
      List.mem_map_of_mem (List.mem_map_of_mem hfield)
    obtain ⟨_, hnormalized, hkey⟩ := List.mem_map.1 (h.keys_perm.mem_iff.2 hmem)
    obtain ⟨original, horiginal, rfl⟩ := List.mem_map.1 hnormalized
    rw [← hkey]
    exact hgives.known original horiginal
  version := by
    rw [versionText, ← h.setting?_eq hdistinct (by decide)]
    exact hgives.version
  passes := by
    rw [passesOf, ← h.setting?_eq hdistinct (by decide)]
    exact hgives.passes
  extensions := by
    rw [extensionsOf, ← h.setting?_eq hdistinct (by decide)]
    exact hgives.extensions
  exclude := by
    rw [excludeOf, ← h.setting?_eq hdistinct (by decide)]
    exact hgives.exclude
  overrides := hread

/-- The order of the overrides leaves the fingerprint as it is. -/
theorem fingerprint_reordered {overrides : List (String × Action)}
    (hnodup : (c.overrides.map (·.1)).Nodup) (horder : c.overrides.Perm overrides) :
    ({ c with overrides := overrides } : Config).fingerprint = c.fingerprint := by
  have hsingle : c.written.Single := by
    unfold Written.Single Config.written
    rw [List.map_map]
    exact hnodup
  let d : Config := { c with overrides := overrides }
  have hsorted : c.written.sortedOverrides = d.written.sortedOverrides :=
    (Written.sortedOverrides_eq_iff hsingle).2 (horder.map _)
  have hcanonical : d.written.canonical = c.written.canonical :=
    Written.canonical_eq_iff.2 ⟨rfl, rfl, rfl, rfl, hsorted.symm⟩
  show d.fingerprint = c.fingerprint
  rw [fingerprint, fingerprint, Written.canonicalText, Written.canonicalText, hcanonical]

/-- Reading has a normal form. A configuration that was read is read again from its own settings
and, where no two fields are for the same setting, from the same fields in any order, with their
overrides in any order and with hyphens for underscores in their keys. -/
theorem ofFields_normal (h : ofFields fields = .ok c) :
    ofFields c.written.mapping = .ok c ∧
      ∀ others, Distinct fields → Rearranged fields others →
        ∃ d, ofFields others = .ok d ∧ d.Same c ∧ d.fingerprint = c.fingerprint := by
  have hgives := ofFields_eq_ok_iff.1 h
  refine ⟨ofFields_eq_ok_iff.2 hgives.written, ?_⟩
  intro others hdistinct hrearranged
  obtain ⟨overrides, hoverrides, horder⟩ := hrearranged.overrides hdistinct hgives.overrides
  have hnodup := hdistinct.nodup_overrides hgives.overrides
  refine ⟨{ c with overrides := overrides },
    ofFields_eq_ok_iff.2 (hrearranged.gives hdistinct hgives hoverrides),
    ⟨rfl, rfl, rfl, rfl, ?_⟩, fingerprint_reordered hnodup horder⟩
  have hread : (overrides.map (·.1)).Nodup := (horder.map _).nodup_iff.1 hnodup
  exact (perm_iff_lookup hread hnodup).1 horder.symm

/-- Fields with a dot and capitals in an extension, a blank in an action and a hyphen in a key are
read as a configuration, and so are the same fields the other way round. -/
theorem ofFields_normal_three_fields :
    let overrides : List (String × Value) :=
      [("Todo", .text "Error "), ("Doc.Missing", .text "ignore")]
    let fields : List (String × Value) :=
      [("extensions", .list [.text ".PHP"]), ("severity-overrides", .map overrides),
       ("max_fix_passes", .int 3)]
    let others : List (String × Value) :=
      [("max-fix-passes", .int 3), ("severity_overrides", .map overrides.reverse),
       ("extensions", .list [.text ".PHP"])]
    let c : Config :=
      ⟨⟨"8.0", 8, 0⟩, ["php"], [], 3, [("Todo", .error), ("Doc.Missing", .ignore)]⟩
    ofFields fields = .ok c ∧ Distinct fields ∧ Rearranged fields others ∧
      ofFields c.written.mapping = .ok c ∧
      ∃ d, ofFields others = .ok d ∧ d.Same c ∧ d.fingerprint = c.fingerprint := by
  intro overrides fields others c
  have hread : ofFields fields = .ok c := by
    have hsome : (ofFields fields).toOption = some c := by decide +kernel
    cases hresult : ofFields fields with
    | error e =>
        rw [hresult] at hsome
        cases hsome
    | ok d =>
        rw [hresult] at hsome
        rw [Option.some.inj hsome]
  have hextensions := normalizeKey_of_mem_keys "extensions" (by decide)
  have hpasses := normalizeKey_of_mem_keys "max_fix_passes" (by decide)
  have hoverrides : normalizeKey "severity-overrides" = "severity_overrides" := by
    decide +kernel
  have hdistinct : Distinct fields := by
    have hnormalized : normalized fields = [("extensions", .list [.text ".PHP"]),
        ("severity_overrides", .map overrides), ("max_fix_passes", .int 3)] := by
      simp only [fields, normalized, List.map_cons, List.map_nil, hextensions, hpasses, hoverrides]
    have hkeys : ((normalized fields).map (·.1)).Nodup := by
      rw [hnormalized]
      decide
    refine ⟨hkeys, fun codes hcodes => ?_⟩
    rw [setting?_eq_lookup hkeys, hnormalized] at hcodes
    have hsame : overrides = codes := Value.map.inj (Option.some.inj hcodes)
    rw [← hsame]
    decide
  have hrearranged : Rearranged fields others := by
    refine ⟨fields.reverse, fields.reverse_perm.symm, ?_⟩
    have hhyphens : normalizeKey "max-fix-passes" = "max_fix_passes" := by decide +kernel
    have hsame := normalizeKey_of_mem_keys "severity_overrides" (by decide)
    refine .cons ⟨hpasses.trans hhyphens.symm, .same _⟩ (.cons ⟨hoverrides.trans hsame.symm, ?_⟩
      (.cons ⟨rfl, .same _⟩ .nil))
    exact .reordered hoverrides overrides.reverse_perm.symm
  obtain ⟨hmapping, hothers⟩ := ofFields_normal hread
  exact ⟨hread, hdistinct, hrearranged, hmapping, hothers others hdistinct hrearranged⟩

end Config

end PhpDoc
