import PhpDoc.Policy.Basic
import PhpDoc.Problem.Failure
import PhpDoc.Proofs.Config.Version
import PhpDoc.Proofs.Data.Result
import PhpDoc.Proofs.Policy.Engine

/-!
# Reading configurations

A mapping is read setting by setting (`ofFields_eq_ok_iff`), and a configuration that was read can
be used: its version is read again from its text, and its actions from their names. A mapping that
is refused is refused as an invalid configuration, with a message, but for one case: where the
numbers of the version cannot be read there is no message (`ofFields_answers_iff`).
-/

namespace PhpDoc

namespace Action

/-- An action is found under its own name. -/
theorem parse?_label (action : Action) : parse? action.label = some action := by
  cases action <;> decide +kernel

end Action

namespace Config

variable {fields : List (String × Value)} {c : Config} {e : ConfigError}

/-! ## The settings of a mapping -/

/-- The text that gives the version. -/
def versionText (fields : List (String × Value)) : String :=
  (setting? fields "minimum_language_version").elim "8.0" (·.plain)

/-- The result for the number of passes. -/
def passesOf (fields : List (String × Value)) : Except ConfigError Nat :=
  (setting? fields "max_fix_passes").elim (.ok 50) passes

/-- The result for the extensions, as they are written. -/
def extensionsOf (fields : List (String × Value)) : Except ConfigError (List String) :=
  (setting? fields "extensions").elim (.ok ["php", "inc"]) (texts "extensions")

/-- The result for the patterns of excluded files. -/
def excludeOf (fields : List (String × Value)) : Except ConfigError (List String) :=
  texts "exclude" ((setting? fields "exclude").getD .null)

/-- The result for the overrides. -/
def overridesOf (fields : List (String × Value)) : Except ConfigError (List (String × Action)) :=
  severityOverrides ((setting? fields "severity_overrides").getD .null)

/-- Every key is one of a configuration. -/
def Known (fields : List (String × Value)) : Prop :=
  ∀ field ∈ fields, normalizeKey field.1 ∈ keys

/-- No key is unknown exactly when all keys are those of settings. -/
theorem unknownKeys_eq_nil_iff : unknownKeys fields = [] ↔ Known fields := by
  rw [← List.length_eq_zero_iff, unknownKeys, List.length_mergeSort, List.length_eq_zero_iff,
    List.filter_eq_nil_iff]
  simp [Known]

/-- The settings, read one after the other. -/
def settings (fields : List (String × Value)) : Except ConfigError Config := do
  let version ← (Version.parse (versionText fields)).mapError .version
  let maxFixPasses ← passesOf fields
  let extensions ← extensionsOf fields
  let exclude ← excludeOf fields
  let overrides ← overridesOf fields
  return ⟨version, extensions.map extension, exclude, maxFixPasses, overrides⟩

/-- With known keys alone, the configuration is read from the settings. -/
theorem ofFields_of_known (h : Known fields) : ofFields fields = settings fields := by
  have hnone : ¬ (!(unknownKeys fields).isEmpty) = true := by
    simp [unknownKeys_eq_nil_iff.2 h]
  exact if_neg hnone

/-- A mapping with a key of no setting is refused for all such keys together. -/
theorem ofFields_of_not_known (h : ¬ Known fields) :
    ofFields fields = .error (.unknownKeys (unknownKeys fields)) := by
  have hsome : (!(unknownKeys fields).isEmpty) = true := by
    simpa [unknownKeys_eq_nil_iff] using h
  exact if_pos hsome

/-- The fields give the settings of the configuration. -/
structure Gives (fields : List (String × Value)) (c : Config) : Prop where
  known : Known fields
  version : Version.parse (versionText fields) = .ok c.version
  passes : passesOf fields = .ok c.maxFixPasses
  extensions : ∃ written, extensionsOf fields = .ok written ∧ c.extensions = written.map extension
  exclude : excludeOf fields = .ok c.exclude
  overrides : overridesOf fields = .ok c.overrides

/-- A configuration is read exactly when the fields give its settings. -/
theorem ofFields_eq_ok_iff : ofFields fields = .ok c ↔ Gives fields c := by
  constructor
  · intro h
    by_cases hknown : Known fields
    · simp only [ofFields_of_known hknown, settings, Result.bind_eq_ok_iff,
        Result.mapError_eq_ok_iff] at h
      obtain ⟨version, hparse, passes, hpasses, written, hwritten, exclude, hexclude, overrides,
        hoverrides, h⟩ := h
      cases h
      exact ⟨hknown, hparse, hpasses, ⟨written, hwritten, rfl⟩, hexclude, hoverrides⟩
    · rw [ofFields_of_not_known hknown] at h
      cases h
  · rintro ⟨hknown, hparse, hpasses, ⟨written, hwritten, hextensions⟩, hexclude, hoverrides⟩
    simp only [ofFields_of_known hknown, settings, Result.bind_eq_ok_iff,
      Result.mapError_eq_ok_iff]
    refine ⟨_, hparse, _, hpasses, written, hwritten, _, hexclude, _, hoverrides, ?_⟩
    rw [← hextensions]
    rfl

/-! ## Refusals -/

/-- Every failure has a message, apart from that of a number that cannot be read. -/
theorem message?_eq_none_iff : e.message? = none ↔ e = .version .unreadable := by
  unfold ConfigError.message?
  split <;> simp

/-- A setting with a default is refused because of the value that is given. -/
theorem exists_of_elim_eq_error {α : Type} {v? : Option Value} {default : α}
    {read : Value → Except ConfigError α} (h : v?.elim (.ok default) read = .error e) :
    ∃ v, read v = .error e := by
  cases v? with
  | none => cases h
  | some v => exact ⟨v, h⟩

/-- Only the version is refused because its numbers cannot be read. -/
theorem ne_version_of_passes {v : Value} (h : passes v = .error e) (cause : VersionError) :
    e ≠ .version cause := by
  rintro rfl
  unfold passes at h
  repeat' split at h
  all_goals cases h

/-- A list of texts is never refused for a version. -/
theorem ne_version_of_texts {key : String} {v : Value} (h : texts key v = .error e)
    (cause : VersionError) : e ≠ .version cause := by
  rintro rfl
  unfold texts at h
  split at h <;> cases h

/-- Overrides are never refused for a version. -/
theorem ne_version_of_severityOverrides {v : Value} (h : severityOverrides v = .error e)
    (cause : VersionError) : e ≠ .version cause := by
  rintro rfl
  unfold severityOverrides at h
  split at h
  · cases h
  · obtain ⟨front, field, back, -, -, hfield⟩ := Result.mapM_eq_error_iff.1 h
    unfold override at hfield
    split at hfield <;> cases hfield
  · cases h

/-- Among known keys the version is what is refused first, and the only setting that is refused
because its numbers cannot be read. -/
theorem ofFields_eq_unreadable_iff : ofFields fields = .error (.version .unreadable) ↔
    Known fields ∧ Version.Unreadable (Version.body (versionText fields)) := by
  by_cases hknown : Known fields
  · rw [ofFields_of_known hknown, ← Version.parse_eq_unreadable_iff, settings]
    constructor
    · intro h
      refine ⟨hknown, ?_⟩
      simp only [Result.bind_eq_error_iff, Result.mapError_eq_error_iff] at h
      rcases h with ⟨cause, hparse, hcause⟩ | ⟨_, _, h⟩
      · cases hcause
        exact hparse
      exfalso
      rcases h with h | ⟨_, _, h⟩
      · obtain ⟨v, hv⟩ := exists_of_elim_eq_error h
        exact ne_version_of_passes hv _ rfl
      rcases h with h | ⟨_, _, h⟩
      · obtain ⟨v, hv⟩ := exists_of_elim_eq_error h
        exact ne_version_of_texts hv _ rfl
      rcases h with h | ⟨_, _, h⟩
      · exact ne_version_of_texts h _ rfl
      rcases h with h | ⟨_, _, h⟩
      · exact ne_version_of_severityOverrides h _ rfl
      · cases h
    · rintro ⟨-, hparse⟩
      rw [hparse]
      rfl
  · rw [ofFields_of_not_known hknown]
    exact iff_of_false nofun fun h => hknown h.1

/-! ## Configurations that were read -/

/-- Everything that is later made of a configuration can be made of it: its version is read from its
text, there is a pass to be run, and the policy is put together from the names of its actions. -/
structure Usable (c : Config) : Prop where
  version : Version.parse c.version.text = .ok c.version
  passes : 1 ≤ c.maxFixPasses
  actions : ∀ o ∈ c.overrides, Action.parse? o.2.label = some o.2
  policy : ∀ exemptions today, (∀ e ∈ exemptions, ∃ day, e.expiry = .day day) →
    ∃ engine, Engine.make c.overrides exemptions today = .ok engine

/-- A number of passes that is accepted is positive. -/
theorem one_le_of_passes {v : Value} {n : Nat} (h : passes v = .ok n) : 1 ≤ n := by
  unfold passes at h
  split at h
  · split at h
    · cases h
    · cases h
      omega
  · cases h

/-- A configuration that is given by a mapping is usable. -/
theorem Gives.usable (h : Gives fields c) : c.Usable where
  version := Version.parse_text h.version
  passes := by
    have hpasses := h.passes
    unfold passesOf at hpasses
    cases hsetting : setting? fields "max_fix_passes" with
    | none =>
        rw [hsetting] at hpasses
        have hdefault : 50 = c.maxFixPasses := Except.ok.inj hpasses
        omega
    | some v =>
        rw [hsetting] at hpasses
        exact one_le_of_passes hpasses
  actions := fun o _ => Action.parse?_label o.2
  policy := fun _ _ hplain => ⟨_, Engine.make_eq_ok hplain⟩

/-- The version of a configuration can be read again from its text. -/
theorem parse_version (h : ofFields fields = .ok c) :
    Version.parse c.version.text = .ok c.version :=
  (ofFields_eq_ok_iff.1 h).usable.version

/-- A mapping is read as a configuration that can be used, or it is refused with a message, unless
all of its keys are known and the numbers of its version cannot be read. -/
theorem ofFields_answers_iff (fields : List (String × Value)) :
    ((∃ c, ofFields fields = .ok c ∧ c.Usable) ∨
      ∃ e message, ofFields fields = .error e ∧ e.message? = some message) ↔
    ¬ (Known fields ∧ Version.Unreadable (Version.body (versionText fields))) := by
  rw [← ofFields_eq_unreadable_iff]
  cases hread : ofFields fields with
  | ok c =>
      refine iff_of_true (.inl ⟨c, rfl, ?_⟩) nofun
      exact (ofFields_eq_ok_iff.1 hread).usable
  | error e =>
      rw [Except.error.injEq, ← message?_eq_none_iff]
      cases hmessage : e.message? with
      | none => exact iff_of_false (by simp [hmessage]) (fun h => h rfl)
      | some message => exact iff_of_true (.inr ⟨e, message, rfl, hmessage⟩) nofun

/-- Five superscripts for a version leave the mapping without an answer. -/
example : ofFields [("minimum_language_version", .text "²²²²²")] =
    .error (.version .unreadable) := by
  cbv

end Config

end PhpDoc
