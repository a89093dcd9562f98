import PhpDoc.Proofs.Rule.Violation
import PhpDoc.Rule.Catalog

/-!
# Violations in the catalog

The catalog says of every rule how bad its violations are and whether they can be fixed, before any
source is checked. A violation is listed among entries when one of them says of it what it is. The
rules are gone through family by family: each reports violations that are listed in its part of the
catalog.
-/

namespace PhpDoc

namespace CatalogEntry

variable {family code summary : String}

/-- An error is listed as one that cannot be fixed. -/
@[simp] theorem error_eq :
    error family code summary = ⟨family ++ "." ++ code, .error, false, summary⟩ := rfl

/-- A warning is listed as one that cannot be fixed. -/
@[simp] theorem warning_eq :
    warning family code summary = ⟨family ++ "." ++ code, .warning, false, summary⟩ := rfl

/-- An error with a fix is listed as one that can be fixed. -/
@[simp] theorem repairable_eq :
    repairable family code summary = ⟨family ++ "." ++ code, .error, true, summary⟩ := rfl

end CatalogEntry

namespace Catalog

/-- The rules of the layout are in the catalog. -/
theorem layout_subset : layout ⊆ entries := by
  rw [entries, List.append_assoc]
  exact List.subset_append_left _ _

/-- The rules for functions are in the catalog. -/
theorem functions_subset : functions ⊆ entries := by
  intro e he
  exact List.mem_append_left _ (List.mem_append_right _ he)

/-- The rules for member variables are in the catalog. -/
theorem properties_subset : properties ⊆ entries :=
  List.subset_append_right _ _

end Catalog

namespace Violation

/-- One of the entries says of the violation what it is: its rule, its severity, and whether it
comes with a fix. -/
def ListedIn (es : List CatalogEntry) (v : Violation) : Prop :=
  ∃ e ∈ es, e.source = v.source ∧ e.severity = v.severity ∧ e.fixable = v.fixable

variable {es es' : List CatalogEntry} {v w : Violation} {condition : Bool}
variable {family code message : String} {t : Token} {c : Changeset}

/-- An error is listed by an entry with its name that tells an error without a fix. -/
@[simp] theorem listedIn_error :
    (error family code message t).ListedIn es ↔
      ∃ e ∈ es, e.source = family ++ "." ++ code ∧ e.severity = .error ∧ e.fixable = false :=
  Iff.rfl

/-- A warning is listed by an entry with its name that tells a warning without a fix. -/
@[simp] theorem listedIn_warning :
    (warning family code message t).ListedIn es ↔
      ∃ e ∈ es, e.source = family ++ "." ++ code ∧ e.severity = .warning ∧ e.fixable = false :=
  Iff.rfl

/-- A finding with a fix is listed by an entry with its name that tells an error with a fix. -/
@[simp] theorem listedIn_fixed :
    (fixed family code message t c).ListedIn es ↔
      ∃ e ∈ es, e.source = family ++ "." ++ code ∧ e.severity = .error ∧ e.fixable = true :=
  Iff.rfl

/-- What is listed is listed among more entries. -/
theorem ListedIn.mono (h : v.ListedIn es) (hes : es ⊆ es') : v.ListedIn es' := by
  obtain ⟨e, he, hsame⟩ := h
  exact ⟨e, hes he, hsame⟩

/-- What is reported alone is listed if it is. -/
theorem listedIn_of_mem_singleton (h : w ∈ [v]) (hv : v.ListedIn es) : w.ListedIn es := by
  rw [List.mem_singleton.1 h]
  exact hv

/-- What is reported under a condition is listed where the violation is. -/
theorem listedIn_of_mem_report (h : w ∈ report condition v) (hv : v.ListedIn es) :
    w.ListedIn es := by
  rw [(mem_report.1 h).2]
  exact hv

end Violation

open Violation

variable {s : Stream} {v : Violation}

/-! ## The layout of doc comments -/

namespace Layout

/-- The rule for the lines in front of the tags is listed. -/
theorem listedIn_spacingBeforeTags {b : Block} {t : Tag} (h : v ∈ spacingBeforeTags s b t) :
    v.ListedIn Catalog.layout := by
  unfold spacingBeforeTags at h
  split at h
  · cases h
  · exact listedIn_of_mem_report h (by simp [Catalog.layout])

/-- The rule for scattered parameter tags is listed. -/
theorem listedIn_paramGroup {groups : List TagGroup} (h : v ∈ paramGroup groups) :
    v.ListedIn Catalog.layout := by
  unfold paramGroup at h
  obtain ⟨g, -, hv⟩ := List.mem_flatMap.1 h
  obtain ⟨t, -, rfl⟩ := List.mem_map.1 hv
  simp [Catalog.layout]

/-- The rule for the place of the parameter group is listed. -/
theorem listedIn_paramNotFirst {groups : List TagGroup} (h : v ∈ paramNotFirst groups) :
    v.ListedIn Catalog.layout := by
  unfold paramNotFirst at h
  split at h
  · split at h
    · exact listedIn_of_mem_report h (by simp [Catalog.layout])
    · cases h
  · cases h

/-- The rule for the lines behind a group is listed. -/
theorem listedIn_spacingAfterGroup {b : Block} {last next : Tag}
    (h : v ∈ spacingAfterGroup s b last next) : v.ListedIn Catalog.layout := by
  unfold spacingAfterGroup at h
  split at h
  · cases h
  · exact listedIn_of_mem_report h (by simp [Catalog.layout])

/-- The rule for misaligned values is listed. -/
theorem listedIn_tagValueIndent (m : Misalignment) :
    (tagValueIndent m).ListedIn Catalog.layout := by
  unfold tagValueIndent
  simp only
  split
  · simp [Catalog.layout]
  · simp [Catalog.layout]

/-- The rules for groups are listed. -/
theorem listedIn_groupSpacing {b : Block} {gs : List TagGroup} (h : v ∈ groupSpacing s b gs) :
    v.ListedIn Catalog.layout := by
  induction gs with
  | nil => cases h
  | cons g gs ih =>
      rw [groupSpacing, List.mem_append, List.mem_append] at h
      rcases h with (h | h) | h
      · split at h
        · exact listedIn_spacingAfterGroup h
        · cases h
      · obtain ⟨m, -, rfl⟩ := List.mem_map.1 h
        exact listedIn_tagValueIndent m
      · exact ih h

/-- The rules for tags are listed. -/
theorem listedIn_checkTags {b : Block} (h : v ∈ checkTags s b) : v.ListedIn Catalog.layout := by
  unfold checkTags at h
  split at h
  · cases h
  · simp only [List.mem_append] at h
    rcases h with (((h | h) | h) | h) | h
    · exact listedIn_spacingBeforeTags h
    · exact listedIn_paramGroup h
    · exact listedIn_groupSpacing h
    · exact listedIn_paramNotFirst h
    · obtain ⟨t, -, rfl⟩ := List.mem_map.1 h
      simp [Catalog.layout]

/-- The rules for descriptions and tags are listed. -/
theorem listedIn_checkDescriptions {b : Block} (h : v ∈ checkDescriptions s b) :
    v.ListedIn Catalog.layout := by
  unfold checkDescriptions at h
  split at h
  · exact listedIn_of_mem_singleton h (by simp [Catalog.layout])
  · simp only [List.mem_append] at h
    rcases h with ((h | h) | h) | h
    · exact listedIn_of_mem_report h (by simp [Catalog.layout])
    · exact listedIn_of_mem_report h (by simp [Catalog.layout])
    · split at h
      · rcases List.mem_append.1 h with h | h
        · exact listedIn_of_mem_report h (by simp [Catalog.layout])
        · exact listedIn_of_mem_report h (by simp [Catalog.layout])
      · cases h
    · exact listedIn_checkTags h

/-- The rules for a block with content are listed. -/
theorem listedIn_checkContent {b : Block} {first : Token} (h : v ∈ checkContent s b first) :
    v.ListedIn Catalog.layout := by
  unfold checkContent at h
  rcases List.mem_append.1 h with h | h
  · exact listedIn_of_mem_report h (by simp [Catalog.layout])
  · split at h
    · cases h
    · simp only [List.mem_append] at h
      rcases h with (h | h) | h
      · exact listedIn_of_mem_report h (by simp [Catalog.layout])
      · exact listedIn_of_mem_report h (by simp [Catalog.layout])
      · exact listedIn_checkDescriptions h

/-- The rule for stars is listed. -/
theorem listedIn_starViolation {b : Block} {t : Token} (h : starViolation? s b t = some v) :
    v.ListedIn Catalog.layout := by
  unfold starViolation? at h
  split at h
  · cases h
  · split at h
    · cases h
    · cases h
      simp [Catalog.layout]

/-- Every finding about the layout of a doc comment is listed. -/
theorem listedIn_check {b : Block} (h : v ∈ check s b) : v.ListedIn Catalog.layout := by
  unfold check at h
  split at h
  · exact listedIn_of_mem_singleton h (by simp [Catalog.layout])
  · rcases List.mem_append.1 h with h | h
    · exact listedIn_checkContent h
    · obtain ⟨t, -, hv⟩ := List.mem_filterMap.1 h
      exact listedIn_starViolation hv

end Layout

/-! ## The comments of functions -/

namespace FunctionRule

variable {p : ParamTag} {f : Function}

/-- The rules for what parameter tags lack are listed. -/
theorem listedIn_missingParts (h : v ∈ missingParts p) : v.ListedIn Catalog.functions := by
  unfold missingParts at h
  split at h
  · exact listedIn_of_mem_singleton h (by simp [Catalog.functions])
  · split at h
    · exact listedIn_of_mem_singleton h (by simp [Catalog.functions])
    · exact listedIn_of_mem_singleton h (by simp [Catalog.functions])
    · cases h

/-- The rules for declared types are listed. -/
theorem listedIn_checkHint {scalarHints : Bool} {declared : Parameter}
    (h : v ∈ checkHint scalarHints f p declared) : v.ListedIn Catalog.functions := by
  unfold checkHint at h
  simp only at h
  split at h
  · split at h
    · exact listedIn_of_mem_singleton h (by simp [Catalog.functions])
    · exact listedIn_of_mem_singleton h (by simp [Catalog.functions])
  · split at h
    · exact listedIn_of_mem_singleton h (by simp [Catalog.functions])
    · split at h
      · exact listedIn_of_mem_singleton h (by simp [Catalog.functions])
      · cases h

/-- The rules for documented types are listed. -/
theorem listedIn_checkType {scalarHints : Bool} {declared : Option Parameter}
    (h : v ∈ checkType scalarHints f p declared) : v.ListedIn Catalog.functions := by
  unfold checkType at h
  simp only at h
  split at h
  · cases h
  · split at h
    · exact listedIn_of_mem_singleton h (by simp [Catalog.functions])
    · split at h
      · cases h
      · cases declared with
        | none =>
            rw [Option.elim_none] at h
            cases h
        | some d =>
            rw [Option.elim_some] at h
            exact listedIn_checkHint h

/-- The rules for the names of parameters are listed. -/
theorem listedIn_checkCounterpart {declared : Option Parameter}
    (h : v ∈ checkCounterpart p declared) : v.ListedIn Catalog.functions := by
  unfold checkCounterpart at h
  split at h
  · unfold checkName at h
    simp only at h
    split at h
    · cases h
    · split at h
      · exact listedIn_of_mem_singleton h (by simp [Catalog.functions])
      · exact listedIn_of_mem_singleton h (by simp [Catalog.functions])
  · exact listedIn_of_mem_report h (by simp [Catalog.functions])

/-- The rules for descriptions of parameters are listed. -/
theorem listedIn_checkDescription {longest : Nat} (h : v ∈ checkDescription s longest p) :
    v.ListedIn Catalog.functions := by
  unfold checkDescription at h
  split at h
  · cases h
  · simp only [List.mem_append] at h
    rcases h with (h | h) | h
    · exact listedIn_of_mem_report h (by simp [Catalog.functions])
    · exact listedIn_of_mem_report h (by simp [Catalog.functions])
    · exact listedIn_of_mem_report h (by simp [Catalog.functions])

/-- The rules for a parameter tag are listed. -/
theorem listedIn_checkParam {scalarHints : Bool} {ps : List ParamTag} {declared : Option Parameter}
    (h : v ∈ checkParam scalarHints s f ps p declared) : v.ListedIn Catalog.functions := by
  unfold checkParam at h
  split at h
  · cases h
  · rcases List.mem_append.1 h with h | h
    · exact listedIn_checkType h
    · split at h
      · cases h
      · simp only [List.mem_append] at h
        rcases h with (h | h) | h
        · exact listedIn_of_mem_report h (by simp [Catalog.functions])
        · exact listedIn_checkCounterpart h
        · exact listedIn_checkDescription h

/-- The rules for parameters are listed. -/
theorem listedIn_checkParams {scalarHints : Bool} {b : Block}
    (h : v ∈ checkParams scalarHints s b f) : v.ListedIn Catalog.functions := by
  unfold checkParams at h
  simp only [List.mem_append] at h
  rcases h with (h | h) | h
  · obtain ⟨p, -, hv⟩ := List.mem_flatMap.1 h
    exact listedIn_missingParts hv
  · obtain ⟨⟨p, i⟩, -, hv⟩ := List.mem_flatMap.1 h
    exact listedIn_checkParam hv
  · unfold missingTags at h
    obtain ⟨name, -, rfl⟩ := List.mem_map.1 h
    simp [Catalog.functions]

/-- The rules for exits are listed. -/
theorem listedIn_checkExit {t : Tag} {type : String} (h : v ∈ checkExit s f t type) :
    v.ListedIn Catalog.functions := by
  unfold checkExit at h
  split at h
  · cases h
  · split at h
    · exact listedIn_of_mem_report h (by simp [Catalog.functions])
    · exact listedIn_of_mem_report h (by simp [Catalog.functions])
    · exact listedIn_of_mem_report h (by simp [Catalog.functions])

/-- The rules for return tags are listed. -/
theorem listedIn_checkReturn {b : Block} (h : v ∈ checkReturn s b f) :
    v.ListedIn Catalog.functions := by
  unfold checkReturn at h
  split at h
  · exact listedIn_of_mem_singleton h (by simp [Catalog.functions])
  · split at h
    · cases h
    · split at h
      · exact listedIn_of_mem_singleton h (by simp [Catalog.functions])
      · split at h
        · exact listedIn_of_mem_singleton h (by simp [Catalog.functions])
        · rcases List.mem_append.1 h with h | h
          · exact listedIn_of_mem_report h (by simp [Catalog.functions])
          · exact listedIn_checkExit h

/-- The rules for throws tags are listed. -/
theorem listedIn_checkThrows {b : Block} (h : v ∈ checkThrows s b) :
    v.ListedIn Catalog.functions := by
  obtain ⟨t, -, hv⟩ := List.mem_flatMap.1 h
  split at hv
  · exact listedIn_of_mem_singleton hv (by simp [Catalog.functions])
  · unfold checkThrown at hv
    split at hv
    · exact listedIn_of_mem_singleton hv (by simp [Catalog.functions])
    · exact listedIn_of_mem_singleton hv (by simp [Catalog.functions])
    · simp only [List.mem_append] at hv
      rcases hv with hv | hv
      · exact listedIn_of_mem_report hv (by simp [Catalog.functions])
      · exact listedIn_of_mem_report hv (by simp [Catalog.functions])

/-- Every finding about the comment of a function is listed. -/
theorem listedIn_checkComment {scalarHints : Bool} {closer : Token} {c : CommentSpan}
    (h : v ∈ checkComment scalarHints s f closer c) : v.ListedIn Catalog.functions := by
  unfold checkComment at h
  simp only [List.mem_append] at h
  rcases h with (((h | h) | h) | h) | h
  · exact listedIn_of_mem_report h (by simp [Catalog.functions])
  · obtain ⟨t, -, hv⟩ := List.mem_flatMap.1 h
    exact listedIn_of_mem_report hv (by simp [Catalog.functions])
  · exact listedIn_checkParams h
  · exact listedIn_checkReturn h
  · exact listedIn_checkThrows h

end FunctionRule

/-! ## The comments of member variables -/

namespace PropertyRule

/-- The rules for tags at member variables are listed. -/
theorem listedIn_checkTag {t : Tag} (h : v ∈ checkTag t) : v.ListedIn Catalog.properties := by
  unfold checkTag at h
  split at h
  · exact listedIn_of_mem_singleton h (by simp [Catalog.properties])
  · split at h
    · exact listedIn_of_mem_report h (by simp [Catalog.properties])
    · exact listedIn_of_mem_singleton h (by simp [Catalog.properties])

/-- The rules for `@var` tags are listed. -/
theorem listedIn_checkVar {b : Block} {t : Tag} (h : v ∈ checkVar b t) :
    v.ListedIn Catalog.properties := by
  unfold checkVar at h
  rcases List.mem_append.1 h with h | h
  · exact listedIn_of_mem_report h (by simp [Catalog.properties])
  · split at h
    · exact listedIn_of_mem_singleton h (by simp [Catalog.properties])
    · exact listedIn_of_mem_report h (by simp [Catalog.properties])

/-- Every finding about the comment of a member variable is listed. -/
theorem listedIn_checkComment {c : CommentSpan} (h : v ∈ checkComment s c) :
    v.ListedIn Catalog.properties := by
  unfold checkComment at h
  rcases List.mem_append.1 h with h | h
  · obtain ⟨t, -, hv⟩ := List.mem_flatMap.1 h
    exact listedIn_checkTag hv
  · split at h
    · exact listedIn_of_mem_singleton h (by simp [Catalog.properties])
    · exact listedIn_checkVar h

end PropertyRule

end PhpDoc
