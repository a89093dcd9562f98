import PhpDoc.Proofs.Lint.Check
import PhpDoc.Proofs.Rule.Listed

/-!
# Findings in the catalog

Whatever is found in a source text is in the catalog of rules as it is reported
(`findings_listed`).
-/

namespace PhpDoc

variable {s : Stream} {config : Config} {v : Violation}

namespace Lint

/-- Every finding at a token is listed in the catalog. -/
theorem listedIn_checkToken {t : Token} {vs : List Violation}
    (h : checkToken config s t = .ok vs) (hv : v ∈ vs) : v.ListedIn Catalog.entries := by
  unfold checkToken at h
  split at h
  · unfold checkBlock at h
    split at h
    · cases h
      exact (Layout.listedIn_check hv).mono Catalog.layout_subset
    · cases h
  · refine Violation.ListedIn.mono ?_ Catalog.functions_subset
    unfold checkFunction at h
    simp only at h
    split at h
    · cases h
      exact Violation.listedIn_of_mem_singleton hv (by simp [Catalog.functions])
    · cases h
      exact Violation.listedIn_of_mem_singleton hv (by simp [Catalog.functions])
    · split at h
      · cases h
        exact FunctionRule.listedIn_checkComment hv
      · cases h
  · split at h
    · refine Violation.ListedIn.mono ?_ Catalog.properties_subset
      unfold checkProperty at h
      split at h
      · cases h
        exact Violation.listedIn_of_mem_singleton hv (by simp [Catalog.properties])
      · cases h
        exact Violation.listedIn_of_mem_singleton hv (by simp [Catalog.properties])
      · split at h
        · cases h
          exact PropertyRule.listedIn_checkComment hv
        · cases h
    · cases h
      cases hv
  · cases h
    cases hv

end Lint

/-- A source text that can be read can be checked, and the catalog has an entry for every finding,
with its rule, its severity, and whether it comes with a fix. -/
theorem findings_listed (config : Config) {text : String} (h : tokenize text = .ok s) :
    ∃ findings, Lint.check config text = .ok findings ∧
      ∀ v ∈ findings, ∃ e ∈ Catalog.entries,
        e.source = v.source ∧ e.severity = v.severity ∧ e.fixable = v.fixable := by
  obtain ⟨findings, hstream, -⟩ :=
    Lint.exists_checkStream config (Stream.sound_of_tokenize h)
  refine ⟨findings, by rw [Lint.check, h]; exact hstream, fun v hv => ?_⟩
  obtain ⟨t, -, vs, hcheck, hmem⟩ := (Lint.mem_checkStream hstream).1 hv
  exact Lint.listedIn_checkToken hcheck hmem

/-- A tag that is not at home in the comment of a member variable is a warning, in the catalog as in
the finding. -/
theorem findings_listed_foreign_tag :
    let text := "<?php class A { /** @foo */ var $x; }"
    ∃ s findings v e, tokenize text = .ok s ∧ Lint.check Config.default text = .ok findings ∧
      v ∈ findings ∧ v.source = "VariableComment.TagNotAllowed" ∧ v.severity = .warning ∧
      e ∈ Catalog.entries ∧ e.source = v.source ∧ e.severity = v.severity ∧
      e.fixable = v.fixable := by
  intro text
  obtain ⟨s, hs, hany⟩ := Lint.exists_ok_of_any (x := tokenize text)
    (p := fun s => (Lint.checkStream Config.default s).toOption.any fun vs =>
      vs.any fun v => v.source == "VariableComment.TagNotAllowed" && v.severity == .warning)
    (by decide +kernel)
  obtain ⟨findings, hcheck, hlisted⟩ := findings_listed Config.default hs
  obtain ⟨found, hfound, hany⟩ := Lint.exists_ok_of_any hany
  have hsame := hcheck
  rw [Lint.check, hs] at hsame
  obtain rfl : found = findings := Except.ok.inj (hfound.symm.trans hsame)
  obtain ⟨v, hv, hwarning⟩ := List.any_eq_true.1 hany
  simp only [Bool.and_eq_true, beq_iff_eq] at hwarning
  obtain ⟨e, he, hsource, hseverity, hfixable⟩ := hlisted v hv
  exact ⟨s, found, v, e, hs, hcheck, hv, hwarning.1, hwarning.2, he, hsource, hseverity, hfixable⟩

end PhpDoc
