import PhpDoc.Lint.Fix
import PhpDoc.Proofs.Edit.History
import PhpDoc.Proofs.Lint.Check

/-!
# A pass fixes what can be fixed

The first fix that is proposed to a fresh fixer is accepted, because it has edits and computed them
from the texts that the fixer holds. So a pass changes something exactly when a finding comes with a
fix, and a run that converged leaves no finding that could be fixed.
-/

namespace PhpDoc

variable {s : Stream} {config : Config}

namespace Pass

/-- The fixes of the findings are proposed one after the other. -/
theorem proposeAll_eq (f : Fixer) (vs : List Violation) :
    proposeAll f vs = (f.after (vs.filterMap (·.fix)), f.verdicts (vs.filterMap (·.fix))) := by
  induction vs generalizing f with
  | nil => rfl
  | cons v vs ih =>
      rw [proposeAll]
      cases hfix : v.fix with
      | none => rw [List.filterMap_cons_none hfix, ih]
      | some edits =>
          rw [List.filterMap_cons_some hfix, Fixer.after_cons, Fixer.verdicts]
          simp only [Fixer.propose_eq, ih]

/-- Without a fix there is nothing to propose. -/
theorem proposeAll_of_not_fixable (f : Fixer) {vs : List Violation}
    (h : ∀ v ∈ vs, v.fixable = false) : proposeAll f vs = (f, []) := by
  have hnone : vs.filterMap (·.fix) = [] :=
    List.filterMap_eq_nil_iff.2 fun v hv => by simpa [Violation.fixable] using h v hv
  rw [proposeAll_eq, hnone]
  rfl

/-- Of effective violations the first fix is accepted. -/
theorem changed_proposeAll (hs : s.Sound) {vs : List Violation} (h : ∀ v ∈ vs, v.Effective s) :
    (proposeAll (Fixer.ofStream s) vs).1.changed = true ↔ ∃ v ∈ vs, v.fixable = true := by
  rw [proposeAll_eq]
  cases hfixes : vs.filterMap (·.fix) with
  | nil =>
      have hnone : ∀ v ∈ vs, v.fix = none := List.filterMap_eq_nil_iff.1 hfixes
      refine iff_of_false Bool.false_ne_true ?_
      rintro ⟨v, hv, hfixable⟩
      rw [Violation.fixable, hnone v hv] at hfixable
      cases hfixable
  | cons edits fixes =>
      have hmem : edits ∈ vs.filterMap (·.fix) := hfixes ▸ List.mem_cons_self
      obtain ⟨v, hv, hfix⟩ := List.mem_filterMap.1 hmem
      have hfixable : v.fixable = true := by rw [Violation.fixable, hfix, Option.isSome_some]
      have hedits : v.edits = edits := by rw [Violation.edits, hfix, Option.getD_some]
      have hverdict : (Fixer.ofStream s).verdict edits = .accepted := by
        rw [← hedits]
        exact Fixer.verdict_ofStream ((h v hv).edits_ne_nil hs hfixable) fun e => (h v hv).fits hs
      have hfirst : ((Fixer.ofStream s).propose edits).1.accepted = 1 := by
        rw [Fixer.propose_eq, hverdict]
        rfl
      have hle := ((Fixer.ofStream s).propose edits).1.accepted_le_after fixes
      refine iff_of_true (decide_eq_true ?_) ⟨v, hv, hfixable⟩
      show 0 < ((Fixer.ofStream s).after (edits :: fixes)).accepted
      rw [Fixer.after_cons]
      omega

/-- A pass over a source text that can be read. -/
theorem exists_run (config : Config) {text : String} (h : tokenize text = .ok s) :
    ∃ findings, Lint.checkStream config s = .ok findings ∧ (∀ v ∈ findings, v.Effective s) ∧
      Lint.check config text = .ok findings ∧
      run config text = .ok ⟨s, findings, (proposeAll (Fixer.ofStream s) findings).2,
        (proposeAll (Fixer.ofStream s) findings).1⟩ := by
  obtain ⟨findings, hcheck, heffective⟩ :=
    Lint.exists_checkStream config (Stream.sound_of_tokenize h)
  refine ⟨findings, hcheck, heffective, ?_, ?_⟩
  · rw [Lint.check, h]
    exact hcheck
  · rw [run, h]
    simp only [Except.mapError, bind, Except.bind, hcheck]
    rfl

/-- A pass over a text succeeds only when the text can be read. -/
theorem tokenize_of_run {text : String} {pass : Pass} (h : run config text = .ok pass) :
    ∃ s, tokenize text = .ok s := by
  cases htokens : tokenize text with
  | error e =>
      rw [run, htokens] at h
      cases h
  | ok s => exact ⟨s, rfl⟩

end Pass

/-- The result of a run is its last text with the counts of its passes. -/
theorem FixRun.result_eq_ok {run : FixRun} {r : FixResult} :
    run.result config = .ok r ↔ run.outcome = .ok (r.text, r.converged) ∧
      Lint.check config r.text = .ok r.violations ∧ r.passes = run.passes.length ∧
      r.fixedCount = run.fixedCount := by
  unfold result
  cases houtcome : run.outcome with
  | error e => simp [bind, Except.bind]
  | ok outcome =>
      obtain ⟨text, converged⟩ := outcome
      constructor
      · intro h
        simp only [bind, Except.bind] at h
        cases hcheck : Lint.check config text with
        | error e =>
            rw [hcheck] at h
            cases h
        | ok violations =>
            rw [hcheck] at h
            cases h
            exact ⟨rfl, hcheck, rfl, rfl⟩
      · rintro ⟨h, hcheck, hpasses, hcount⟩
        cases h
        simp only [bind, Except.bind, hcheck, ← hpasses, ← hcount]
        rfl

/-- A pass that accepts nothing is the only one. -/
theorem FixRun.upTo_of_not_changed {text : String} {pass : Pass}
    (hrun : Pass.run config text = .ok pass) (hchanged : pass.fixer.changed = false) (limit : Nat) :
    upTo config (limit + 1) text = ⟨[pass], .ok (text, true)⟩ := by
  simp only [upTo, hrun, hchanged, Bool.false_eq_true, ↓reduceIte]

/-- A text in which the first pass accepts nothing is its own result. -/
theorem Lint.fix_of_not_changed {text : String} {pass : Pass} {findings : List Violation}
    (hlimit : 1 ≤ config.maxFixPasses) (hrun : Pass.run config text = .ok pass)
    (hchanged : pass.fixer.changed = false) (hcheck : check config text = .ok findings) :
    fix config text = .ok ⟨text, 1, true, 0, findings⟩ := by
  obtain ⟨limit, hlimit⟩ := Nat.exists_eq_add_of_le' hlimit
  have hzero : pass.fixer.accepted = 0 := by simpa [Fixer.changed] using hchanged
  rw [fix, hlimit, FixRun.upTo_of_not_changed hrun hchanged]
  exact FixRun.result_eq_ok.2 ⟨rfl, hcheck, rfl, by simp [FixRun.fixedCount, hzero]⟩

/-- A run that converged ends with a pass that accepts nothing. -/
theorem FixRun.exists_last_pass {limit : Nat} {text result : String}
    (h : (upTo config limit text).outcome = .ok (result, true)) :
    ∃ pass, Pass.run config result = .ok pass ∧ pass.fixer.changed = false := by
  induction limit generalizing text with
  | zero => cases h
  | succ limit ih =>
      rw [upTo] at h
      split at h
      · cases h
      · next pass hpass =>
          split at h
          · exact ih h
          · next hchanged =>
              cases h
              exact ⟨pass, hpass, by simpa using hchanged⟩

/-- In a converged result nothing is left that could be fixed. -/
theorem Lint.not_fixable_of_converged {text : String} {r : FixResult}
    (h : fix config text = .ok r) (hconverged : r.converged = true) :
    ∃ s, tokenize r.text = .ok s ∧ checkStream config s = .ok r.violations ∧
      ∀ v ∈ r.violations, v.fixable = false := by
  obtain ⟨houtcome, hcheck, -⟩ := FixRun.result_eq_ok.1 h
  rw [hconverged] at houtcome
  obtain ⟨pass, hpass, hchanged⟩ := FixRun.exists_last_pass houtcome
  obtain ⟨s, hs⟩ := Pass.tokenize_of_run hpass
  obtain ⟨findings, hstream, heffective, hfindings, hrun⟩ := Pass.exists_run config hs
  obtain rfl : findings = r.violations := Except.ok.inj (hfindings.symm.trans hcheck)
  refine ⟨s, hs, hstream, fun v hv => ?_⟩
  rw [hrun] at hpass
  cases hpass
  by_contra hfixable
  have hwrites := (Pass.changed_proposeAll (Stream.sound_of_tokenize hs) heffective).2
    ⟨v, hv, by simpa using hfixable⟩
  rw [hwrites] at hchanged
  cases hchanged

/-- A pass over a fresh fixer accepts a fix exactly when a finding of the text comes with one, and
every fix has edits. In a converged result no finding comes with a fix. -/
theorem pass_changes_iff_fixable (config : Config) {text : String} {s : Stream}
    (h : tokenize text = .ok s) :
    ∃ findings pass, Lint.check config text = .ok findings ∧ Pass.run config text = .ok pass ∧
      (pass.fixer.changed = true ↔ ∃ v ∈ findings, v.fixable = true) ∧
      (∀ v ∈ findings, v.fixable = true → v.edits ≠ []) ∧
      ∀ r, Lint.fix config text = .ok r → r.converged = true →
        ∀ v ∈ r.violations, v.fixable = false := by
  obtain ⟨findings, -, heffective, hcheck, hrun⟩ := Pass.exists_run config h
  have hsound := Stream.sound_of_tokenize h
  refine ⟨findings, _, hcheck, hrun, Pass.changed_proposeAll hsound heffective,
    fun v hv => (heffective v hv).edits_ne_nil hsound, fun r hr hconverged => ?_⟩
  obtain ⟨-, -, -, hnot⟩ := Lint.not_fixable_of_converged hr hconverged
  exact hnot

/-- A pass moves content off the line of its open marker. -/
theorem pass_changes_open_line : ∃ s findings pass, tokenize "<?php /** F */" = .ok s ∧
    Lint.check Config.default "<?php /** F */" = .ok findings ∧
    Pass.run Config.default "<?php /** F */" = .ok pass ∧ pass.fixer.changed = true ∧
    ∃ v ∈ findings, v.fixable = true ∧ v.edits ≠ [] := by
  obtain ⟨s, hs, -⟩ := Lint.exists_ok_of_any (x := tokenize "<?php /** F */")
    (p := fun _ => true) (by decide +kernel)
  obtain ⟨findings, pass, hcheck, hrun, hiff, hedits, -⟩ :=
    pass_changes_iff_fixable Config.default hs
  obtain ⟨found, hfound, hany⟩ := Lint.exists_ok_of_any
    (x := Lint.check Config.default "<?php /** F */") (p := fun vs => vs.any (·.fixable))
    (by decide +kernel)
  obtain rfl : findings = found := Except.ok.inj (hcheck.symm.trans hfound)
  obtain ⟨v, hv, hfixable⟩ := List.any_eq_true.1 hany
  exact ⟨s, findings, pass, hs, hcheck, hrun, hiff.2 ⟨v, hv, hfixable⟩, v, hv, hfixable,
    hedits v hv hfixable⟩

end PhpDoc
