import PhpDoc.Proofs.Lint.Fix
import PhpDoc.Run.Process

/-!
# What is told of a fix

The counts of a run of passes are true of its text: a run that applied nothing kept the text
(`FixRun.text_of_fixedCount`), and a run that converged and applied something ended with another
text (`FixRun.fixedCount_pos_iff`), since the last pass found nothing to fix where the first one
did. A run that converged is not changed by a higher limit (`FixRun.upTo_of_le`), and its text is
fixed to itself (`fix_stable`).
-/

namespace PhpDoc

variable {config : Config} {text result : String} {limit : Nat}

/-! ## The passes of a run -/

namespace FixRun

/-- A run has no more passes than its limit. -/
theorem length_passes_le (config : Config) (limit : Nat) (text : String) :
    (upTo config limit text).passes.length ≤ limit := by
  induction limit generalizing text with
  | zero => exact Nat.le_refl 0
  | succ limit ih =>
      rw [upTo]
      split
      · exact Nat.zero_le _
      · next pass _ =>
          split
          · exact Nat.succ_le_succ (ih pass.fixer.text)
          · exact Nat.succ_le_succ (Nat.zero_le limit)

/-- A run that ends with a text has a pass, when it may have one. -/
theorem one_le_length_passes {outcome : String × Bool}
    (h : (upTo config (limit + 1) text).outcome = .ok outcome) :
    1 ≤ (upTo config (limit + 1) text).passes.length := by
  rw [upTo] at h ⊢
  split at h
  · cases h
  · split at h
    · next hchanged =>
        rw [if_pos hchanged]
        exact Nat.succ_le_succ (Nat.zero_le _)
    · next hchanged =>
        rw [if_neg hchanged]
        exact Nat.le_refl 1

/-- A run that applied nothing kept the text. -/
theorem text_of_fixedCount {converged : Bool}
    (h : (upTo config limit text).outcome = .ok (result, converged))
    (hzero : (upTo config limit text).fixedCount = 0) : result = text := by
  cases limit with
  | zero =>
      cases h
      rfl
  | succ limit =>
      rw [upTo] at h
      split at h
      · cases h
      · next pass hpass =>
          split at h
          · next hchanged =>
              have hpos : 0 < pass.fixer.accepted := by simpa [Fixer.changed] using hchanged
              simp only [upTo, hpass, hchanged, ↓reduceIte, fixedCount, List.map_cons,
                List.foldr_cons] at hzero
              omega
          · cases h
            rfl

/-- A run that converged applied something exactly when it changed the text. -/
theorem fixedCount_pos_iff (h : (upTo config limit text).outcome = .ok (result, true)) :
    0 < (upTo config limit text).fixedCount ↔ result ≠ text := by
  constructor
  · rintro hpos rfl
    -- the last pass read the text that the first pass read, and accepted nothing
    obtain ⟨pass, hpass, hchanged⟩ := exists_last_pass h
    cases limit with
    | zero => cases h
    | succ limit =>
        have hzero : pass.fixer.accepted = 0 := by simpa [Fixer.changed] using hchanged
        rw [upTo_of_not_changed hpass hchanged] at hpos
        simp [fixedCount, hzero] at hpos
  · intro hne
    by_contra hnot
    exact hne (text_of_fixedCount h (by omega))

/-- A run that converged is the same run under a higher limit. -/
theorem upTo_of_le (h : (upTo config limit text).outcome = .ok (result, true)) {more : Nat}
    (hle : limit ≤ more) : upTo config more text = upTo config limit text := by
  induction limit generalizing text more with
  | zero => cases h
  | succ limit ih =>
      obtain ⟨more, rfl⟩ := Nat.exists_eq_add_of_le' (Nat.le_trans (Nat.succ_le_succ
        (Nat.zero_le limit)) hle)
      rw [upTo] at h ⊢
      split at h
      · cases h
      · next pass hpass =>
          split at h
          · next hchanged =>
              simp only [upTo, hpass, hchanged, ↓reduceIte, ih h (Nat.le_of_succ_le_succ hle)]
          · next hchanged => simp only [upTo, hpass, hchanged, Bool.false_eq_true, ↓reduceIte]

end FixRun

/-! ## The limit of passes -/

namespace Lint

variable {config' : Config}

/-- Of a configuration a check reads only whether scalar types may be declared. -/
theorem checkStream_congr (h : config.scalarHints = config'.scalarHints) (s : Stream) :
    checkStream config s = checkStream config' s := by
  have htoken : checkToken config s = checkToken config' s := by
    funext t
    unfold checkToken checkFunction
    rw [h]
  rw [checkStream, checkStream, htoken]

/-- Of the configuration a check uses nothing but whether scalar types are hints. -/
theorem check_congr (h : config.scalarHints = config'.scalarHints) (text : String) :
    check config text = check config' text := by
  unfold check
  simp only [checkStream_congr h]

end Lint

/-- Of the configuration a pass uses nothing but whether scalar types are hints. -/
theorem Pass.run_congr {config' : Config} (h : config.scalarHints = config'.scalarHints)
    (text : String) : run config text = run config' text := by
  unfold run
  simp only [Lint.checkStream_congr h]

/-- Of the configuration a run uses nothing but whether scalar types are hints. -/
theorem FixRun.upTo_congr {config' : Config} (h : config.scalarHints = config'.scalarHints)
    (limit : Nat) (text : String) : upTo config limit text = upTo config' limit text := by
  induction limit generalizing text with
  | zero => rfl
  | succ limit ih => simp only [upTo, Pass.run_congr h, ih]

/-! ## The result of a fix -/

variable {r : FixResult}

/-- What a fix tells of a text it also tells of the file that holds the text. -/
theorem Process.changed_file (hfix : Lint.fix config text = .ok r) (d : Disk) {mode : RunMode}
    (hmode : mode ≠ .check) (dryRun : Bool) (policy : Policy) {path : Path}
    (hsource : sourceText d path = .ok text) :
    ∃ processed, file d mode dryRun config policy path = .ok processed ∧
      (processed.result.changed = true ↔ r.text ≠ text) := by
  have htreat : treat mode config text = fixText config text := by
    cases mode with
    | check => exact absurd rfl hmode
    | fix => rfl
    | diff => rfl
  have hresult : (FixRun.upTo config config.maxFixPasses text).result config = .ok r := hfix
  unfold file
  rw [hsource]
  simp only [htreat, fixText, hresult, Except.map]
  exact ⟨_, rfl, bne_iff_ne⟩

/-- What a fix tells of a text is true: its passes keep to the limit, it lists what a check finds in
its text, and without a fix the text is the same. A result that converged is fixed to itself by one
pass, it tells that it changed exactly when its text is another one, and a higher limit of passes
has the same result. -/
theorem Lint.fix_stable (hlimit : 1 ≤ config.maxFixPasses) (h : fix config text = .ok r) :
    (1 ≤ r.passes ∧ r.passes ≤ config.maxFixPasses) ∧ check config r.text = .ok r.violations ∧
      (r.fixedCount = 0 → r.text = text) ∧
      (r.converged = true →
        fix config r.text = .ok ⟨r.text, 1, true, 0, r.violations⟩ ∧
        (0 < r.fixedCount ↔ r.text ≠ text) ∧
        (∀ d mode dryRun policy path, mode ≠ .check → Process.sourceText d path = .ok text →
          ∃ processed, Process.file d mode dryRun config policy path = .ok processed ∧
            processed.result.changed = r.changed) ∧
        ∀ limit, config.maxFixPasses ≤ limit →
          fix { config with maxFixPasses := limit } text = .ok r) := by
  obtain ⟨houtcome, hcheck, hpasses, hcount⟩ := FixRun.result_eq_ok.1 h
  obtain ⟨last, hlast⟩ := Nat.exists_eq_add_of_le' hlimit
  refine ⟨⟨?_, ?_⟩, hcheck, fun hzero => ?_, fun hconverged => ?_⟩
  · rw [hpasses, hlast]
    exact FixRun.one_le_length_passes (hlast ▸ houtcome)
  · rw [hpasses]
    exact FixRun.length_passes_le config config.maxFixPasses text
  · exact FixRun.text_of_fixedCount houtcome (hcount.symm.trans hzero)
  · rw [hconverged] at houtcome
    have hchanged : 0 < r.fixedCount ↔ r.text ≠ text := by
      rw [hcount]
      exact FixRun.fixedCount_pos_iff houtcome
    refine ⟨?_, hchanged, fun d mode dryRun policy path hmode hsource => ?_, fun limit hle => ?_⟩
    · obtain ⟨pass, hpass, hnot⟩ := FixRun.exists_last_pass houtcome
      exact fix_of_not_changed hlimit hpass hnot hcheck
    · obtain ⟨processed, hfile, hiff⟩ :=
        Process.changed_file h d hmode dryRun policy hsource
      refine ⟨processed, hfile, Bool.eq_iff_iff.2 ?_⟩
      rw [hiff, ← hchanged, FixResult.changed, decide_eq_true_eq]
    · have hhints : config.scalarHints =
          Config.scalarHints { config with maxFixPasses := limit } := rfl
      have hsame : FixRun.upTo config config.maxFixPasses text =
          FixRun.upTo { config with maxFixPasses := limit } limit text :=
        (FixRun.upTo_of_le houtcome hle).symm.trans (FixRun.upTo_congr hhints limit text)
      rw [hsame] at houtcome hpasses hcount
      rw [check_congr hhints] at hcheck
      exact FixRun.result_eq_ok.2 ⟨hconverged ▸ houtcome, hcheck, hpasses, hcount⟩

/-- A comment on one line is fixed to a text that is fixed to itself, under any higher limit. -/
theorem Lint.fix_stable_one_line :
    let text := "<?php /** F */"
    1 ≤ Config.default.maxFixPasses ∧ ∃ r, fix Config.default text = .ok r ∧
      r.converged = true ∧ 0 < r.fixedCount ∧ r.text ≠ text ∧
      fix Config.default r.text = .ok ⟨r.text, 1, true, 0, r.violations⟩ ∧
      fix { Config.default with maxFixPasses := 100 } text = .ok r := by
  intro text
  have hlimit : 1 ≤ Config.default.maxFixPasses := by decide
  obtain ⟨r, hr, hany⟩ := exists_ok_of_any (x := fix Config.default text)
    (p := fun r => r.converged && decide (0 < r.fixedCount)) (by decide +kernel)
  simp only [Bool.and_eq_true, decide_eq_true_eq] at hany
  obtain ⟨hconverged, hpos⟩ := hany
  obtain ⟨-, -, -, hstable⟩ := fix_stable hlimit hr
  obtain ⟨hagain, hchanged, -, hmore⟩ := hstable hconverged
  exact ⟨hlimit, r, hr, hconverged, hpos, hchanged.1 hpos, hagain, hmore 100 (by decide)⟩

end PhpDoc
