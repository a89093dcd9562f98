import PhpDoc.Proofs.Lint.Stable
import PhpDoc.Proofs.Run.Missing
import PhpDoc.Proofs.Text.Utf8

/-!
# What processing a file does to the disk

A file that can be read is skipped, with a failure, or treated, which is to check its text or to fix
it (`Process.Handled`). A text that is fixed stands on the disk in bytes that are read as that text,
and what a converged fix wrote is fixed to itself. Hence a call changes no other file, it tells
whether it changed its file, and a fix that converged is over with the first call
(`Process.file_effects`).
-/

namespace PhpDoc

open Disk

variable {d : Disk} {mode : RunMode} {dryRun : Bool} {config : Config} {policy : Policy}
variable {path : Path} {bytes : List UInt8} {text before : String} {r : FixResult}

/-! ## How checks and fixes fail -/

/-- A check fails only on a text that cannot be taken apart. -/
theorem Lint.unterminated_of_check {e : LintError} (h : check config text = .error e) :
    ∃ cause, e = .unterminated cause := by
  cases htokens : tokenize text with
  | error cause =>
      rw [check, htokens] at h
      cases h
      exact ⟨cause, rfl⟩
  | ok s =>
      obtain ⟨findings, -, -, hcheck, -⟩ := Pass.exists_run config htokens
      rw [hcheck] at h
      cases h

/-- A pass fails only on a text that cannot be taken apart. -/
theorem Pass.unterminated_of_run {e : LintError} (h : run config text = .error e) :
    ∃ cause, e = .unterminated cause := by
  cases htokens : tokenize text with
  | error cause =>
      rw [run, htokens] at h
      cases h
      exact ⟨cause, rfl⟩
  | ok s =>
      obtain ⟨findings, -, -, -, hrun⟩ := Pass.exists_run config htokens
      rw [hrun] at h
      cases h

/-- A run of passes fails only at a construct that never ends. -/
theorem FixRun.unterminated_of_outcome {limit : Nat} {e : LintError}
    (h : (upTo config limit text).outcome = .error e) : ∃ cause, e = .unterminated cause := by
  induction limit generalizing text with
  | zero => cases h
  | succ limit ih =>
      rw [upTo] at h
      split at h
      · next hrun =>
          cases h
          exact Pass.unterminated_of_run hrun
      · split at h
        · exact ih h
        · cases h

/-- A fix fails only on a text that cannot be taken apart. -/
theorem Lint.unterminated_of_fix {e : LintError} (h : fix config text = .error e) :
    ∃ cause, e = .unterminated cause := by
  rw [fix, FixRun.result] at h
  cases houtcome : (FixRun.upTo config config.maxFixPasses text).outcome with
  | error cause =>
      rw [houtcome] at h
      cases h
      exact FixRun.unterminated_of_outcome houtcome
  | ok outcome =>
      simp only [houtcome, bind, Except.bind] at h
      split at h
      · next hcheck =>
          cases h
          exact unterminated_of_check hcheck
      · cases h

/-- A result that converged is fixed to itself, with the same violations. -/
theorem Lint.fix_text_of_converged (h : fix config text = .ok r) (hconverged : r.converged = true) :
    fix config r.text = .ok ⟨r.text, 1, true, 0, r.violations⟩ := by
  obtain ⟨houtcome, hcheck, -⟩ := FixRun.result_eq_ok.1 h
  rw [hconverged] at houtcome
  have hlimit : 1 ≤ config.maxFixPasses := by
    by_contra hzero
    rw [Nat.eq_zero_of_not_pos hzero] at houtcome
    cases houtcome
  obtain ⟨pass, hpass, hchanged⟩ := FixRun.exists_last_pass houtcome
  exact fix_of_not_changed hlimit hpass hchanged hcheck

namespace Process

/-! ## Skipped and treated files -/

/-- What a text is treated to: to itself by a check, and to its fix otherwise. -/
inductive Treats (config : Config) (text : String) : RunMode → Treatment → Prop where
  | check {vs : List Violation} (checked : Lint.check config text = .ok vs) :
      Treats config text .check ⟨text, 0, 0, true, vs⟩
  | fix {mode : RunMode} {r : FixResult} (notCheck : mode ≠ .check)
      (fixed : Lint.fix config text = .ok r) :
      Treats config text mode ⟨r.text, r.fixedCount, r.passes, r.converged, r.violations⟩

/-- In every mode but that of checks a text is fixed. -/
theorem treat_of_ne (h : mode ≠ .check) : treat mode config text = fixText config text := by
  cases mode with
  | check => exact absurd rfl h
  | fix => rfl
  | diff => rfl

/-- Treating a text gives its treatment, or fails because it cannot be taken apart. -/
theorem treat_cases (mode : RunMode) (config : Config) (text : String) :
    (∃ events t, treat mode config text = (events, .ok t) ∧ Treats config text mode t) ∨
      ∃ events cause, treat mode config text = (events, .error (.unterminated cause)) ∧
        ∀ t, ¬ Treats config text mode t := by
  by_cases hmode : mode = .check
  · subst hmode
    rw [treat, checkText]
    cases hcheck : Lint.check config text with
    | ok vs => exact .inl ⟨_, _, rfl, .check hcheck⟩
    | error e =>
        obtain ⟨cause, rfl⟩ := Lint.unterminated_of_check hcheck
        refine .inr ⟨_, cause, rfl, fun t ht => ?_⟩
        cases ht with
        | check checked => rw [hcheck] at checked; cases checked
        | fix notCheck _ => exact notCheck rfl
  · rw [treat_of_ne hmode]
    cases hfix : Lint.fix config text with
    | ok r =>
        have hresult : (FixRun.upTo config config.maxFixPasses text).result config = .ok r := hfix
        exact .inl ⟨_, _, by rw [fixText, hresult]; rfl, .fix hmode hfix⟩
    | error e =>
        obtain ⟨cause, rfl⟩ := Lint.unterminated_of_fix hfix
        have hresult : (FixRun.upTo config config.maxFixPasses text).result config =
          .error (.unterminated cause) := hfix
        refine .inr ⟨_, cause, by rw [fixText, hresult]; rfl, fun t ht => ?_⟩
        cases ht with
        | check => exact hmode rfl
        | fix _ fixed => rw [hfix] at fixed; cases fixed

/-- How a file with the given bytes is handled: it is skipped because the bytes are no text or the
text cannot be treated, or it is treated. -/
inductive Handled (d : Disk) (mode : RunMode) (dryRun : Bool) (config : Config) (policy : Policy)
    (path : Path) (bytes : List UInt8) : Processed → Prop where
  | undecodable {e : Utf8.Error} (failure : Failure) (decoded : Utf8.decode bytes = .error e) :
      Handled d mode dryRun config policy path bytes (skip d mode path "" [] failure)
  | untreated {before : String} (events : List Event) (failure : Failure)
      (decoded : Utf8.decode bytes = .ok before)
      (fails : ∀ t, ¬ Treats config before mode t) :
      Handled d mode dryRun config policy path bytes (skip d mode path before events failure)
  | treated {before : String} {t : Treatment} (events : List Event)
      (decoded : Utf8.decode bytes = .ok before) (treats : Treats config before mode t) :
      Handled d mode dryRun config policy path bytes
        (finish d mode dryRun policy path before events t)

/-- A file has a text when it has the bytes of this text. -/
theorem sourceText_eq_ok : sourceText d path = .ok text ↔
    d.read? path = some (Utf8.encode text) := by
  rw [sourceText]
  cases hread : d.read? path with
  | none => simp
  | some bytes =>
      simp only [Option.some.injEq]
      constructor
      · intro h
        cases hdecode : Utf8.decode bytes with
        | error e =>
            rw [hdecode] at h
            cases h
        | ok old =>
            rw [hdecode] at h
            cases h
            exact (Utf8.encode_of_decode hdecode).symm
      · rintro rfl
        rw [Utf8.decode_encode]
        rfl

/-- A file without a text is skipped. -/
theorem file_of_unread {failure : Failure} (hsource : sourceText d path = .error failure)
    (mode : RunMode) (dryRun : Bool) (config : Config) (policy : Policy) :
    file d mode dryRun config policy path = .ok (skip d mode path "" [] failure) := by
  rw [file, hsource]

/-- A file whose text cannot be treated is skipped. -/
theorem file_of_untreated (hsource : sourceText d path = .ok before) {events : List Event}
    {cause : SyntaxError}
    (htreat : treat mode config before = (events, .error (.unterminated cause)))
    (dryRun : Bool) (policy : Policy) :
    file d mode dryRun config policy path =
      .ok (skip d mode path before events (.ofSyntax cause)) := by
  rw [file, hsource]
  simp only [htreat]

/-- A file whose text is treated. -/
theorem file_of_treated (hsource : sourceText d path = .ok before) {events : List Event}
    {t : Treatment} (htreat : treat mode config before = (events, .ok t)) (dryRun : Bool)
    (policy : Policy) :
    file d mode dryRun config policy path =
      .ok (finish d mode dryRun policy path before events t) := by
  rw [file, hsource]
  simp only [htreat]

/-- A file that can be read is handled. -/
theorem exists_handled (mode : RunMode) (dryRun : Bool) (config : Config) (policy : Policy)
    (hread : d.read? path = some bytes) :
    ∃ first, file d mode dryRun config policy path = .ok first ∧
      Handled d mode dryRun config policy path bytes first := by
  cases hdecode : Utf8.decode bytes with
  | error e =>
      have hsource : sourceText d path = .error (readFailure path e.message) := by
        rw [sourceText, hread]
        simp only [hdecode]
        rfl
      exact ⟨_, file_of_unread hsource mode dryRun config policy, .undecodable _ hdecode⟩
  | ok before =>
      have hsource : sourceText d path = .ok before :=
        sourceText_eq_ok.2 (by rw [hread, Utf8.encode_of_decode hdecode])
      rcases treat_cases mode config before with ⟨events, t, htreat, treats⟩ |
        ⟨events, cause, htreat, fails⟩
      · exact ⟨_, file_of_treated hsource htreat dryRun policy, .treated events hdecode treats⟩
      · exact ⟨_, file_of_untreated hsource htreat dryRun policy,
          .untreated events _ hdecode fails⟩

/-! ## Effects -/

/-- A file is written only when it is fixed for real and its text has changed. -/
theorem writes_iff {t : Treatment} :
    writes mode dryRun before t = true ↔ mode = .fix ∧ dryRun = false ∧ t.text ≠ before := by
  simp [writes, and_assoc]

/-- A fix writes every text but the one that is there. -/
theorem text_eq_of_not_writes {t : Treatment} (h : ¬ writes .fix false before t = true) :
    t.text = before := by
  by_contra hne
  exact h (writes_iff.2 ⟨rfl, rfl, hne⟩)

/-- A treated file has the text of its treatment after a fix that is not a dry run, and else its old
text. -/
theorem read?_finish (hread : d.read? path = some (Utf8.encode before)) (mode : RunMode)
    (dryRun : Bool) (policy : Policy) (events : List Event) (t : Treatment) :
    (finish d mode dryRun policy path before events t).disk.read? path =
      some (Utf8.encode (if mode = .fix ∧ dryRun = false then t.text else before)) := by
  unfold finish
  simp only
  split
  · next hwrites =>
      obtain ⟨hfix, hwet, -⟩ := writes_iff.1 hwrites
      rw [read?_write, hread, if_pos ⟨hfix, hwet⟩]
      simp
  · next hkept =>
      rw [hread]
      split
      · next hfix =>
          obtain ⟨rfl, rfl⟩ := hfix
          rw [text_eq_of_not_writes hkept]
      · rfl

/-- What processing a file with the given bytes does. No other file changes. The file has its old
content or the text of its fix: the old content if it is not to be fixed or not to be written, if it
is no text, and if there is a failure, which comes without violations and without anything counted
by the policy. The file is called written exactly when its content is another one. Once it has the
text of a fix that converged, fixing it again writes nothing, applies nothing and tells the same
violations. -/
structure Effects (d : Disk) (mode : RunMode) (dryRun : Bool) (config : Config) (policy : Policy)
    (path : Path) (bytes : List UInt8) (first : Processed) : Prop where
  tree : SameTree d first.disk
  others : ∀ q, d.place? q ≠ d.place? path → first.disk.read? q = d.read? q
  content : first.disk.read? path = some bytes ∨
    ∃ old r, Utf8.decode bytes = .ok old ∧ Lint.fix config old = .ok r ∧
      first.disk.read? path = some (Utf8.encode r.text)
  old : mode ≠ .fix ∨ dryRun = true ∨ (∃ e, Utf8.decode bytes = .error e) ∨
    first.result.failure.isSome = true → first.disk.read? path = some bytes
  failed : first.result.failure.isSome = true →
    first.result.violations = [] ∧ first.suppressed = 0
  written : first.result.written = true ↔ first.disk.read? path ≠ some bytes
  fixed : ∀ old r, Utf8.decode bytes = .ok old → Lint.fix config old = .ok r →
    mode = .fix → dryRun = false → first.disk.read? path = some (Utf8.encode r.text)
  again : ∀ old r, Utf8.decode bytes = .ok old → Lint.fix config old = .ok r →
    r.converged = true → first.disk.read? path = some (Utf8.encode r.text) →
    ∀ dryRun, ∃ second, file first.disk .fix dryRun config policy path = .ok second ∧
      second.disk = first.disk ∧ second.result.written = false ∧ second.result.fixedCount = 0 ∧
      second.result.violations = first.result.violations

/-- Outside of checks a text is treated to its fix. -/
theorem Treats.eq_of_fix {t : Treatment} (treats : Treats config before mode t)
    (hmode : mode ≠ .check) (hfix : Lint.fix config before = .ok r) :
    t = ⟨r.text, r.fixedCount, r.passes, r.converged, r.violations⟩ := by
  cases treats with
  | check => exact absurd rfl hmode
  | fix _ fixed =>
      rw [hfix] at fixed
      cases fixed
      rfl

/-- A text that is the text of its fix has the violations of the fix in every mode. -/
theorem exists_treats_of_fix (mode : RunMode) (hfix : Lint.fix config before = .ok r)
    (hsame : r.text = before) : ∃ t, Treats config before mode t ∧ t.violations = r.violations := by
  obtain ⟨-, hcheck, -⟩ := FixRun.result_eq_ok.1 hfix
  rw [hsame] at hcheck
  cases mode with
  | check => exact ⟨_, .check hcheck, rfl⟩
  | fix => exact ⟨_, .fix (by decide) hfix, rfl⟩
  | diff => exact ⟨_, .fix (by decide) hfix, rfl⟩

/-- A text has one treatment. -/
theorem Treats.unique {t u : Treatment} (ht : Treats config before mode t)
    (hu : Treats config before mode u) : t = u := by
  cases hu with
  | check checked =>
      cases ht with
      | check checked' =>
          rw [checked] at checked'
          cases checked'
          rfl
      | fix notCheck => exact absurd rfl notCheck
  | fix notCheck fixed => exact ht.eq_of_fix notCheck fixed

/-- Fixing the text of a fix that converged writes nothing and applies nothing. -/
theorem exists_second (hfix : Lint.fix config before = .ok r) (hconverged : r.converged = true)
    (hread : d.read? path = some (Utf8.encode r.text)) (dryRun : Bool) (policy : Policy) :
    ∃ second, file d .fix dryRun config policy path = .ok second ∧ second.disk = d ∧
      second.result.written = false ∧ second.result.fixedCount = 0 ∧
      second.result.violations = (policy.apply path.text r.violations).kept := by
  have hagain := Lint.fix_text_of_converged hfix hconverged
  obtain ⟨second, hsecond, handled⟩ := exists_handled .fix dryRun config policy hread
  refine ⟨second, hsecond, ?_⟩
  have hdecode := Utf8.decode_encode r.text
  cases handled with
  | undecodable failure decoded =>
      rw [hdecode] at decoded
      cases decoded
  | untreated events failure decoded fails =>
      rw [hdecode] at decoded
      cases decoded
      exact absurd (.fix (by decide) hagain) (fails _)
  | treated events decoded treats =>
      rw [hdecode] at decoded
      cases decoded
      cases treats with
      | fix _ fixed =>
          rw [hagain] at fixed
          cases fixed
          have hkept : writes .fix dryRun r.text
              ⟨r.text, 0, 1, true, r.violations⟩ = false := by
            simp [writes]
          simp only [finish, hkept, Bool.false_eq_true, ↓reduceIte, and_self]

/-- A file that is skipped is as before, and nothing is told of it. -/
theorem effects_skip (hread : d.read? path = some bytes) (events : List Event) (failure : Failure)
    (fails : ∀ old, Utf8.decode bytes = .ok old → ∀ t, ¬ Treats config old mode t) :
    Effects d mode dryRun config policy path bytes
      (skip d mode path before events failure) where
  tree := .refl d
  others := fun _ _ => rfl
  content := .inl hread
  old := fun _ => hread
  failed := fun _ => ⟨rfl, rfl⟩
  written := by simp [skip, hread]
  fixed := by
    rintro old r hdecode hfix rfl -
    exact absurd (.fix (by decide) hfix) (fails old hdecode _)
  again := by
    intro old r hdecode hfix _ hnow
    -- the bytes are those of the fixed text, so the text was its own fix and could be treated
    obtain rfl : bytes = Utf8.encode r.text := Option.some.inj (hread.symm.trans hnow)
    have hsame : r.text = old := Except.ok.inj ((Utf8.decode_encode r.text).symm.trans hdecode)
    obtain ⟨t, ht, -⟩ := exists_treats_of_fix mode hfix hsame
    exact absurd ht (fails old hdecode t)

/-- A treated file is called written exactly when its content is another one. -/
theorem written_finish_iff (hread : d.read? path = some (Utf8.encode before)) (events : List Event)
    (t : Treatment) :
    (finish d mode dryRun policy path before events t).result.written = true ↔
      (finish d mode dryRun policy path before events t).disk.read? path ≠
        some (Utf8.encode before) := by
  show writes mode dryRun before t = true ↔ _
  rw [read?_finish hread mode dryRun policy events t, writes_iff]
  simp only [ne_eq, Option.some.injEq, Utf8.encode_inj]
  split
  · next hfix => simp [hfix]
  · next hkept => simpa using fun hmode hwet => absurd ⟨hmode, hwet⟩ hkept

/-- Where a treatment leaves the text of the fix on the disk, it tells the violations of the fix. -/
theorem Treats.violations_eq {t : Treatment} (treats : Treats config before mode t)
    (hfix : Lint.fix config before = .ok r)
    (hnow : (if mode = .fix ∧ dryRun = false then t.text else before) = r.text) :
    t.violations = r.violations := by
  by_cases hmode : mode = .check
  · subst hmode
    rw [if_neg (by simp)] at hnow
    obtain ⟨u, hu, hviolations⟩ := exists_treats_of_fix .check hfix hnow.symm
    rw [treats.unique hu, hviolations]
  · rw [treats.eq_of_fix hmode hfix]

/-- A file that is treated is written when its text is to be replaced. -/
theorem effects_finish (hread : d.read? path = some (Utf8.encode before)) {t : Treatment}
    (treats : Treats config before mode t) {events : List Event}
    (hfirst : file d mode dryRun config policy path =
      .ok (finish d mode dryRun policy path before events t)) :
    Effects d mode dryRun config policy path (Utf8.encode before)
      (finish d mode dryRun policy path before events t) := by
  have hnow := read?_finish hread mode dryRun policy events t
  have hdecode := Utf8.decode_encode before
  refine ⟨(file_frame hfirst).1, (file_frame hfirst).2, ?content, ?old, ?failed,
    written_finish_iff hread events t, ?fixed, ?again⟩
  case content =>
    rw [hnow]
    split
    · next hfix =>
        obtain ⟨rfl, -⟩ := hfix
        cases treats with
        | fix _ fixed => exact .inr ⟨before, _, hdecode, fixed, rfl⟩
    · exact .inl rfl
  case old =>
    intro hold
    rw [hnow, if_neg]
    rintro ⟨rfl, rfl⟩
    rcases hold with hmode | hdry | ⟨e, he⟩ | hfailed
    · exact hmode rfl
    · cases hdry
    · rw [hdecode] at he
      cases he
    · cases hfailed
  case failed =>
    intro hfailed
    cases hfailed
  case fixed =>
    rintro old r hold hfix rfl rfl
    obtain rfl : before = old := Except.ok.inj (hdecode.symm.trans hold)
    rw [hnow, if_pos ⟨rfl, rfl⟩, treats.eq_of_fix (by decide) hfix]
  case again =>
    intro old r hold hfix hconverged htext dryRun'
    obtain rfl : before = old := Except.ok.inj (hdecode.symm.trans hold)
    obtain ⟨second, hsecond, hdisk, hwritten, hcount, hviolations⟩ :=
      exists_second hfix hconverged htext dryRun' policy
    rw [hnow, Option.some.injEq, Utf8.encode_inj] at htext
    rw [← treats.violations_eq hfix htext] at hviolations
    exact ⟨second, hsecond, hdisk, hwritten, hcount, hviolations⟩

/-- Processing a file that can be read ends with a result, and has the effects above. -/
theorem file_effects (hread : d.read? path = some bytes) (mode : RunMode) (dryRun : Bool)
    (config : Config) (policy : Policy) :
    ∃ first, file d mode dryRun config policy path = .ok first ∧
      Effects d mode dryRun config policy path bytes first := by
  obtain ⟨first, hfirst, handled⟩ := exists_handled mode dryRun config policy hread
  refine ⟨first, hfirst, ?_⟩
  cases handled with
  | undecodable failure decoded =>
      exact effects_skip hread [] failure fun old hold => by
        rw [decoded] at hold
        cases hold
  | @untreated before events failure decoded fails =>
      exact effects_skip hread events failure fun old hold => by
        obtain rfl : before = old := Except.ok.inj (decoded.symm.trans hold)
        exact fails
  | treated events decoded treats =>
      obtain rfl := Utf8.encode_of_decode decoded
      exact effects_finish hread treats hfirst

/-- A comment on one line is fixed, and fixed for good by the first call. -/
theorem file_effects_one_line :
    let d : Disk := ⟨[(["a.php"], Utf8.encode "<?php /** F */")], [], ⟨1, []⟩, ⟨1, []⟩⟩
    let policy : Policy := ⟨[], [], ⟨2024, 1, 1⟩⟩
    let path : Path := ⟨0, ["a.php"]⟩
    d.read? path = some (Utf8.encode "<?php /** F */") ∧
      ∃ first second, file d .fix false .default policy path = .ok first ∧
        first.result.written = true ∧
        file first.disk .fix false .default policy path = .ok second ∧
        second.disk = first.disk ∧ second.result.violations = first.result.violations := by
  intro d policy path
  have hread : d.read? path = some (Utf8.encode "<?php /** F */") := by decide +kernel
  obtain ⟨first, hfirst, heffects⟩ := file_effects hread .fix false .default policy
  obtain ⟨r, hr, hany⟩ := Lint.exists_ok_of_any
    (x := Lint.fix Config.default "<?php /** F */")
    (p := fun r => r.converged && r.text != "<?php /** F */") (by decide +kernel)
  simp only [Bool.and_eq_true, bne_iff_ne] at hany
  have hdecode := Utf8.decode_encode "<?php /** F */"
  have hfixed := heffects.fixed _ r hdecode hr rfl rfl
  obtain ⟨second, hsecond, hdisk, -, -, hviolations⟩ :=
    heffects.again _ r hdecode hr hany.1 hfixed false
  refine ⟨hread, first, second, hfirst, heffects.written.2 ?_, hsecond, hdisk, hviolations⟩
  rw [hfixed, ne_eq, Option.some.injEq, Utf8.encode_inj]
  exact hany.2

end Process

end PhpDoc
