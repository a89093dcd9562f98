import PhpDoc.Proofs.Lint.Fix
import PhpDoc.Proofs.Rule.Reach

/-!
# What fixing leaves alone

Every fix of a finding is at tokens that may be rewritten, so a pass writes nothing elsewhere, and a
text without doc comments is its own result (`edits_confined`).
-/

namespace PhpDoc

variable {s : Stream} {c : CommentSpan}

/-- A comment of the tokens is among the comments of the stream. -/
theorem Stream.Frames.mem_comments (hs : s.Sound) (hc : s.Frames c) : c ∈ s.comments := by
  obtain ⟨d, hd, heq⟩ := hs.exists_of_open hc.opener hc.openerKind
  rwa [hc.eq (hs.frames hd) heq.symm]

/-- Without comments there is nothing to repair. -/
theorem Violation.Effective.not_fixable (hs : s.Sound) (hnone : s.comments = []) {v : Violation}
    (h : v.Effective s) : v.fixable = false := by
  rcases h with h | ⟨change, hrepair, -⟩
  · simp [fixable, h]
  · obtain ⟨c, hc, -⟩ := hrepair.reach hs
    have hmem := hc.mem_comments hs
    rw [hnone] at hmem
    cases hmem

/-- A pass writes at the edits of its findings only. -/
theorem Pass.getElem?_proposeAll (s : Stream) {vs : List Violation} {i : Nat}
    (h : ∀ v ∈ vs, ∀ e ∈ v.edits, e.index ≠ i) :
    (proposeAll (Fixer.ofStream s) vs).1.texts[i]? = (s.get? i).map (·.text) := by
  rw [proposeAll_eq]
  refine (Fixer.getElem?_after_of_not_mem _ fun edits hedits e he => ?_).trans
    ((Fixer.took_ofStream s).kept i (by simp))
  obtain ⟨v, hv, hfix⟩ := List.mem_filterMap.1 hedits
  exact h v hv e (by rwa [Violation.edits, hfix])

/-- A text without doc comments is fixed to itself. -/
theorem Lint.exists_fix_of_no_comments (config : Config) {text : String}
    (h : tokenize text = .ok s) (hnone : s.comments = []) :
    ∃ r, fix config text = .ok r ∧ r.text = text ∧ r.fixedCount = 0 := by
  have hsound := Stream.sound_of_tokenize h
  obtain ⟨findings, -, heffective, hcheck, hrun⟩ := Pass.exists_run config h
  have hnot : ∀ v ∈ findings, v.fixable = false := fun v hv =>
    (heffective v hv).not_fixable hsound hnone
  rw [Pass.proposeAll_of_not_fixable _ hnot] at hrun
  cases hlimit : config.maxFixPasses with
  | zero =>
      refine ⟨⟨text, 0, false, 0, findings⟩, ?_, rfl, rfl⟩
      rw [fix, hlimit]
      exact FixRun.result_eq_ok.2 ⟨rfl, hcheck, rfl, rfl⟩
  | succ limit =>
      have hone : 1 ≤ config.maxFixPasses := by omega
      exact ⟨_, fix_of_not_changed hone hrun rfl hcheck, rfl, rfl⟩

/-- The fixes of the findings of a text are at different tokens each, computed from these tokens,
and they rewrite only doc comments and empty only white space between a function and its comment. So
a pass leaves all other tokens as they were, and a text without doc comments stays the same. -/
theorem edits_confined (config : Config) {text : String} (h : tokenize text = .ok s) :
    ∃ findings pass, Lint.check config text = .ok findings ∧ Pass.run config text = .ok pass ∧
      (∀ v ∈ findings, (v.edits.map (·.index)).Nodup ∧ ∀ e ∈ v.edits, ∃ t,
        s.get? e.index = some t ∧ e.oldText = t.text ∧ e.newText ≠ e.oldText ∧ s.Editable t ∧
          (t.kind = .whitespace → e.newText = "")) ∧
      (∀ i t, s.get? i = some t → ¬ s.Editable t → pass.fixer.texts[i]? = some t.text) ∧
      (s.comments = [] → ∃ r, Lint.fix config text = .ok r ∧ r.text = text ∧ r.fixedCount = 0) := by
  have hsound := Stream.sound_of_tokenize h
  obtain ⟨findings, -, heffective, hcheck, hrun⟩ := Pass.exists_run config h
  have heditable := fun v hv => (heffective v hv).editable hsound
  refine ⟨findings, _, hcheck, hrun, heditable, fun i t ht hnot => ?_,
    Lint.exists_fix_of_no_comments config h⟩
  show (Pass.proposeAll (Fixer.ofStream s) findings).1.texts[i]? = some t.text
  rw [Pass.getElem?_proposeAll, ht, Option.map_some]
  rintro v hv e he rfl
  obtain ⟨u, hu, -, -, hu', -⟩ := (heditable v hv).2 e he
  rw [ht] at hu
  cases hu
  exact hnot hu'

/-- The blank line behind the comment of a function is emptied, and the function stays. -/
theorem edits_confined_function :
    let text := "<?php\n/**\n * F.\n */\n\nfunction f() {}"
    ∃ s findings pass, tokenize text = .ok s ∧ Lint.check Config.default text = .ok findings ∧
      Pass.run Config.default text = .ok pass ∧
      (∃ v ∈ findings, ∃ e ∈ v.edits, ∃ t, s.get? e.index = some t ∧ t.kind = .whitespace ∧
        s.Editable t ∧ e.newText = "") ∧
      ∃ i t, s.get? i = some t ∧ t.kind = .function ∧ pass.fixer.texts[i]? = some t.text := by
  intro text
  obtain ⟨s, hs, htokens⟩ := Lint.exists_ok_of_any (x := tokenize text)
    (p := fun s => (s.get? 12).any (·.kind == .whitespace) && (s.get? 13).any (·.kind == .function))
    (by decide +kernel)
  obtain ⟨findings, pass, hcheck, hrun, hedits, hkept, -⟩ := edits_confined Config.default hs
  obtain ⟨found, hfound, hany⟩ := Lint.exists_ok_of_any (x := Lint.check Config.default text)
    (p := fun vs => vs.any fun v => v.edits.any (·.index == 12)) (by decide +kernel)
  obtain rfl : findings = found := Except.ok.inj (hcheck.symm.trans hfound)
  simp only [Bool.and_eq_true, Option.any_eq_true, beq_iff_eq] at htokens
  obtain ⟨⟨space, hspace, hspaceKind⟩, keyword, hkeyword, hkeywordKind⟩ := htokens
  simp only [List.any_eq_true, beq_iff_eq] at hany
  obtain ⟨v, hv, e, he, hindex⟩ := hany
  obtain ⟨t, ht, -, -, heditable, hempty⟩ := (hedits v hv).2 e he
  obtain rfl : space = t := Option.some.inj (hspace.symm.trans (hindex ▸ ht))
  have hfixed : ¬ s.Editable keyword := by
    rintro (hdoc | ⟨hkind, -⟩)
    · rw [hkeywordKind] at hdoc
      cases hdoc
    · rw [hkeywordKind] at hkind
      cases hkind
  exact ⟨s, findings, pass, hs, hcheck, hrun,
    ⟨v, hv, e, he, space, ht, hspaceKind, heditable, hempty hspaceKind⟩,
    13, keyword, hkeyword, hkeywordKind, hkept 13 keyword hkeyword hfixed⟩

end PhpDoc
