import PhpDoc.Proofs.Lint.Frame
import PhpDoc.Proofs.Rule.Padding

/-!
# Respacing keeps the parts of a value

However a value with a variable is spaced anew, it is read into the same type, variable and
description, and so is the value that a pass writes for an accepted fix of the white space behind a
type or a name (`respacing_keeps_parts`).
-/

namespace PhpDoc

open FunctionRule

variable {s : Stream} {config : Config} {v : Violation}

/-- Of the findings at a token only those that are fixed by a padding of a parameter tag are
reported under the names of these rules. -/
theorem Lint.pads_checkToken (hs : s.Sound) {t : Token} {vs : List Violation}
    (h : checkToken config s t = .ok vs) (hv : v ∈ vs) : Pads s v := by
  have hother : ∀ {es : List CatalogEntry}, (∀ e ∈ es, e.source ∉ paddingSources) →
      v.ListedIn es → Pads s v := by
    rintro es hes ⟨e, he, hsource, -⟩ hpadding
    rw [← hsource] at hpadding
    exact absurd hpadding (hes e he)
  unfold checkToken at h
  split at h
  · unfold checkBlock at h
    split at h
    · cases h
      exact hother (by decide) (Layout.listedIn_check hv)
    · cases h
  · unfold checkFunction at h
    simp only at h
    split at h
    · cases h
      rw [List.mem_singleton.1 hv]
      exact fun _ => Violation.fixedBy_error _ _ _ _
    · cases h
      rw [List.mem_singleton.1 hv]
      exact fun _ => Violation.fixedBy_error _ _ _ _
    · split at h
      · next closer _ c hc =>
          cases h
          exact pads_checkComment (hs.frames (List.mem_of_find?_eq_some hc)) hv
      · cases h
  · split at h
    · unfold checkProperty at h
      split at h
      · cases h
        rw [List.mem_singleton.1 hv]
        exact fun _ => Violation.fixedBy_error _ _ _ _
      · cases h
        rw [List.mem_singleton.1 hv]
        exact fun _ => Violation.fixedBy_error _ _ _ _
      · split at h
        · cases h
          exact hother (by decide) (PropertyRule.listedIn_checkComment hv)
        · cases h
    · cases h
      cases hv
  · cases h
    cases hv

/-- The value that a pass writes for an accepted padding is what the padding writes. -/
theorem Pass.getElem?_of_accepted {findings earlier later : List Violation}
    (heffective : ∀ v ∈ findings, v.Effective s) (hs : s.Sound)
    (hsplit : findings = earlier ++ v :: later)
    (haccepted :
      ((Fixer.ofStream s).after (earlier.filterMap (·.fix))).verdict v.edits = .accepted)
    {e : Edit} (he : e ∈ v.edits) :
    (proposeAll (Fixer.ofStream s) findings).1.texts[e.index]? = some e.newText := by
  have hfix : v.fix = some v.edits := by
    rw [Violation.edits] at he ⊢
    cases hfix : v.fix with
    | none =>
        rw [hfix] at he
        cases he
    | some edits => rfl
  have hnodup : ∀ es ∈ findings.filterMap (·.fix), (es.map (·.index)).Nodup := by
    intro es hes
    obtain ⟨w, hw, hfix⟩ := List.mem_filterMap.1 hes
    have hedits := ((heffective w hw).editable hs).1
    rwa [Violation.edits, hfix] at hedits
  rw [hsplit, List.filterMap_append, List.filterMap_cons_some hfix] at hnodup
  rw [proposeAll_eq, hsplit, List.filterMap_append, List.filterMap_cons_some hfix]
  exact (Fixer.took_ofStream s).getElem?_of_accepted hnodup haccepted he

/-- A value with a variable that is written with other spacing, at least one space behind the type
and, when there is a description, at least one behind the variable, is read into the same type,
variable and description, with that spacing. So the value that a pass leaves after it accepted a
fix of the white space behind a type or a name is read into the parts that the value had. -/
theorem respacing_keeps_parts (config : Config) :
    (∀ (text : String) (pv : ParamValue) (p : ParamTag) (n m : Nat),
      ParamValue.parse? text = some pv → pv.var.isSome = true → p.value = some pv →
      1 ≤ n → (m = 0 ↔ pv.description = none) →
        ParamValue.parse? (p.render p.type n m) = some (pv.respaced n m)) ∧
    ∀ (text : String) (s : Stream), tokenize text = .ok s →
      ∃ pass, Pass.run config text = .ok pass ∧ ∀ earlier v later,
        pass.findings = earlier ++ v :: later →
        (v.source = "FunctionComment.SpacingAfterParamType" ∨
          v.source = "FunctionComment.SpacingAfterParamName") →
        ((Fixer.ofStream s).after (earlier.filterMap (·.fix))).verdict v.edits = .accepted →
        ∃ c ∈ s.comments, ∃ p ∈ (Block.ofSpan s c).paramTags s, ∃ value pv new n m,
          p.tag.token.index = v.index ∧ p.tag.value = some value ∧
          ParamValue.parse? value.text = some pv ∧
          pass.fixer.texts[value.index]? = some new ∧
          ParamValue.parse? new = some (pv.respaced n m) := by
  refine ⟨fun text pv p n m h hvar hp hn hm =>
    ParamValue.parse?_render hp h hvar (by omega) hm, fun text s h => ?_⟩
  obtain ⟨findings, hcheck, heffective, -, hrun⟩ := Pass.exists_run config h
  have hs := Stream.sound_of_tokenize h
  refine ⟨_, hrun, fun earlier v later hsplit hsource haccepted => ?_⟩
  have hsplit : findings = earlier ++ v :: later := hsplit
  have hv : v ∈ findings := by
    rw [hsplit]
    exact List.mem_append_right _ List.mem_cons_self
  obtain ⟨t, -, vs, hchecked, hmem⟩ := (Lint.mem_checkStream hcheck).1 hv
  rcases Lint.pads_checkToken hs hchecked hmem (by simpa [paddingSources] using hsource) with
    hnone | ⟨change, hpadding, hfix⟩
  · -- without a fix there is nothing to accept
    rw [Violation.edits, hnone] at haccepted
    cases haccepted
  · obtain ⟨c, p, value, pv, hc, hp, hindex, hrespaces⟩ := hpadding.exists_respaces hs
    obtain ⟨n, m, hparse⟩ := hrespaces.keeps
    have hedit : (⟨value.index, value.text, change.current value⟩ : Edit) ∈ v.edits := by
      rw [Violation.edits, hfix]
      exact hrespaces.fits.mem_edits.2 ⟨value, hrespaces.has, hrespaces.writes, rfl⟩
    exact ⟨c, hc.mem_comments hs, p, hp, value, pv, _, n, m, hindex, hrespaces.value_eq,
      hrespaces.parse_eq, Pass.getElem?_of_accepted heffective hs hsplit haccepted hedit, hparse⟩

/-- A second space behind a name is taken out, and a type with spaces and sigils in a shape is
respaced as a whole. -/
theorem respacing_keeps_parts_double_space :
    let text := "<?php\n/**\n * F.\n *\n * @param int $x  F.\n */\nfunction f($x) {}"
    let shape := "array($a &b) &$x  F."
    let parts : ParamValue := ⟨"array($a &b)", 1, some "&$x", some ⟨2, "F."⟩⟩
    let tag : ParamTag := ⟨default, some parts, []⟩
    (ParamValue.parse? shape = some parts ∧
      ParamValue.parse? (tag.render tag.type 3 1) = some (parts.respaced 3 1)) ∧
    ∃ s pass v, tokenize text = .ok s ∧ Pass.run Config.default text = .ok pass ∧
      v ∈ pass.findings ∧ v.source = "FunctionComment.SpacingAfterParamName" ∧
      ∃ c ∈ s.comments, ∃ p ∈ (Block.ofSpan s c).paramTags s, ∃ value pv new n m,
        p.tag.token.index = v.index ∧ p.tag.value = some value ∧
        ParamValue.parse? value.text = some pv ∧ pass.fixer.texts[value.index]? = some new ∧
        ParamValue.parse? new = some (pv.respaced n m) := by
  intro text shape parts tag
  obtain ⟨hrespaced, hfixed⟩ := respacing_keeps_parts Config.default
  have hparse : ParamValue.parse? shape = some parts := by decide +kernel
  refine ⟨⟨hparse, hrespaced shape parts tag 3 1 hparse rfl rfl (by decide) (by decide)⟩, ?_⟩
  obtain ⟨pass, hpass, hany⟩ := Lint.exists_ok_of_any (x := Pass.run Config.default text)
    (p := fun pass => (pass.findings.drop 1).head?.any fun v =>
      v.source == "FunctionComment.SpacingAfterParamName" &&
        ((Fixer.ofStream pass.stream).after
          ((pass.findings.take 1).filterMap (·.fix))).verdict v.edits == .accepted)
    (by decide +kernel)
  obtain ⟨s, hs⟩ := Pass.tokenize_of_run hpass
  obtain ⟨_, -, -, -, hrun⟩ := Pass.exists_run Config.default hs
  have hstream : pass.stream = s := by
    rw [← Except.ok.inj (hrun.symm.trans hpass)]
  rw [Option.any_eq_true] at hany
  obtain ⟨v, hv, haccepted⟩ := hany
  simp only [Bool.and_eq_true, beq_iff_eq, hstream] at haccepted
  obtain ⟨later, hdrop⟩ := List.head?_eq_some_iff.1 hv
  have hsplit : pass.findings = pass.findings.take 1 ++ v :: later := by
    rw [← hdrop, List.take_append_drop]
  have hmem : v ∈ pass.findings := by
    rw [hsplit]
    exact List.mem_append_right _ List.mem_cons_self
  obtain ⟨pass', hpass', hkeeps⟩ := hfixed text s hs
  obtain rfl : pass' = pass := Except.ok.inj (hpass'.symm.trans hpass)
  exact ⟨s, pass', v, hs, hpass, hmem, haccepted.1,
    hkeeps _ v later hsplit (.inr haccepted.1) haccepted.2⟩

end PhpDoc
