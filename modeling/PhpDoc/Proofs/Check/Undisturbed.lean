import PhpDoc.Check.Run
import PhpDoc.Proofs.Check.Function
import PhpDoc.Proofs.Check.Layout
import PhpDoc.Proofs.Lint.Fix

/-!
# Fixing does not disturb what is found

All checks share the session, and every fix that a check proposes changes the fixer for the checks
behind it. A session over the stream of a text still records what a check without a fixer finds, in
the same order, whatever was proposed to its fixer before and whatever becomes of the fixes
(`detection_undisturbed`). The reason is that every check only reports (`Check.reports_token`), and
that a report goes on in the same way after each answer.
-/

namespace PhpDoc

variable {s : Stream} {config : Config} {t : Token} {vs : List Violation}

namespace Check

/-! ## Member variables -/

/-- The walk over the tags finds the first `@var` tag and reports the others. Behind that tag every
tag is reported. -/
theorem reports_varTag (var : Option Tag) (ts : List Tag) :
    Reports s config (varTag var ts) (var.or (ts.find? (·.name == PropertyRule.varTag)))
      ((if var.isSome then ts else PropertyRule.otherTags ts).flatMap PropertyRule.checkTag) := by
  induction ts generalizing var with
  | nil => cases var <;> exact .pure _
  | cons t ts ih =>
      unfold varTag
      by_cases hvar : t.name = PropertyRule.varTag
      · rw [if_pos hvar, List.find?_cons_of_pos (by simpa using hvar)]
        cases var with
        | none =>
            have hothers : PropertyRule.otherTags (t :: ts) = ts := if_pos hvar
            have hrest := ih (some t)
            rw [Option.isSome_none, if_neg Bool.false_ne_true, hothers]
            exact hrest
        | some var =>
            have hcheck : PropertyRule.checkTag t = [_] := if_pos hvar
            rw [Option.isSome_some, if_pos rfl, List.flatMap_cons, hcheck]
            exact (Reports.report _).bind (ih (some var))
      · have hothers : (if var.isSome then t :: ts else PropertyRule.otherTags (t :: ts)) =
            t :: (if var.isSome then ts else PropertyRule.otherTags ts) := by
          cases var with
          | none => exact if_neg hvar
          | some var => rfl
        rw [if_neg hvar, List.find?_cons_of_neg (by simpa using hvar), hothers,
          List.flatMap_cons, PropertyRule.checkTag, if_neg hvar]
        split
        · exact (Reports.reportWhen _ _).bind (ih var)
        · exact (Reports.report _).bind (ih var)

/-- The first `@var` tag is reported by the rules for it. -/
theorem reports_var (b : Block) (t : Tag) :
    Reports s config (var b t) () (PropertyRule.checkVar b t) := by
  refine (Reports.reportWhen _ _).bind ?_
  cases t.value with
  | none => exact .report _
  | some value => exact .reportWhen _ _

/-- The comment of a member variable is reported by the rules for it. -/
theorem reports_propertyComment {closer : Token} {span : CommentSpan}
    (h : s.commentClosedAt? closer.index = some span) :
    Reports s config (propertyComment closer) () (PropertyRule.checkComment s span) := by
  refine .readStream ?_
  rw [h]
  refine (reports_varTag none (Block.ofSpan s span).tags).bind ?_
  rw [Option.none_or]
  cases (Block.ofSpan s span).tags.find? (·.name == PropertyRule.varTag) with
  | none => exact .report _
  | some t => exact reports_var _ t

/-! ## Tokens -/

/-- A declaration without a doc comment in front of it is reported, and else the check of the
comment reports what is found in it. -/
theorem reports_preceding {p : Preceding} {wrong missing : Violation}
    {found : Token → CommentSpan → List Violation} {check : Token → Check Unit}
    (hcheck : ∀ {closer : Token} {span : CommentSpan},
      s.commentClosedAt? closer.index = some span →
        Reports s config (check closer) () (found closer span))
    (h : (match p with
      | .other _ => .ok [wrong]
      | .none => .ok [missing]
      | .doc closer =>
          match s.commentClosedAt? closer.index with
          | some span => .ok (found closer span)
          | none => .error (.unpaired closer) : Except LintError (List Violation)) = .ok vs) :
    Reports s config
      (match p with
      | .other _ => discard (report wrong)
      | .none => discard (report missing)
      | .doc closer => check closer) () vs := by
  cases p with
  | other u =>
      cases h
      exact .report _
  | none =>
      cases h
      exact .report _
  | doc closer =>
      dsimp only at h ⊢
      cases hspan : s.commentClosedAt? closer.index with
      | none =>
          rw [hspan] at h
          cases h
      | some span =>
          rw [hspan] at h
          cases h
          exact hcheck hspan

/-- The check at a named function reports what is found there. -/
theorem reports_function (h : Lint.checkFunction config s t = .ok vs) :
    Reports s config (function t) () vs :=
  .readStream (reports_preceding (fun hspan => reports_functionComment hspan _) h)

/-- The check at a member variable reports what is found there. -/
theorem reports_property (h : Lint.checkProperty s t = .ok vs) :
    Reports s config (property t) () vs :=
  .readStream (reports_preceding reports_propertyComment h)

/-- The check at an open marker reports what is found there. -/
theorem reports_comment (h : Lint.checkBlock s t = .ok vs) :
    Reports s config (comment t) () vs := by
  refine .readStream ?_
  unfold Lint.checkBlock at h
  cases hspan : s.commentAt? t.index with
  | none =>
      rw [hspan] at h
      cases h
  | some span =>
      rw [hspan] at h
      cases h
      exact reports_layout _

/-- The check at a token does nothing but report what is found there. -/
theorem reports_token (h : Lint.checkToken config s t = .ok vs) :
    Reports s config (token t) () vs := by
  refine .readStream ?_
  unfold Lint.checkToken at h
  cases hkind : t.kind with
  | docOpen =>
      rw [hkind] at h
      exact reports_comment h
  | function =>
      rw [hkind] at h
      exact reports_function h
  | «variable» =>
      simp only [hkind] at h
      cases hproperty : s.isProperty t with
      | true =>
          rw [hproperty] at h
          exact reports_property h
      | false =>
          rw [hproperty] at h
          cases h
          exact .pure ()
  | _ =>
      rw [hkind] at h
      cases h
      exact .pure ()

/-- The checks of tokens report what is found at them, in their order. -/
theorem reports_tokens {ts : List Token} {vss : List (List Violation)}
    (h : List.Forall₂ (fun t vs => Lint.checkToken config s t = .ok vs) ts vss) :
    Reports s config (ts.forM token) () vss.flatten := by
  induction h with
  | nil => exact .pure ()
  | @cons t vs ts vss ht _ ih => exact (reports_token ht).bind ih

end Check

/-! ## Sessions -/

/-- A session over a stream records what a check of the stream finds, and proposes it to its
fixer. -/
theorem Session.run_eq (hcheck : Lint.checkStream config s = .ok vs)
    (hrange : ∀ v ∈ vs, v.InRange s) {fixer : Option Fixer}
    (hfixer : ∀ f, fixer = some f → f.texts.size = s.size) :
    Session.run config s fixer =
      .ok ⟨s, config, vs, fixer.map (·.after (vs.filterMap (·.fix)))⟩ := by
  obtain ⟨vss, htokens, rfl⟩ := Lint.exists_forall₂_of_checkStream hcheck
  have hrun := Check.Reports.run_eq (c := ⟨s, config, [], fixer⟩) (Check.reports_tokens htokens)
    hfixer hrange
  unfold Session.run
  rw [hrun]
  rfl

/-- A session over the stream of a text records what a check of the text finds, with a fixer to
which anything was proposed before as well as without one, and it does not break off. The first
pass of a fix is such a session. -/
theorem detection_undisturbed (config : Config) {text : String} (h : tokenize text = .ok s) :
    ∃ findings, Lint.check config text = .ok findings ∧
      Session.run config s none = .ok ⟨s, config, findings, none⟩ ∧
      (∀ earlier : List (List Edit),
        let f := (Fixer.ofStream s).after earlier
        Session.run config s (some f) =
          .ok ⟨s, config, findings, some (f.after (findings.filterMap (·.fix)))⟩) ∧
      ∃ pass, Pass.run config text = .ok pass ∧ pass.findings = findings ∧
        Session.run config s (some (Fixer.ofStream s)) =
          .ok ⟨s, config, findings, some pass.fixer⟩ := by
  have hsound := Stream.sound_of_tokenize h
  obtain ⟨findings, hstream, heffective, hcheck, hpass⟩ := Pass.exists_run config h
  have hrange := fun v hv => (heffective v hv).inRange hsound
  have hsome : ∀ f : Fixer, f.texts.size = s.size → Session.run config s (some f) =
      .ok ⟨s, config, findings, some (f.after (findings.filterMap (·.fix)))⟩ := by
    intro f hsize
    refine Session.run_eq hstream hrange fun g hg => ?_
    obtain rfl : f = g := Option.some.inj hg
    exact hsize
  have hsize : (Fixer.ofStream s).texts.size = s.size := (Fixer.took_ofStream s).size
  refine ⟨findings, hcheck, Session.run_eq hstream hrange nofun, fun earlier => ?_,
    _, hpass, rfl, ?_⟩
  · exact hsome _ ((Fixer.size_texts_after _ earlier).trans hsize)
  · rw [Pass.proposeAll_eq]
    exact hsome _ hsize

/-- A fixer that changed the open marker before rejects a fix that it would accept otherwise, and the
same is found. -/
theorem detection_undisturbed_collision :
    let text := "<?php /** F */"
    let earlier : List (List Edit) := [[⟨2, "/**", "/***"⟩]]
    ∃ s findings f g, tokenize text = .ok s ∧
      Session.run Config.default s (some (Fixer.ofStream s)) =
        .ok ⟨s, Config.default, findings, some f⟩ ∧
      Session.run Config.default s (some ((Fixer.ofStream s).after earlier)) =
        .ok ⟨s, Config.default, findings, some g⟩ ∧
      f.rejected < g.rejected := by
  intro text earlier
  obtain ⟨s, hs, hany⟩ := Lint.exists_ok_of_any (x := tokenize text)
    (p := fun s => (Lint.checkStream Config.default s).toOption.any fun vs =>
      let fixes := vs.filterMap (·.fix)
      decide (((Fixer.ofStream s).after fixes).rejected <
        (((Fixer.ofStream s).after earlier).after fixes).rejected)) (by decide +kernel)
  obtain ⟨findings, hcheck, -, hrun, -⟩ := detection_undisturbed Config.default hs
  obtain ⟨found, hfound, hlt⟩ := Lint.exists_ok_of_any hany
  rw [Lint.check, hs] at hcheck
  obtain rfl : found = findings := Except.ok.inj (hfound.symm.trans hcheck)
  exact ⟨s, found, _, _, hs, hrun [], hrun earlier, of_decide_eq_true hlt⟩

end PhpDoc
