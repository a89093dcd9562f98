import PhpDoc.Proofs.Check.Undisturbed
import PhpDoc.Proofs.Config.Basic
import PhpDoc.Proofs.Rule.Anchor
import PhpDoc.Proofs.Strict.Function
import PhpDoc.Proofs.Strict.Layout

/-!
# Sessions, run strictly

A strict session checks the tokens of a stream strictly, reads the token of every finding for its
place and the tokens of its edits for their texts, and proposes the fix to a fixer that has to have
these tokens. Over the stream of a source text it ends as the session does, whatever is wrong with
the code in the text (`checked_without_fault`).
-/

namespace PhpDoc

variable {s : Stream} {config : Config} {c : Session} {v : Violation} {vs : List Violation}

/-- Every finding at a token is anchored. -/
theorem Lint.anchored_checkToken (hs : s.Sound) {t : Token} (ht : s.Has t)
    (h : checkToken config s t = .ok vs) : ∀ v ∈ vs, v.Anchored s := by
  have single : ∀ w : Violation, w.Anchored s → ∀ v ∈ [w], v.Anchored s := fun w hw v hv =>
    Violation.anchored_of_mem_singleton hv hw
  unfold checkToken at h
  split at h
  · next hkind =>
      obtain ⟨c, hc, -, hfound⟩ := exists_commentAt hs ht hkind
      rw [checkBlock, hfound] at h
      cases h
      exact fun v hv => Layout.anchored_check hs.toPlaced (hs.frames hc) hv
  · unfold checkFunction at h
    simp only at h
    split at h
    · cases h
      exact single _ (Violation.anchored_error ht)
    · cases h
      exact single _ (Violation.anchored_error ht)
    · next closer hfind =>
        obtain ⟨hhas, hkind, -⟩ := Preceding.find_eq_doc hs.toPlaced hfind
        obtain ⟨c, hc, rfl, hfound⟩ := exists_commentClosedAt hs hhas hkind
        rw [hfound] at h
        cases h
        exact fun v hv => FunctionRule.anchored_checkComment hs.toPlaced (hs.frames hc) ht hv
  · split at h
    · unfold checkProperty at h
      split at h
      · cases h
        exact single _ (Violation.anchored_error ht)
      · cases h
        exact single _ (Violation.anchored_error ht)
      · next closer hfind =>
          obtain ⟨hhas, hkind, -⟩ := Preceding.find_eq_doc hs.toPlaced hfind
          obtain ⟨c, hc, rfl, hfound⟩ := exists_commentClosedAt hs hhas hkind
          rw [hfound] at h
          cases h
          exact fun v hv => PropertyRule.anchored_checkComment hs.toPlaced (hs.frames hc) hv
    · cases h
      exact fun v hv => absurd hv List.not_mem_nil
  · cases h
    exact fun v hv => absurd hv List.not_mem_nil

namespace Strict

/-! ## Tokens -/

/-- The findings at a token. -/
def checkToken (config : Config) (s : Stream) (t : Token) : Except Fault (List Violation) :=
  match t.kind with
  | .docOpen => do
      let b ← block s t.index
      layout s b
  | .function => checkFunction config s t
  | .variable => do
      if ← isProperty s t then checkProperty s t else .ok []
  | _ => .ok []

/-- A token of a source text is checked without a fault. -/
theorem checkToken_eq_ok (hs : s.Sound) (hl : s.Linked)
    (hversion : Version.parse config.version.text = .ok config.version) {t : Token}
    (ht : s.Has t) (h : Lint.checkToken config s t = .ok vs) : checkToken config s t = .ok vs := by
  unfold Lint.checkToken at h
  split at h
  · next hkind =>
      obtain ⟨c, hc, rfl, hfound⟩ := Lint.exists_commentAt hs ht hkind
      rw [Lint.checkBlock, hfound] at h
      cases h
      simp only [checkToken, hkind, block_eq_ok hs hc, ok_bind]
      exact layout_eq_ok hs.toPlaced (hs.frames hc)
  · next hkind =>
      simp only [checkToken, hkind]
      exact checkFunction_eq_ok hs hl hversion ht h
  · next hkind =>
      simp only [checkToken, hkind, isProperty_eq_ok hs.toPlaced hl ht, ok_bind]
      split at h
      · next hproperty =>
          rw [if_pos hproperty]
          exact checkProperty_eq_ok hs hl ht h
      · next hother =>
          cases h
          rw [if_neg hother]
  · next hopen hfunction hvariable =>
      cases h
      unfold checkToken
      split
      · next hkind => exact absurd hkind hopen
      · next hkind => exact absurd hkind hfunction
      · next hkind => exact absurd hkind hvariable
      · rfl

/-! ## Findings -/

/-- The edit with the text of its token. -/
def reread (s : Stream) (e : Edit) : Except Fault Edit :=
  (fetch s e.index).map fun t => { e with oldText := t.text }

/-- An edit of a token of the stream reads its text again without a fault. -/
theorem reread_eq_ok {e : Edit} (he : e.Fits s) : reread s e = .ok e := by
  obtain ⟨t, ht, hindex, htext⟩ := he
  rw [reread, hindex, fetch_has ht, map_ok, ← hindex, ← htext]

/-- The fix with the texts of its tokens. -/
def rereadAll (s : Stream) : Option (List Edit) → Except Fault (Option (List Edit))
  | none => .ok none
  | some edits => (edits.mapM (reread s)).map some

/-- The finding with the place of its token and the texts of the tokens of its fix. -/
def restate (s : Stream) (v : Violation) : Except Fault Violation := do
  let t ← fetch s v.index
  let fix ← rereadAll s v.fix
  return { v with line := t.line, column := t.column, fix := fix }

/-- An anchored finding is stated again without a fault. -/
theorem restate_eq_ok (hv : v.Anchored s) (hfits : ∀ e ∈ v.edits, e.Fits s) :
    restate s v = .ok v := by
  obtain ⟨t, ht, hindex, hline, hcolumn⟩ := hv
  have hfix : rereadAll s v.fix = .ok v.fix := by
    unfold rereadAll
    cases hfix : v.fix with
    | none => rfl
    | some edits =>
        have hedits : ∀ e ∈ edits, reread s e = .ok e := fun e he =>
          reread_eq_ok (hfits e (by rwa [Violation.edits, hfix]))
        simp only [mapM_eq_ok hedits, List.map_id', map_ok]
  rw [restate, hindex, fetch_has ht, ok_bind, hfix, ok_bind, ← hline, ← hcolumn, ← hindex]
  rfl

/-! ## Sessions -/

/-- Propose edits to a fixer that has to have their tokens. -/
def propose (f : Fixer) (edits : List Edit) : Except Fault Fixer :=
  match f.propose edits with
  | (_, .outOfRange index) => .error (.outside index)
  | (next, _) => .ok next

/-- Edits in the range of a fixer are proposed without a fault. -/
theorem propose_eq_ok {f : Fixer} {edits : List Edit} (h : ∀ e ∈ edits, e.index < f.texts.size) :
    propose f edits = .ok (f.after [edits]) := by
  have hpropose := f.propose_eq edits
  have hrange := Fixer.verdict_ne_outOfRange h
  unfold propose
  rw [Fixer.after_cons, Fixer.after_nil, hpropose]
  cases hverdict : f.verdict edits with
  | accepted => rfl
  | rejected obstacle => rfl
  | outOfRange i => exact absurd hverdict (hrange i)

/-- Record a finding and propose its fix. -/
def report (c : Session) (v : Violation) : Except Fault Session := do
  let w ← restate c.stream v
  match w.fix, c.fixer with
  | some edits, some f =>
      let next ← propose f edits
      return { c with findings := c.findings ++ [w], fixer := some next }
  | _, _ => return { c with findings := c.findings ++ [w] }

/-- An anchored finding, the edits of which fit, is recorded without a fault. -/
theorem report_eq_ok (hc : c.Over) (hv : v.Anchored c.stream)
    (hfits : ∀ e ∈ v.edits, e.Fits c.stream) : report c v = .ok (c.extend [v]) := by
  obtain ⟨stream, config, findings, fixer⟩ := c
  unfold report Session.extend
  rw [restate_eq_ok hv hfits, ok_bind]
  cases hfix : v.fix with
  | none => simp [hfix]
  | some edits =>
      cases fixer with
      | none => simp
      | some f =>
          have hrange : ∀ e ∈ edits, e.index < f.texts.size := by
            intro e he
            obtain ⟨t, ht, hindex, -⟩ := hfits e (by rwa [Violation.edits, hfix])
            rw [hc f rfl, hindex]
            exact ht.index_lt_size
          simp only [propose_eq_ok hrange, ok_bind, pure_eq_ok, List.filterMap_cons, hfix,
            List.filterMap_nil, Option.map_some]

/-- Report findings one after the other. -/
def reportAll (c : Session) : List Violation → Except Fault Session
  | [] => .ok c
  | v :: vs => do
      let next ← report c v
      reportAll next vs

/-- Anchored findings, the edits of which fit, are recorded without a fault. -/
theorem reportAll_eq_ok (hc : c.Over)
    (hvs : ∀ v ∈ vs, v.Anchored c.stream ∧ ∀ e ∈ v.edits, e.Fits c.stream) :
    reportAll c vs = .ok (c.extend vs) := by
  induction vs generalizing c with
  | nil => rw [reportAll, Session.extend_nil]
  | cons v vs ih =>
      obtain ⟨⟨hv, hfits⟩, hvs⟩ := List.forall_mem_cons.1 hvs
      rw [reportAll, report_eq_ok hc hv hfits, ok_bind, ih (hc.extend [v]) hvs,
        ← Session.extend_append]
      rfl

/-- Check tokens one after the other, and report what is found at each before going on. -/
def walk (c : Session) : List Token → Except Fault Session
  | [] => .ok c
  | t :: ts => do
      let findings ← checkToken c.config c.stream t
      let next ← reportAll c findings
      walk next ts

/-- The session over all tokens of the stream. -/
def run (config : Config) (s : Stream) (fixer : Option Fixer) : Except Fault Session :=
  walk ⟨s, config, [], fixer⟩ s.tokens.toList

/-- A walk over tokens of a source text has no fault, and ends as the walk of the session does. -/
theorem walk_eq_ok (hs : c.stream.Sound) (hl : c.stream.Linked)
    (hversion : Version.parse c.config.version.text = .ok c.config.version) (hc : c.Over)
    {ts : List Token} (hts : ∀ t ∈ ts, c.stream.Has t) :
    ∃ last, (ts.forM Check.token).run c = .ok ((), last) ∧ walk c ts = .ok last := by
  induction ts generalizing c with
  | nil => exact ⟨c, rfl, rfl⟩
  | cons t ts ih =>
      obtain ⟨ht, hts⟩ := List.forall_mem_cons.1 hts
      obtain ⟨vs, hcheck, heffective⟩ := Lint.exists_checkToken c.config hs ht
      have hanchored := Lint.anchored_checkToken hs ht hcheck
      obtain ⟨last, hsession, hstrict⟩ :=
        ih (c := c.extend vs) hs hl hversion (hc.extend vs) hts
      refine ⟨last, ?_, ?_⟩
      · have htoken := (Check.reports_token hcheck).run_eq hc fun v hv =>
          (heffective v hv).inRange hs
        show ((Check.token t >>= fun _ => ts.forM Check.token).run c) = _
        rw [StateT.run_bind, htoken]
        exact hsession
      · have hreport := reportAll_eq_ok hc fun v hv =>
          ⟨hanchored v hv, fun e he => (heffective v hv).fits hs he⟩
        rw [walk, checkToken_eq_ok hs hl hversion ht hcheck, ok_bind, hreport, ok_bind]
        exact hstrict

/-- A strict session over the stream of a text ends as the session does. -/
theorem run_eq_ok (hs : s.Sound) (hl : s.Linked)
    (hversion : Version.parse config.version.text = .ok config.version) {fixer : Option Fixer}
    (hfixer : ∀ f, fixer = some f → f.texts.size = s.size)
    (h : Session.run config s fixer = .ok c) : run config s fixer = .ok c := by
  have htokens : ∀ t ∈ s.tokens.toList, s.Has t := fun t => (Stream.has_iff_mem hs.toPlaced).2
  obtain ⟨last, hsession, hstrict⟩ :=
    walk_eq_ok (c := ⟨s, config, [], fixer⟩) hs hl hversion hfixer htokens
  rw [Session.run, hsession] at h
  cases h
  exact hstrict

end Strict

/-- Checking a text never fails on a read. Under every configuration that a mapping gives, and with
a fresh fixer as well as without one, a strict session over the stream of a text has no fault: every
index that is read has a token, every marker that is looked up has its partner, the tags of a comment
are as many as their ends, the walks to a comment and to an exit move on, and every padding has at
least one space. It ends as the session does, with the findings of a check of the text. -/
theorem checked_without_fault {fields : List (String × Value)}
    (hconfig : Config.ofFields fields = .ok config) {text : String}
    (h : tokenize text = .ok s) :
    ∃ findings, Lint.check config text = .ok findings ∧
      Session.run config s none = .ok ⟨s, config, findings, none⟩ ∧
      Strict.run config s none = .ok ⟨s, config, findings, none⟩ ∧
      ∃ f, Session.run config s (some (Fixer.ofStream s)) = .ok ⟨s, config, findings, some f⟩ ∧
        Strict.run config s (some (Fixer.ofStream s)) = .ok ⟨s, config, findings, some f⟩ := by
  have hsound := Stream.sound_of_tokenize h
  have hlinked := Stream.linked_of_tokenize h
  have hversion := Config.parse_version hconfig
  obtain ⟨findings, hstream, heffective, hcheck, -⟩ := Pass.exists_run config h
  have hrange := fun v hv => (heffective v hv).inRange hsound
  have hfresh : ∀ f, some (Fixer.ofStream s) = some f → f.texts.size = s.size := by
    intro f hf
    rw [← Option.some.inj hf]
    exact (Fixer.took_ofStream s).size
  have hnone : Session.run config s none = .ok ⟨s, config, findings, none⟩ :=
    Session.run_eq hstream hrange nofun
  have hsome := Session.run_eq hstream hrange hfresh
  exact ⟨findings, hcheck, hnone, Strict.run_eq_ok hsound hlinked hversion nofun hnone, _, hsome,
    Strict.run_eq_ok hsound hlinked hversion hfresh hsome⟩

/-- Brackets without a partner, a function whose parameter list never ends, a tag that ends at the
close marker and an empty comment at the end of the text do no harm. -/
theorem checked_without_fault_unbalanced :
    let text := "<?php ) ] \x7b /** F\n @param int $a */ #[A] function f($a \x7b return; /***/"
    ∃ config s findings f, Config.ofFields [] = .ok config ∧ tokenize text = .ok s ∧
      findings ≠ [] ∧ Lint.check config text = .ok findings ∧
      Strict.run config s none = .ok ⟨s, config, findings, none⟩ ∧
      Strict.run config s (some (Fixer.ofStream s)) = .ok ⟨s, config, findings, some f⟩ := by
  intro text
  obtain ⟨config, hconfig, hdefault⟩ := Lint.exists_ok_of_any (x := Config.ofFields [])
    (p := fun config => decide (config = Config.default)) (by decide +kernel)
  obtain rfl := of_decide_eq_true hdefault
  obtain ⟨found, hfound, hany⟩ := Lint.exists_ok_of_any (x := Lint.check Config.default text)
    (p := fun vs => !vs.isEmpty) (by decide +kernel)
  obtain ⟨s, hs, -⟩ := Lint.exists_ok_of_any (x := tokenize text) (p := fun _ => true)
    (by decide +kernel)
  obtain ⟨findings, hcheck, -, hrun, f, -, hfresh⟩ := checked_without_fault hconfig hs
  obtain rfl : found = findings := Except.ok.inj (hfound.symm.trans hcheck)
  exact ⟨Config.default, s, found, f, hconfig, hs, by simpa using hany, hcheck, hrun, hfresh⟩

end PhpDoc
