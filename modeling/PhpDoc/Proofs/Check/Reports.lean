import PhpDoc.Check.Basic
import PhpDoc.Proofs.Edit.History
import PhpDoc.Proofs.Rule.Effective

/-!
# What a check reports

All checks of a pass share one session and could do anything to it. `Reports` says of a check that
it does nothing but report certain findings, one after the other, whatever the fixer answers, and
what its own answer is. The relation is closed under the ways in which checks are put together, so
that it is shown of each check by the rules of this module, in the order in which the check is
written. A check with this property leaves the stream and the configuration as they are and records
its findings in every session (`Reports.run_eq`).
-/

namespace PhpDoc

variable {α β ι : Type} {s : Stream} {config : Config} {c d : Session} {v : Violation}
  {vs ws : List Violation}

namespace Violation

/-- The edits of the violation are at tokens of the stream. -/
def InRange (s : Stream) (v : Violation) : Prop :=
  ∀ e ∈ v.edits, e.index < s.size

/-- The edits of an effective violation are at tokens of its stream. -/
theorem Effective.inRange (hs : s.Sound) (h : v.Effective s) : v.InRange s := by
  intro e he
  obtain ⟨t, ht, hindex, -⟩ := h.fits hs he
  rw [hindex]
  exact ht.index_lt_size

end Violation

namespace Session

/-- The fixer of the session, if it has one, is one of the stream of the session. -/
def Over (c : Session) : Prop :=
  ∀ f, c.fixer = some f → f.texts.size = c.stream.size

/-- The session after the findings were recorded and their fixes were proposed. -/
def extend (c : Session) (vs : List Violation) : Session :=
  { c with
    findings := c.findings ++ vs
    fixer := c.fixer.map (·.after (vs.filterMap (·.fix))) }

/-- Without findings a session stays as it is. -/
@[simp] theorem extend_nil (c : Session) : c.extend [] = c := by
  simp [extend]

/-- Findings are recorded one after the other. -/
theorem extend_append (c : Session) (vs ws : List Violation) :
    c.extend (vs ++ ws) = (c.extend vs).extend ws := by
  unfold extend
  simp only [List.append_assoc, List.filterMap_append, Option.map_map, Session.mk.injEq, true_and]
  exact congrArg (Option.map · c.fixer) (funext fun f => f.after_append _ _)

/-- Proposals leave the fixer one of the stream. -/
theorem Over.extend (h : c.Over) (vs : List Violation) : (c.extend vs).Over := by
  intro g hg
  obtain ⟨f, hf, rfl⟩ := Option.map_eq_some_iff.1 hg
  rw [Fixer.size_texts_after]
  exact h f hf

end Session

namespace Check

/-! ## Reporting -/

/-- Without a fixer nothing is accepted, and the session stays as it is. -/
theorem run_propose_none {edits : List Edit} (h : c.fixer = none) :
    (propose edits).run c = .ok (false, c) := by
  unfold propose
  rw [StateT.run_bind, StateT.run_get]
  simp only [pure_bind, h]
  rfl

/-- A proposal changes nothing in the session but its fixer. -/
theorem run_propose_some {edits : List Edit} {f : Fixer} (h : c.fixer = some f) :
    (propose edits).run c =
      match f.propose edits with
      | (next, .accepted) => .ok (true, { c with fixer := some next })
      | (next, .rejected _) => .ok (false, { c with fixer := some next })
      | (_, .outOfRange index) => .error (.outOfRange index) := by
  unfold propose
  rw [StateT.run_bind, StateT.run_get]
  simp only [pure_bind, h]
  obtain ⟨next, verdict⟩ := f.propose edits
  cases verdict <;> rfl

/-- A report records the finding and then proposes its fix. -/
theorem run_report (v : Violation) (c : Session) :
    (report v).run c =
      match v.fix with
      | none => .ok (false, { c with findings := c.findings ++ [v] })
      | some edits => (propose edits).run { c with findings := c.findings ++ [v] } := by
  unfold report record
  cases v.fix <;> rfl

/-- A proposal leaves the stream and the configuration as they are. -/
theorem keeps_propose {edits : List Edit} {accepted : Bool}
    (h : (propose edits).run c = .ok (accepted, d)) :
    d.stream = c.stream ∧ d.config = c.config := by
  cases hfixer : c.fixer with
  | none =>
      rw [run_propose_none hfixer] at h
      cases h
      exact ⟨rfl, rfl⟩
  | some f =>
      rw [run_propose_some hfixer] at h
      split at h <;> cases h
      · exact ⟨rfl, rfl⟩
      · exact ⟨rfl, rfl⟩

/-- A report leaves the stream and the configuration as they are. -/
theorem keeps_report {accepted : Bool} (h : (report v).run c = .ok (accepted, d)) :
    d.stream = c.stream ∧ d.config = c.config := by
  rw [run_report] at h
  split at h
  · cases h
    exact ⟨rfl, rfl⟩
  · exact keeps_propose (c := { c with findings := c.findings ++ [v] }) h

/-- Report findings one after the other, whatever becomes of their fixes. -/
def reportAll : List Violation → Check Unit
  | [] => pure ()
  | v :: vs => do
      discard (report v)
      reportAll vs

/-- To report two rows of findings is to report one and then the other. -/
theorem reportAll_append (vs ws : List Violation) :
    reportAll (vs ++ ws) = reportAll vs >>= fun _ => reportAll ws := by
  induction vs with
  | nil => rw [List.nil_append, reportAll, pure_bind]
  | cons v vs ih => rw [List.cons_append, reportAll, ih, reportAll, bind_assoc]

/-- The first of several findings is reported, and then the others in the session after it. -/
theorem run_reportAll_cons (v : Violation) (vs : List Violation) (c : Session) :
    (reportAll (v :: vs)).run c =
      (report v).run c >>= fun answer => (reportAll vs).run answer.2 := by
  show ((discard (report v) >>= fun _ => reportAll vs : Check Unit)).run c = _
  rw [StateT.run_bind]
  show (((report v >>= fun _ => pure ()) : Check Unit).run c >>= _) = _
  rw [StateT.run_bind, bind_assoc]
  rfl

/-- Reports leave the stream and the configuration as they are. -/
theorem keeps_reportAll (h : (reportAll vs).run c = .ok ((), d)) :
    d.stream = c.stream ∧ d.config = c.config := by
  induction vs generalizing c with
  | nil =>
      cases h
      exact ⟨rfl, rfl⟩
  | cons v vs ih =>
      rw [run_reportAll_cons] at h
      cases hreport : (report v).run c with
      | error e =>
          rw [hreport] at h
          cases h
      | ok answer =>
          obtain ⟨accepted, next⟩ := answer
          rw [hreport] at h
          obtain ⟨hstream, hconfig⟩ := keeps_report hreport
          obtain ⟨hstream', hconfig'⟩ := ih h
          exact ⟨hstream'.trans hstream, hconfig'.trans hconfig⟩

/-- A finding whose fix is in range is recorded, whatever becomes of the fix. -/
theorem run_report_eq (h : c.Over) (hv : v.InRange c.stream) :
    ∃ accepted, (report v).run c = .ok (accepted, c.extend [v]) := by
  obtain ⟨stream, config, findings, fixer⟩ := c
  rw [run_report]
  unfold Session.extend
  cases hfix : v.fix with
  | none => exact ⟨false, by simp [hfix]⟩
  | some edits =>
      cases fixer with
      | none => exact ⟨false, by simp [run_propose_none]⟩
      | some f =>
          have hedits : ∀ e ∈ edits, e.index < f.texts.size := by
            intro e he
            rw [h f rfl]
            exact hv e (by rwa [Violation.edits, hfix])
          have hpropose := f.propose_eq edits
          have hrun : (propose edits).run ⟨stream, config, findings ++ [v], some f⟩ = _ :=
            run_propose_some rfl
          simp only [hrun, List.filterMap_cons, hfix, List.filterMap_nil, Option.map_some,
            Fixer.after_cons, Fixer.after_nil]
          cases hverdict : f.verdict edits with
          | accepted =>
              rw [hverdict] at hpropose
              exact ⟨true, by rw [hpropose]⟩
          | rejected obstacle =>
              rw [hverdict] at hpropose
              exact ⟨false, by rw [hpropose]⟩
          | outOfRange i => exact absurd hverdict (Fixer.verdict_ne_outOfRange hedits i)

/-- Findings whose fixes are in range are recorded, whatever becomes of the fixes. -/
theorem run_reportAll_eq (h : c.Over) (hvs : ∀ v ∈ vs, v.InRange c.stream) :
    (reportAll vs).run c = .ok ((), c.extend vs) := by
  induction vs generalizing c with
  | nil =>
      rw [Session.extend_nil]
      rfl
  | cons v vs ih =>
      obtain ⟨hv, hvs⟩ := List.forall_mem_cons.1 hvs
      obtain ⟨accepted, hreport⟩ := run_report_eq h hv
      rw [run_reportAll_cons, hreport]
      show (reportAll vs).run (c.extend [v]) = _
      rw [ih (h.extend [v]) hvs, ← Session.extend_append]
      rfl

/-! ## Checks that do nothing but report -/

/-- In every session over the stream with the configuration the check does nothing but report the
findings `vs`, and its answer is `a`. What the fixer holds, and what it answers, makes no
difference. -/
def Reports (s : Stream) (config : Config) (x : Check α) (a : α) (vs : List Violation) : Prop :=
  ∀ c : Session, c.stream = s → c.config = config →
    x.run c = (reportAll vs >>= fun _ => pure a).run c

namespace Reports

variable {x : Check α} {f : α → Check β} {a : α} {b : β}

/-- An answer without a report. -/
theorem pure (a : α) : Reports s config (Pure.pure a) a [] := by
  intro c _ _
  rw [reportAll, pure_bind]

/-- One check after the other, which may use the answer of the first. -/
theorem bind (hx : Reports s config x a vs) (hf : Reports s config (f a) b ws) :
    Reports s config (x >>= f) b (vs ++ ws) := by
  intro c hstream hconfig
  rw [reportAll_append, bind_assoc, StateT.run_bind, StateT.run_bind, hx c hstream hconfig,
    StateT.run_bind]
  cases hreports : (reportAll vs).run c with
  | error e => rfl
  | ok answer =>
      -- the reports leave the stream and the configuration to the second check
      obtain ⟨hstream', hconfig'⟩ := keeps_reportAll hreports
      exact hf answer.2 (hstream'.trans hstream) (hconfig'.trans hconfig)

/-- A computation without a report, and then a check that uses what was computed. -/
theorem computed (hx : Reports s config x a []) (hf : Reports s config (f a) b ws) :
    Reports s config (x >>= f) b ws :=
  hx.bind hf

/-- A check, and then an answer. -/
theorem answer (hx : Reports s config x a vs) (b : β) :
    Reports s config (x >>= fun _ => Pure.pure b) b vs := by
  have h := hx.bind (f := fun _ => Pure.pure b) (pure b)
  rwa [List.append_nil] at h

/-- A check that reads the stream. -/
theorem readStream {f : Stream → Check β} (h : Reports s config (f s) b vs) :
    Reports s config (Check.stream >>= f) b vs := by
  intro c hstream hconfig
  rw [← h c hstream hconfig, ← hstream]
  rfl

/-- A check that reads the configuration. -/
theorem readConfig {f : Config → Check β} (h : Reports s config (f config) b vs) :
    Reports s config (Check.config >>= f) b vs := by
  intro c hstream hconfig
  rw [← h c hstream hconfig, ← hconfig]
  rfl

/-- The report of one finding. -/
theorem report (v : Violation) : Reports s config (discard (Check.report v)) () [v] := by
  intro c _ _
  rw [reportAll, reportAll, bind_pure_unit, bind_pure_unit]

/-- The report of a finding under a condition. -/
theorem reportWhen (condition : Bool) (v : Violation) :
    Reports s config (Check.reportWhen condition v) () (PhpDoc.report condition v) := by
  cases condition with
  | true => exact report v
  | false => exact pure ()

/-- A check of each member of a list in turn. -/
theorem forM {l : List ι} {f : ι → Check Unit} {g : ι → List Violation}
    (h : ∀ i ∈ l, Reports s config (f i) () (g i)) :
    Reports s config (l.forM f) () (l.flatMap g) := by
  induction l with
  | nil => exact pure ()
  | cons i l ih =>
      obtain ⟨hi, hl⟩ := List.forall_mem_cons.1 h
      exact hi.bind (ih hl)

/-- A check with such a property records its findings in every session, with any fixer of the
stream and without one. -/
theorem run_eq (h : Reports c.stream c.config x a vs) (hover : c.Over)
    (hvs : ∀ v ∈ vs, v.InRange c.stream) : x.run c = .ok (a, c.extend vs) := by
  rw [h c rfl rfl, StateT.run_bind, run_reportAll_eq hover hvs]
  rfl

end Reports

end Check

end PhpDoc
