import PhpDoc.Edit.Fixer
import PhpDoc.Lint.Check

/-!
# Fixing a source text

A fixing pass checks the text and proposes the fix of every fixable finding to one fixer, in the
order of the findings. Fixing repeats passes, each on the text that the pass before it wrote, until
a pass accepts nothing or the limit of passes is reached.
-/

namespace PhpDoc

/-- One fixing pass: what was checked and found, what became of the proposed fixes, and the fixer
after them. -/
structure Pass where
  stream : Stream
  findings : List Violation
  verdicts : List Verdict
  fixer : Fixer

namespace Pass

/-- Propose the fixes of the findings one after the other. -/
def proposeAll (f : Fixer) : List Violation → Fixer × List Verdict
  | [] => (f, [])
  | v :: vs =>
      match v.fix with
      | none => proposeAll f vs
      | some edits =>
          let (next, verdict) := f.propose edits
          let (last, verdicts) := proposeAll next vs
          (last, verdict :: verdicts)

/-- One fixing pass over a text. -/
def run (config : Config) (text : String) : Except LintError Pass := do
  let stream ← (tokenize text).mapError .unterminated
  let findings ← Lint.checkStream config stream
  let (fixer, verdicts) := proposeAll (Fixer.ofStream stream) findings
  return ⟨stream, findings, verdicts, fixer⟩

end Pass

/-- The outcome of fixing a text. -/
structure FixResult where
  text : String
  passes : Nat
  converged : Bool
  fixedCount : Nat
  violations : List Violation
  deriving DecidableEq, Repr, Inhabited

/-- Whether a fix was applied. -/
def FixResult.changed (r : FixResult) : Bool :=
  0 < r.fixedCount

/-- The passes of a fix, and the text after them with whether the last pass accepted nothing, or the
error that stopped them. -/
structure FixRun where
  passes : List Pass
  outcome : Except LintError (String × Bool)

namespace FixRun

/-- The run of at most `limit` passes over a text. -/
def upTo (config : Config) : (limit : Nat) → (text : String) → FixRun
  | 0, text => ⟨[], .ok (text, false)⟩
  | limit + 1, text =>
      match Pass.run config text with
      | .error e => ⟨[], .error e⟩
      | .ok pass =>
          if pass.fixer.changed then
            let rest := FixRun.upTo config limit pass.fixer.text
            ⟨pass :: rest.passes, rest.outcome⟩
          else ⟨[pass], .ok (text, true)⟩

/-- The number of fixes that the passes applied. -/
def fixedCount (r : FixRun) : Nat :=
  (r.passes.map (·.fixer.accepted)).foldr (· + ·) 0

/-- The result of the run: the last text and what remains to be found in it. -/
def result (config : Config) (r : FixRun) : Except LintError FixResult := do
  let (text, converged) ← r.outcome
  let violations ← Lint.check config text
  return ⟨text, r.passes.length, converged, r.fixedCount, violations⟩

end FixRun

namespace Lint

/-- Fix a source text. -/
def fix (config : Config) (text : String) : Except LintError FixResult :=
  (FixRun.upTo config config.maxFixPasses text).result config

end Lint

end PhpDoc
