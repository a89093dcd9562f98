import PhpDoc.Files.Disk
import PhpDoc.Lint.Fix
import PhpDoc.Policy.Basic
import PhpDoc.Run.Event

/-!
# Processing a file

A file is read and checked, or read and fixed. Fixing writes the file only in the mode that asks for
it, not in a dry run, and only when the text changed. What remains goes through the policy. A file
that cannot be read or taken apart is skipped, with the failure as its result.
-/

namespace PhpDoc

/-- What breaks a run off: bytes or digits that cannot be read where nothing handles it, dates that
are impossible or cannot be compared, and a marker of a doc comment without a partner. -/
inductive Interruption where
  | undecodable
  | unreadableNumber
  | impossibleDate
  | incomparableDate
  | unpairedMarker
  deriving DecidableEq, Repr, Inhabited

/-- The text and the violations of a file after checking or fixing it, with the fixes applied, the
passes they took, and whether they converged. -/
structure Treatment where
  text : String
  fixedCount : Nat
  passes : Nat
  converged : Bool
  violations : List Violation
  deriving Repr, Inhabited

/-- A file after its processing: the disk, the result, the number of violations that the policy
dropped, and what was told meanwhile. -/
structure Processed where
  disk : Disk
  result : FileResult
  suppressed : Nat
  events : List Event

namespace Process

/-- The number of lines of a source text. -/
def lineCount (s : Stream) : Nat :=
  match s.tokens.toList.getLast? with
  | none => 1
  | some t => (Position.advance ⟨t.line, t.column⟩ t.text.toList).line

/-- The event of a tokenized source text. -/
def tokenizedEvent (s : Stream) : Event :=
  .tokenized s.size (lineCount s)

/-- The events of taking a source text apart. -/
def tokenizeEvents (text : String) : List Event :=
  match tokenize text with
  | .ok s => [tokenizedEvent s]
  | .error _ => []

/-- The event of a rejected proposal. A proposal that changes nothing has none. -/
def rejection? : Verdict → Option Event
  | .rejected (some index) => some (.rejected index)
  | _ => none

/-- The events of a fixing pass. -/
def passEvents (number : Nat) (p : Pass) : List Event :=
  tokenizedEvent p.stream :: p.verdicts.filterMap rejection? ++
    [.passed number p.fixer.accepted p.fixer.rejected]

/-- The events at the end of fixing, before the last check. -/
def outcomeEvents (r : FixRun) : List Event :=
  match r.outcome with
  | .error _ => []
  | .ok (text, converged) =>
      let passes := r.passes.length
      (if !converged then [.unconverged passes]
        else if r.fixedCount = 0 then []
        else [.applied r.fixedCount passes]) ++ tokenizeEvents text

/-- The events of fixing a source text. -/
def fixEvents (r : FixRun) : List Event :=
  (r.passes.zipIdx.flatMap fun (p, i) => passEvents (i + 1) p) ++ outcomeEvents r

/-- Check a source text. -/
def checkText (config : Config) (text : String) : List Event × Except LintError Treatment :=
  (tokenizeEvents text, (Lint.check config text).map fun vs => ⟨text, 0, 0, true, vs⟩)

/-- Fix a source text. -/
def fixText (config : Config) (text : String) : List Event × Except LintError Treatment :=
  let r := FixRun.upTo config config.maxFixPasses text
  (fixEvents r,
    (r.result config).map fun f => ⟨f.text, f.fixedCount, f.passes, f.converged, f.violations⟩)

/-- Check or fix a source text. -/
def treat (mode : RunMode) (config : Config) (text : String) :
    List Event × Except LintError Treatment :=
  match mode with
  | .check => checkText config text
  | _ => fixText config text

/-- The failure to read a file. -/
def readFailure (path : Path) (reason : String) : Failure :=
  .make .sourceRead ("Cannot read " ++ path.text ++ ": " ++ reason) [("path", .text path.text)] none

/-- The text of a file. -/
def sourceText (d : Disk) (path : Path) : Except Failure String :=
  match d.read? path with
  | none => .error (readFailure path "no such file")
  | some bytes => (Utf8.decode bytes).mapError fun e => readFailure path e.message

/-- A file that is skipped because of a failure. Unless it was only to be checked, it has no text
afterwards. -/
def skip (d : Disk) (mode : RunMode) (path : Path) (before : String) (events : List Event)
    (failure : Failure) : Processed :=
  let result : FileResult :=
    { path := path.text
      before
      text := if mode == .check then before else ""
      failure := some failure }
  ⟨d, result, 0, events ++ [.skipped mode path.text failure.message]⟩

/-- Whether a treated file is written. -/
def writes (mode : RunMode) (dryRun : Bool) (before : String) (t : Treatment) : Bool :=
  mode == .fix && !dryRun && t.text != before

/-- The file after its treatment. -/
def finish (d : Disk) (mode : RunMode) (dryRun : Bool) (policy : Policy) (path : Path)
    (before : String) (events : List Event) (t : Treatment) : Processed :=
  let filtered := policy.apply path.text t.violations
  let written := writes mode dryRun before t
  let result : FileResult :=
    { path := path.text
      violations := filtered.kept
      before
      text := t.text
      fixedCount := t.fixedCount
      passes := t.passes
      converged := t.converged
      written }
  ⟨if written then d.write path t.text else d, result, filtered.suppressed,
    events ++
      [.processed mode path.text result.errorCount result.warningCount result.fixedCount]⟩

/-- Process a file. -/
def file (d : Disk) (mode : RunMode) (dryRun : Bool) (config : Config) (policy : Policy)
    (path : Path) : Except Interruption Processed :=
  match sourceText d path with
  | .error failure => .ok (skip d mode path "" [] failure)
  | .ok before =>
      match treat mode config before with
      | (events, .ok t) => .ok (finish d mode dryRun policy path before events t)
      | (events, .error (.unterminated e)) =>
          .ok (skip d mode path before events (.ofSyntax e))
      | (_, .error (.unpaired _)) => .error .unpairedMarker

/-- Several files after their processing. -/
structure Batch where
  disk : Disk
  results : List FileResult
  suppressed : Nat
  events : List Event

/-- Process files one after the other, each on the disk that the ones before it left. -/
def files (d : Disk) (mode : RunMode) (dryRun : Bool) (config : Config) (policy : Policy) :
    List Path → Except Interruption Batch
  | [] => .ok ⟨d, [], 0, []⟩
  | path :: paths => do
      let first ← file d mode dryRun config policy path
      let rest ← files first.disk mode dryRun config policy paths
      return ⟨rest.disk, first.result :: rest.results, first.suppressed + rest.suppressed,
        first.events ++ rest.events⟩

end Process

end PhpDoc
