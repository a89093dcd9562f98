import PhpDoc.Problem.Details
import PhpDoc.Rule.Violation

/-!
# Reports

A report collects what a run did with each file: the violations that remain, the fixes that were
applied, and the failure that kept a file from being processed. The totals are sums over the files.
-/

namespace PhpDoc

/-- What a run did with one file: its text before and after, what remains to be reported, the fixes
applied and the passes they took, and why the file could not be processed. -/
structure FileResult where
  path : String
  violations : List Violation := []
  before : String := ""
  text : String := ""
  fixedCount : Nat := 0
  passes : Nat := 0
  converged : Bool := true
  written : Bool := false
  failure : Option Failure := none
  deriving Repr, Inhabited

namespace FileResult

/-- Whether fixing changed the text of the file. -/
def changed (r : FileResult) : Bool :=
  r.text != r.before

/-- The number of violations with a severity. -/
def countOf (severity : Severity) (r : FileResult) : Nat :=
  r.violations.countP (·.severity == severity)

/-- The number of errors. -/
def errorCount (r : FileResult) : Nat :=
  r.countOf .error

/-- The number of warnings. -/
def warningCount (r : FileResult) : Nat :=
  r.countOf .warning

/-- The problem of a file that could not be processed. -/
def problem? (r : FileResult) : Option Problem :=
  r.failure.map (·.problem ("urn:docsniff:file:" ++ r.path))

end FileResult

/-- The report of a run: the command, when the report was made, where the configuration comes from
and its fingerprint, the results by file, and the number of violations that the policy dropped. -/
structure Report where
  command : String
  generatedAt : String
  configSource : String
  configHash : String
  files : List FileResult
  suppressed : Nat
  deriving Repr, Inhabited

namespace Report

/-- The sum of a count over the files. -/
def total (r : Report) (count : FileResult → Nat) : Nat :=
  (r.files.map count).foldr (· + ·) 0

/-- The number of errors of all files. -/
def errors (r : Report) : Nat := r.total (·.errorCount)

/-- The number of warnings of all files. -/
def warnings (r : Report) : Nat := r.total (·.warningCount)

/-- The number of fixes applied to all files. -/
def fixed (r : Report) : Nat := r.total (·.fixedCount)

/-- The number of files that could not be processed. -/
def failed (r : Report) : Nat := r.files.countP (·.failure.isSome)

end Report

end PhpDoc
