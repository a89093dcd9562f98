import PhpDoc.Report.Basic

/-!
# Written reports

A report for readers has a line for every failure and every violation, a line for every file with
fixes, and a line with the totals at the end. A report for programs is a JSON document with all that
is known about every file.
-/

namespace PhpDoc

/-! ## Reports as text -/

/-- The value of a field of a problem as text. -/
def Problem.shown (p : Problem) (key : String) : String :=
  ((p.fields.lookup key).getD .null).plain

/-- The line of a violation in a file. -/
def Violation.reportLine (path : String) (v : Violation) : String :=
  path ++ ":" ++ toString v.line ++ ":" ++ toString v.column ++ ": " ++ v.severity.label ++ ": " ++
    v.message ++ " [" ++ v.source ++ "]" ++ (if v.fixable then " (fixable)" else "") ++ "\n"

namespace FileResult

/-- The line of a file that could not be processed. -/
def failureLine (r : FileResult) : String :=
  r.problem?.elim "" fun p => r.path ++ ": " ++ p.shown "title" ++ ": " ++ p.shown "detail" ++ "\n"

/-- The line of a file with fixes. -/
def fixLine (r : FileResult) : String :=
  if r.fixedCount = 0 then ""
  else
    r.path ++ ": " ++ toString r.fixedCount ++ " fix(es) applied in " ++ toString r.passes ++
      " pass(es)" ++ (if r.converged then "" else ", not converged") ++ "\n"

/-- The lines of a file. -/
def lines (r : FileResult) : String :=
  r.failureLine ++ String.join (r.violations.map (·.reportLine r.path)) ++ r.fixLine

end FileResult

namespace Report

/-- The line with the totals. -/
def totalsLine (r : Report) : String :=
  toString r.files.length ++ " file(s) checked: " ++ toString r.errors ++ " error(s), " ++
    toString r.warnings ++ " warning(s), " ++ toString r.fixed ++ " fixed, " ++
    toString r.suppressed ++ " suppressed\n"

/-- The report as text. -/
def text (r : Report) : String :=
  String.join (r.files.map (·.lines)) ++ r.totalsLine

end Report

/-! ## Reports as JSON -/

/-- The value of a violation in a report. -/
def Violation.value (v : Violation) : Value :=
  .map [
    ("source", .text v.source), ("message", .text v.message), ("line", .int v.line),
    ("column", .int v.column), ("severity", .text v.severity.label), ("fixable", .bool v.fixable)]

/-- The value of a file in a report. -/
def FileResult.value (r : FileResult) : Value :=
  .map [
    ("path", .text r.path), ("violations", .list (r.violations.map (·.value))),
    ("fixedCount", .int r.fixedCount), ("passes", .int r.passes), ("converged", .bool r.converged),
    ("written", .bool r.written), ("error", r.problem?.elim .null fun p => .map p.fields)]

namespace Report

/-- The version of the layout of the document. -/
def schemaVersion : String := "1.0"

/-- The value of the totals of a report. -/
def totals (r : Report) : Value :=
  .map [
    ("files", .int r.files.length), ("errors", .int r.errors), ("warnings", .int r.warnings),
    ("fixed", .int r.fixed), ("suppressed", .int r.suppressed), ("failed", .int r.failed)]

/-- The value of a report. -/
def value (r : Report) : Value :=
  .map [
    ("schemaVersion", .text schemaVersion), ("generatedAt", .text r.generatedAt),
    ("command", .text r.command), ("configSource", .text r.configSource),
    ("configHash", .text r.configHash), ("files", .list (r.files.map (·.value))),
    ("totals", r.totals)]

/-- The report as indented JSON. -/
def json (r : Report) : String :=
  Json.render .indented r.value

end Report

end PhpDoc
