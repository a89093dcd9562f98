/-!
# Diagnostics for the terminal

Every way in which a run can go wrong has a number, under which the terminal shows it together with
a hint how to mend it.
-/

namespace PhpDoc

/-- What is known about a way in which a run can go wrong. -/
structure Diagnostic where
  code : String
  title : String
  summary : String
  domain : String
  category : String
  severity : String
  remediation : String
  deriving DecidableEq, Repr, Inhabited

namespace Diagnostic

/-- The configuration cannot be read or is invalid. -/
def configuration : Diagnostic where
  code := "DSN-CFG-001"
  title := "Invalid linter configuration"
  summary := "docsniff.toml or [tool.docsniff] could not be parsed or validated"
  domain := "configuration"
  category := "config"
  severity := "error"
  remediation := "Check the keys and value types in docsniff.toml or [tool.docsniff]."

/-- The allowlist cannot be read or is invalid. -/
def allowlist : Diagnostic where
  code := "DSN-CFG-002"
  title := "Invalid allowlist"
  summary := "The YAML allowlist of suppressed violations could not be loaded"
  domain := "configuration"
  category := "policy"
  severity := "error"
  remediation := "Each entry needs path, code, justification and an ISO expires_on date."

/-- The settings of the environment are invalid. -/
def settings : Diagnostic where
  code := "DSN-CFG-003"
  title := "Invalid runtime settings"
  summary := "DOCSNIFF_* environment variables failed validation"
  domain := "configuration"
  category := "environment"
  severity := "error"
  remediation := "Unset or correct the DOCSNIFF_* variables reported above."

/-- A source file cannot be read or written. -/
def unreadable : Diagnostic where
  code := "DSN-SRC-001"
  title := "Source file unreadable"
  summary := "A selected source file could not be read or written"
  domain := "source"
  category := "io"
  severity := "error"
  remediation := "Verify the path exists, is UTF-8 encoded and is writable for 'fix'."

/-- A source text has a construct that never ends. -/
def unterminated : Diagnostic where
  code := "DSN-SRC-002"
  title := "Source could not be tokenized"
  summary := "The tokenizer met an unterminated comment or string literal"
  domain := "source"
  category := "syntax"
  severity := "error"
  remediation := "Close the reported comment or string literal and rerun."

/-- Fixing stopped at the limit of passes. -/
def unconverged : Diagnostic where
  code := "DSN-FIX-001"
  title := "Fixes did not converge"
  summary := "The fixer stopped after the maximum number of passes"
  domain := "fixer"
  category := "convergence"
  severity := "warning"
  remediation :=
    "Raise max_fix_passes or report the file; conflicting fixes keep rewriting it."

/-- All diagnostics. -/
def all : List Diagnostic :=
  [configuration, allowlist, settings, unreadable, unterminated, unconverged]

/-- The diagnostic with the given code. -/
def ofCode? (code : String) : Option Diagnostic :=
  all.find? (·.code == code)

/-- The message about an unknown code. -/
def unknown (code : String) : String :=
  "Unknown error code: " ++ code

/-- The text on the terminal: a header with the message, details if there are any, and the hint. -/
def text (d : Diagnostic) (message details : String) : String :=
  "[ERROR " ++ d.code ++ "] " ++ message ++
    (if details.isEmpty then "" else "\n" ++ details) ++ "\nHint: " ++ d.remediation

end Diagnostic

end PhpDoc
