import PhpDoc.Config.Basic
import PhpDoc.Lint.Check
import PhpDoc.Text.Utf8

/-!
# Failures

Findings never stop a run; failures of the machinery around them do: settings, allowlists and
sources that cannot be read or are invalid. A failure has a kind with a stable code and a status, a
message, fields of context and the name of what caused it.
-/

namespace PhpDoc

/-- The stable codes of failures. -/
inductive FailureCode where
  | configuration
  | allowlist
  | sourceRead
  | tokenize
  | runtime
  deriving DecidableEq, Repr, Inhabited

namespace FailureCode

/-- The written form of a code. -/
def label : FailureCode → String
  | configuration => "configuration-error"
  | allowlist => "allowlist-error"
  | sourceRead => "source-read-failed"
  | tokenize => "tokenize-failed"
  | runtime => "runtime-error"

/-- The code with the written form `s`. -/
def ofLabel? (s : String) : Option FailureCode :=
  [configuration, allowlist, sourceRead, tokenize, runtime].find? (·.label == s)

end FailureCode

/-- The kinds of failures. -/
inductive FailureKind where
  | general
  | configuration
  | allowlist
  | sourceRead
  | tokenize
  deriving DecidableEq, Repr, Inhabited

namespace FailureKind

/-- The name of a kind, which is the title of its failures. -/
def name : FailureKind → String
  | general => "DocsniffError"
  | configuration => "ConfigurationError"
  | allowlist => "AllowlistError"
  | sourceRead => "SourceReadError"
  | tokenize => "TokenizeError"

/-- The kind with the name `s`. -/
def ofName? (s : String) : Option FailureKind :=
  [general, configuration, allowlist, sourceRead, tokenize].find? (·.name == s)

/-- The code of a failure that names no other one. -/
def code : FailureKind → FailureCode
  | general => .runtime
  | configuration => .configuration
  | allowlist => .allowlist
  | sourceRead => .sourceRead
  | tokenize => .tokenize

/-- The status of a failure that names no other one. -/
def status : FailureKind → Int
  | general => 500
  | configuration => 400
  | allowlist => 400
  | sourceRead => 500
  | tokenize => 422

end FailureKind

/-- A failure of the machinery. -/
structure Failure where
  kind : FailureKind
  message : String
  code : FailureCode
  status : Int
  context : List (String × Value)
  cause : Option String
  deriving Repr, Inhabited

namespace Failure

/-- A failure with the code and the status of its kind. -/
def make (kind : FailureKind) (message : String) (context : List (String × Value))
    (cause : Option String) : Failure :=
  ⟨kind, message, kind.code, kind.status, context, cause⟩

/-- The failure to take a source text apart. -/
def tokenize (message : String) (line column : Int) : Failure :=
  make .tokenize message [("line", .int line), ("column", .int column)] none

/-- The failure at an unterminated construct. -/
def ofSyntax (e : SyntaxError) : Failure :=
  tokenize e.construct.unterminated e.position.line e.position.column

/-- The failure in one line: kind, code, message and cause. -/
def text (f : Failure) : String :=
  f.kind.name ++ "[" ++ f.code.label ++ "]: " ++ f.message ++
    f.cause.elim "" fun cause => " (caused by: " ++ cause ++ ")"

end Failure

/-- The message about an invalid configuration. Digits that cannot be read have none: they are no
failure of the configuration but of reading the number. -/
def ConfigError.message? : ConfigError → Option String
  | .unknownKeys keys => some ("Unknown docsniff config keys: " ++ Text.join ", " keys)
  | .version (.malformed text) => some ("Invalid minimum_language_version: " ++ Quoted.text text)
  | .version .unreadable => none
  | .passes found => some ("max_fix_passes must be a positive integer, got " ++ found.quoted)
  | .notTexts key found =>
      some (key ++ " must be a string or a list of strings, got " ++ found.quoted)
  | .overridesShape => some "severity_overrides must be a table of '<Sniff>.<Code>' = action"
  | .unknownAction code found =>
      some ("Unknown severity action for " ++ code ++ ": " ++ found.quoted)

end PhpDoc
