import PhpDoc.Edit.Changeset

/-!
# Violations

A violation is one finding: the family and the code of the rule, a message, the token at which it
was found, a severity and, for violations that can be fixed, the edits of the fix.
-/

namespace PhpDoc

/-- How bad a violation is. -/
inductive Severity where
  | error
  | warning
  deriving DecidableEq, Repr, Inhabited

/-- The written name of a severity. -/
def Severity.label : Severity → String
  | .error => "error"
  | .warning => "warning"

/-- A single finding. -/
structure Violation where
  family : String
  code : String
  message : String
  index : Nat
  line : Nat
  column : Nat
  severity : Severity
  fix : Option (List Edit)
  deriving DecidableEq, Repr, Inhabited

namespace Violation

/-- The stable name of the violated rule: family and code. -/
def source (v : Violation) : String := v.family ++ "." ++ v.code

/-- Whether the violation comes with a fix. -/
def fixable (v : Violation) : Bool := v.fix.isSome

/-- The edits of the fix, none without a fix. -/
def edits (v : Violation) : List Edit := v.fix.getD []

/-- An error at a token without a fix. -/
def error (family code message : String) (t : Token) : Violation :=
  ⟨family, code, message, t.index, t.line, t.column, .error, none⟩

/-- A warning at a token without a fix. -/
def warning (family code message : String) (t : Token) : Violation :=
  { error family code message t with severity := .warning }

/-- An error at a token that the changeset fixes. -/
def fixed (family code message : String) (t : Token) (fix : Changeset) : Violation :=
  { error family code message t with fix := some fix.edits }

end Violation

/-- The finding `v` when the condition holds. -/
def report (condition : Bool) (v : Violation) : List Violation :=
  if condition then [v] else []

end PhpDoc
