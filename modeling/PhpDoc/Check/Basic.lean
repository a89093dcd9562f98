import PhpDoc.Edit.Fixer
import PhpDoc.Lint.Check

/-!
# Sessions

A session is what all checks of a pass have in common: the stream and the configuration, what was
found so far, and the fixer that fixes are proposed to, if there is one. A check works on the
session. It can read everything in it and change everything in it, the fixer too. Reporting a
finding records it and proposes its fix at once, so that later fixes meet the fixer as the earlier
ones left it, and tells the check whether the fix was accepted.
-/

namespace PhpDoc

/-- Why a session broke off: the stream could not be checked, or a fix is at a token that the fixer
does not have. -/
inductive SessionError where
  | lint (error : LintError)
  | outOfRange (index : Nat)
  deriving DecidableEq, Repr, Inhabited

/-- The stream and the configuration of a pass, the findings so far, and the fixer, if there is
one. -/
structure Session where
  stream : Stream
  config : Config
  findings : List Violation
  fixer : Option Fixer

/-- An action on the session. -/
abbrev Check := StateT Session (Except SessionError)

namespace Check

/-- The stream of the session. -/
def stream : Check Stream :=
  return (← get).stream

/-- The configuration of the session. -/
def config : Check Config :=
  return (← get).config

/-- Record a finding. -/
def record (v : Violation) : Check Unit :=
  modify fun c => { c with findings := c.findings ++ [v] }

/-- Propose edits to the fixer, if there is one. The answer says whether they were accepted. -/
def propose (edits : List Edit) : Check Bool := do
  match (← get).fixer with
  | none => return false
  | some f =>
      match f.propose edits with
      | (next, .accepted) =>
          modify fun c => { c with fixer := some next }
          return true
      | (next, .rejected _) =>
          modify fun c => { c with fixer := some next }
          return false
      | (_, .outOfRange index) => throw (.outOfRange index)

/-- Report a finding: record it and propose its fix. The answer says whether the fix was
accepted. -/
def report (v : Violation) : Check Bool := do
  record v
  match v.fix with
  | none => return false
  | some edits => propose edits

/-- Report a finding when the condition holds, whatever becomes of its fix. -/
def reportWhen (condition : Bool) (v : Violation) : Check Unit :=
  if condition then discard (report v) else pure ()

/-- The stream cannot be checked. -/
def fail (e : LintError) : Check Unit :=
  throw (.lint e)

end Check

end PhpDoc
