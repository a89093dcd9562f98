import PhpDoc.Config.Basic
import PhpDoc.Policy.Exemption
import PhpDoc.Rule.Violation

/-!
# Policies

A policy decides what becomes of violations. Overrides give the violations of a rule, or of a family
of rules, another severity or drop them, and exemptions that still hold drop them in some files.
What is left keeps its order. A policy is applied to the violations of one file after the other:
its engine takes them one by one, puts those that stay on a list, and counts the others over all
files.
-/

namespace PhpDoc

/-- The overrides and exemptions in force on a day. -/
structure Policy where
  overrides : List (String × Action)
  exemptions : List Exemption
  today : Date
  deriving DecidableEq, Repr, Inhabited

/-- Why there is no policy: an exemption whose end cannot be compared with the day. -/
inductive PolicyError where
  | incomparable (exemption : Exemption)
  deriving DecidableEq, Repr, Inhabited

/-- The violations that a policy keeps and the number of those that it drops. -/
structure Filtered where
  kept : List Violation
  suppressed : Nat
  deriving DecidableEq, Repr, Inhabited

namespace Policy

/-- The policy for a day. -/
def make (overrides : List (String × Action)) (exemptions : List Exemption) (today : Date) :
    Except PolicyError Policy :=
  match exemptions.find? fun e => (e.isActive? today).isNone with
  | some e => .error (.incomparable e)
  | none => .ok ⟨overrides, exemptions, today⟩

/-- Whether an exemption holds on the day of the policy. -/
def isActive (p : Policy) (e : Exemption) : Bool :=
  (e.isActive? p.today).getD false

/-- The exemptions that no longer hold. -/
def expired (p : Policy) : List Exemption :=
  p.exemptions.filter (!p.isActive ·)

/-- The action for a rule: that of the rule itself, or else that of its family. -/
def actionFor (p : Policy) (source : String) : Option Action :=
  (p.overrides.lookup source).or (p.overrides.lookup (familyOf source))

/-- Whether an exemption in force covers the rule in the file. -/
def exempts (p : Policy) (path source : String) : Bool :=
  p.exemptions.any fun e => p.isActive e && e.covers path source

/-- Whether the policy drops a violation in the file. -/
def drops (p : Policy) (path : String) (v : Violation) : Bool :=
  p.actionFor v.source == some .ignore || p.exempts path v.source

/-- The violation with its effective severity. -/
def adjust (p : Policy) (v : Violation) : Violation :=
  match p.actionFor v.source with
  | some .error => { v with severity := .error }
  | some .warning => { v with severity := .warning }
  | _ => v

/-- Apply the policy to the violations of a file. -/
def apply (p : Policy) (path : String) (vs : List Violation) : Filtered :=
  ⟨(vs.filter (!p.drops path ·)).map p.adjust, vs.countP (p.drops path)⟩

end Policy

/-! ## Policies that keep count -/

/-- The severity that an action gives to violations. -/
def Action.severity? : Action → Option Severity
  | error => some .error
  | warning => some .warning
  | ignore => none

/-- A policy and the number of violations that it has dropped so far. -/
structure Engine where
  policy : Policy
  suppressed : Nat
  deriving DecidableEq, Repr, Inhabited

namespace Engine

/-- The engine of a policy for a day. It has dropped nothing yet. -/
def make (overrides : List (String × Action)) (exemptions : List Exemption) (today : Date) :
    Except PolicyError Engine :=
  (Policy.make overrides exemptions today).map (⟨·, 0⟩)

/-- The violation with the severity of an action, if that is another one. -/
def regrade (action : Option Action) (v : Violation) : Violation :=
  match action.bind (·.severity?) with
  | some severity => if severity = v.severity then v else { v with severity }
  | none => v

/-- Judge a violation of a file: count it, or put it behind those that stay. -/
def judge (path : String) (state : Engine × List Violation) (v : Violation) :
    Engine × List Violation :=
  let (e, kept) := state
  let action := e.policy.actionFor v.source
  if action == some .ignore || e.policy.exempts path v.source then
    ({ e with suppressed := e.suppressed + 1 }, kept)
  else (e, kept ++ [regrade action v])

/-- Apply the policy to the violations of a file. -/
def apply (e : Engine) (path : String) (vs : List Violation) : Engine × List Violation :=
  vs.foldl (judge path) (e, [])

/-- Apply the policy to the violations of several files, one after the other. -/
def applyAll (e : Engine) : List (String × List Violation) → Engine × List (List Violation)
  | [] => (e, [])
  | (path, vs) :: calls =>
      let (next, kept) := e.apply path vs
      let (last, rest) := next.applyAll calls
      (last, kept :: rest)

end Engine

end PhpDoc
