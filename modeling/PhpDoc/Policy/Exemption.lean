import PhpDoc.Data.Value
import PhpDoc.Policy.Glob
import PhpDoc.Text.Cut

/-!
# Exemptions

An allowlist exempts violations in some files until a date. Each entry names the files by a path
pattern, the violations by a rule or a family of rules, a justification, and the last day on which
it holds.
-/

namespace PhpDoc

/-- The end of an exemption: a day, or a moment on a day. -/
inductive Expiry where
  | day (d : Date)
  | moment (d : Date) (time : Clock)
  deriving DecidableEq, Repr, Inhabited

/-- The written form of an expiry. -/
def Expiry.text : Expiry → String
  | day d => d.iso
  | moment d time => d.iso ++ "T" ++ time.text

/-- An entry of an allowlist. -/
structure Exemption where
  path : String
  code : String
  justification : String
  expiry : Expiry
  deriving DecidableEq, Repr, Inhabited

/-- Why an entry is no exemption, with its place in the list. -/
inductive ExemptionError where
  | notMapping (place : Nat)
  | incomplete (place : Nat)
  | invalidExpiry (place : Nat) (found : Value)
  deriving Repr, Inhabited

/-- The message about an invalid entry. -/
def ExemptionError.message : ExemptionError → String
  | notMapping place => "Allowlist entry " ++ toString place ++ " must be a mapping"
  | incomplete place =>
      "Allowlist entry " ++ toString place ++
        " requires path, code, justification and expires_on"
  | invalidExpiry place found =>
      "Invalid expires_on value in allowlist entry " ++ toString place ++ ": " ++ found.plain

/-- The family of a rule: the part of its name before the first dot. -/
def familyOf (source : String) : String :=
  Text.before '.' source

namespace Exemption

/-- The text of a field without white space around it, empty when the field is missing. -/
def textField (fields : List (String × Value)) (key : String) : String :=
  Text.strip ((fields.lookup key).elim "" (·.plain))

/-- The value of the expiry field, under either spelling of its key. -/
def expiryField (fields : List (String × Value)) : Value :=
  let first := (fields.lookup "expires_on").getD .null
  if first.isBlank then (fields.lookup "expires-on").getD .null else first

/-- The expiry that a value gives. -/
def expiry? : Value → Option Expiry
  | .date d => some (.day d)
  | .moment d time => some (.moment d time)
  | v => (Date.parse? v.plain).map .day

/-- The exemption of the entry at the given place. -/
def ofEntry (place : Nat) : Value → Except ExemptionError Exemption
  | .map fields =>
      let path := textField fields "path"
      let code := textField fields "code"
      let justification := textField fields "justification"
      let found := expiryField fields
      if path.isEmpty || code.isEmpty || justification.isEmpty || found.isBlank then
        .error (.incomplete place)
      else match expiry? found with
        | some expiry => .ok ⟨path, code, justification, expiry⟩
        | none => .error (.invalidExpiry place found)
  | _ => .error (.notMapping place)

/-- The exemptions of the entries of an allowlist, in order. -/
def ofEntries (entries : List Value) : Except ExemptionError (List Exemption) :=
  entries.zipIdx.mapM fun (entry, place) => ofEntry place entry

/-- Whether the exemption still holds on a day. A moment cannot be compared with a day. -/
def isActive? (today : Date) (e : Exemption) : Option Bool :=
  match e.expiry with
  | .day d => some (today.le d)
  | .moment _ _ => none

/-- Whether the exemption names the rule or its family, and the path. -/
def covers (e : Exemption) (path source : String) : Bool :=
  (e.code == source || e.code == familyOf source) &&
    (path == e.path || Glob.accepts e.path path)

end Exemption

end PhpDoc
