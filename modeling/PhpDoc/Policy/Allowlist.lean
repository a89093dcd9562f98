import PhpDoc.Files.Disk
import PhpDoc.Policy.Exemption
import PhpDoc.Problem.Failure
import PhpDoc.Yaml.Document

/-!
# Allowlists

An allowlist is a document with a list of exemptions under one key. A document or a list that is
absent or empty exempts nothing.
-/

namespace PhpDoc

/-- Why there is no allowlist: the file cannot be read, is not text, is not well-formed or holds an
impossible date, or the document has another form. -/
inductive AllowlistError where
  | unreadable
  | undecodable (cause : Utf8.Error)
  | malformed
  | impossibleDate
  | notMapping
  | notList
  | entry (cause : ExemptionError)
  deriving Repr, Inhabited

namespace Allowlist

/-- The key of the list of exemptions. -/
def key : String := "exceptions"

/-- The value, or an empty mapping for a value that counts as absent. -/
def documentOf (v : Value) : Value :=
  if v.isBlank then .map [] else v

/-- The entries under a value of the key. -/
def entriesOf (v : Value) : Except AllowlistError (List Value) :=
  if v.isBlank then .ok []
  else match v with
    | .list entries => .ok entries
    | _ => .error .notList

/-- The exemptions of a document. -/
def ofValue (v : Value) : Except AllowlistError (List Exemption) :=
  match documentOf v with
  | .map fields => do
      let entries ← entriesOf ((fields.lookup key).getD .null)
      (Exemption.ofEntries entries).mapError .entry
  | _ => .error .notMapping

/-- The exemptions in a file. -/
def load (d : Disk) (path : Path) : Except AllowlistError (List Exemption) := do
  let some bytes := d.read? path | throw .unreadable
  let text ← (Utf8.decode bytes).mapError .undecodable
  let document ← (Yaml.read text).mapError fun
    | .malformed => .malformed
    | .impossibleDate => .impossibleDate
  ofValue document

end Allowlist

namespace AllowlistError

/-- The detail of a malformed document. -/
def malformedDetail : String := "the document is not well-formed"

/-- The failure to read the allowlist in the file `path`, in the words for the user. Bytes that are
no text and impossible dates are no failures of this kind. -/
def failure? (path : Path) : AllowlistError → Option Failure
  | unreadable => some (atPath ("Cannot read allowlist " ++ path.text))
  | undecodable _ => none
  | malformed =>
      some (atPath ("Invalid YAML in allowlist " ++ path.text ++ ": " ++ malformedDetail))
  | impossibleDate => none
  | notMapping =>
      some (atPath
        ("Allowlist " ++ path.text ++ " must be a mapping with an 'exceptions' list"))
  | notList => some (atPath ("'exceptions' in " ++ path.text ++ " must be a list"))
  | entry cause => some (.make .allowlist cause.message [] none)
where
  /-- The failure with a message and the path as its context. -/
  atPath (message : String) : Failure :=
    .make .allowlist message [("path", .text path.text)] none

end AllowlistError

end PhpDoc
