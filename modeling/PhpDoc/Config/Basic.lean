import PhpDoc.Config.Version
import PhpDoc.Data.Json
import PhpDoc.Hash.Sha256
import PhpDoc.Text.Case

/-!
# Configuration

A configuration says which language version the sources are written for, which files belong to them,
how many passes a fix may take and which violations count as errors, as warnings or not at all. It
is read from a mapping, in which a hyphen in a key is as good as an underscore. The fingerprint is
the digest of a canonical JSON text of all five settings.
-/

namespace PhpDoc

/-- What becomes of the violations of a rule. -/
inductive Action where
  | error
  | warning
  | ignore
  deriving DecidableEq, Repr, Inhabited

namespace Action

/-- The written name of an action. -/
def label : Action → String
  | error => "error"
  | warning => "warning"
  | ignore => "ignore"

/-- The action of a text, which may be in any case and with white space around it. -/
def parse? (text : String) : Option Action :=
  [error, warning, ignore].find? (·.label == Text.lower (Text.strip text))

end Action

/-- The settings of a run. -/
structure Config where
  version : Version
  extensions : List String
  exclude : List String
  maxFixPasses : Nat
  overrides : List (String × Action)
  deriving DecidableEq, Repr, Inhabited

/-- Why a mapping is no configuration. -/
inductive ConfigError where
  | unknownKeys (keys : List String)
  | version (cause : VersionError)
  | passes (found : Value)
  | notTexts (key : String) (found : Value)
  | overridesShape
  | unknownAction (code : String) (found : Value)
  deriving Repr, Inhabited

namespace Config

/-- The settings in force where nothing is configured. -/
def default : Config :=
  ⟨⟨"8.0", 8, 0⟩, ["php", "inc"], [], 50, []⟩

/-- Whether scalar types of parameters are to be declared: since version 7.0 they can be. -/
def scalarHints (c : Config) : Bool :=
  c.version.atLeast 7 0

/-- The keys of a configuration. -/
def keys : List String :=
  ["minimum_language_version", "extensions", "exclude", "max_fix_passes", "severity_overrides"]

/-- The key with underscores for hyphens. -/
def normalizeKey (key : String) : String :=
  Text.replaceChar '-' '_' key

/-- The value of a key. Of several spellings of one key the last one counts. -/
def setting? (fields : List (String × Value)) (key : String) : Option Value :=
  (fields.reverse.find? fun field => normalizeKey field.1 == key).map (·.2)

/-- The unknown keys of the fields, in ascending order. -/
def unknownKeys (fields : List (String × Value)) : List String :=
  ((fields.map (·.1)).filter fun key => !keys.contains (normalizeKey key)).mergeSort
    fun a b => !decide (b < a)

/-- The texts of a value: none, a single one, the items of a list, or the keys of a mapping. -/
def texts (key : String) : Value → Except ConfigError (List String)
  | .null => .ok []
  | .text s => .ok [s]
  | .list items => .ok (items.map (·.plain))
  | .map fields => .ok (fields.map (·.1))
  | v => .error (.notTexts key v)

/-- A file extension in lower case, without dots in front. -/
def extension (text : String) : String :=
  Text.lower (String.ofList (text.toList.dropWhile (· = '.')))

/-- The number of passes: a positive whole number. -/
def passes : Value → Except ConfigError Nat
  | .int n => if n < 1 then .error (.passes (.int n)) else .ok n.toNat
  | v => .error (.passes v)

/-- The action of one severity override. -/
def override (field : String × Value) : Except ConfigError (String × Action) :=
  match Action.parse? field.2.plain with
  | some action => .ok (field.1, action)
  | none => .error (.unknownAction field.1 field.2)

/-- The severity overrides of a value. -/
def severityOverrides : Value → Except ConfigError (List (String × Action))
  | .null => .ok []
  | .map fields => fields.mapM override
  | _ => .error .overridesShape

/-- The configuration of the fields of a mapping. -/
def ofFields (fields : List (String × Value)) : Except ConfigError Config := do
  let unknown := unknownKeys fields
  if !unknown.isEmpty then throw (.unknownKeys unknown)
  let versionText := (setting? fields "minimum_language_version").elim "8.0" (·.plain)
  let version ← (Version.parse versionText).mapError .version
  let maxFixPasses ← (setting? fields "max_fix_passes").elim (.ok 50) passes
  let extensions ← (setting? fields "extensions").elim (.ok ["php", "inc"]) (texts "extensions")
  let exclude ← texts "exclude" ((setting? fields "exclude").getD .null)
  let overrides ← severityOverrides ((setting? fields "severity_overrides").getD .null)
  return ⟨version, extensions.map extension, exclude, maxFixPasses, overrides⟩

/-- The five settings of a configuration as they are written, whether or not they can be read. -/
structure Written where
  version : String
  extensions : List String
  exclude : List String
  maxFixPasses : Int
  overrides : List (String × String)
  deriving DecidableEq, Repr, Inhabited

namespace Written

/-- The overrides in ascending order of what they are for. -/
def sortedOverrides (w : Written) : List (String × String) :=
  w.overrides.mergeSort fun a b => !decide (b.1 < a.1)

/-- The canonical value of the settings, with all keys in ascending order. -/
def canonical (w : Written) : Value :=
  .map
    [("exclude", .list (w.exclude.map .text)),
     ("extensions", .list (w.extensions.map .text)),
     ("max_fix_passes", .int w.maxFixPasses),
     ("minimum_language_version", .text w.version),
     ("severity_overrides",
       .map (w.sortedOverrides.map fun (code, action) => (code, .text action)))]

/-- The canonical JSON text of the settings. It is written for every number of passes, while a version
with more than `Version.maxDigits` digits cannot be read. -/
def canonicalText (w : Written) : String :=
  Json.render .compact w.canonical

end Written

/-- The settings of a configuration in writing, the actions by their names. -/
def written (c : Config) : Written :=
  ⟨c.version.text, c.extensions, c.exclude, c.maxFixPasses,
    c.overrides.map fun (code, action) => (code, action.label)⟩

/-- The digest of the canonical JSON text of a configuration. -/
def fingerprint (c : Config) : String :=
  Sha256.digest c.written.canonicalText

end Config

end PhpDoc
