import PhpDoc.Data.Value
import PhpDoc.Files.Path
import PhpDoc.Log.Record
import PhpDoc.Text.Case
import PhpDoc.Text.Cut

/-!
# Runtime settings

The environment says how a run logs, and which configuration file it uses when the command line
names none. The names of variables may be in any case, and a value given directly beats a variable.
Every setting is validated, and the invalid ones are counted.
-/

namespace PhpDoc

/-- How a run logs, and the configuration file to use. -/
structure Settings where
  logLevel : LogLevel
  logJson : Bool
  configPath : Option Path
  deriving DecidableEq, Repr, Inhabited

/-- The settings are invalid; the number of those that are. -/
structure SettingsError where
  count : Nat
  deriving DecidableEq, Repr, Inhabited

/-- The message about invalid settings. -/
def SettingsError.message (e : SettingsError) : String :=
  "Runtime settings validation failed: " ++ toString e.count ++ " error(s)"

namespace Settings

/-- The variables of an environment. -/
abbrev Environment := List (String × String)

/-- The value of a variable. Of several spellings of one name the last one counts. -/
def valueOf? (env : Environment) (name : String) : Option Value :=
  (env.reverse.find? fun (key, _) => Text.lower key == Text.lower name).map fun (_, v) => .text v

/-- The level that a value names, in any case and with white space around it. -/
def level? : Value → Option LogLevel
  | .text s => LogLevel.ofLabel? (Text.upper (Text.strip s))
  | _ => none

/-- The words for yes and for no. -/
def words : List (String × Bool) :=
  [("1", true), ("on", true), ("t", true), ("true", true), ("y", true), ("yes", true),
   ("0", false), ("off", false), ("f", false), ("false", false), ("n", false), ("no", false)]

/-- The switch that a value stands for. -/
def flag? : Value → Option Bool
  | .bool b => some b
  | .int n => if n = 0 then some false else if n = 1 then some true else none
  | .float x =>
      if x.isZero then some false else if x = .nearest false 1 0 then some true else none
  | .text s => words.lookup s.toLower
  | _ => none

/-- The path that a value stands for, or none for no value. -/
def path? : Value → Option (Option Path)
  | .null => some none
  | .text s => some (some (Path.ofText s))
  | _ => none

/-- The first of several values that is there. -/
def first? (values : List (Option Value)) : Option Value :=
  values.findSome? id

/-- The value read, or the default where there is none to read. -/
def readOr (default : α) (read : Value → Option α) : Option Value → Option α
  | none => some default
  | some v => read v

/-- The settings of an environment, where the fields of `overrides` come first. -/
def load (env : Environment) (overrides : Fields) : Except SettingsError Settings :=
  let level := readOr .warning level? <|
    first? [overrides.lookup "log_level", valueOf? env "DOCSNIFF_LOG_LEVEL"]
  let json := readOr false flag? <|
    first? [overrides.lookup "log_json", valueOf? env "DOCSNIFF_LOG_JSON"]
  let config := readOr none path? <|
    first? [overrides.lookup "DOCSNIFF_CONFIG", overrides.lookup "config_path",
      valueOf? env "DOCSNIFF_CONFIG", valueOf? env "DOCSNIFF_CONFIG_PATH"]
  match level, json, config with
  | some logLevel, some logJson, some configPath => .ok ⟨logLevel, logJson, configPath⟩
  | _, _, _ => .error ⟨[level.isNone, json.isNone, config.isNone].count true⟩

end Settings

end PhpDoc
