import PhpDoc.Files.Disk
import PhpDoc.Problem.Failure
import PhpDoc.Toml.Document

/-!
# Finding the configuration

A configuration file is named on the command line, or else in the environment. Where neither names
one, it is searched for in a directory and all directories above it: a file of its own, or the
section of a project file. Without any file the built-in settings apply. A project file that is
malformed has no section.
-/

namespace PhpDoc

/-- Who chose a configuration. -/
inductive ConfigSource where
  | commandLine
  | environment
  | discovered
  | project
  | builtin
  deriving DecidableEq, Repr, Inhabited

/-- The variable that names a configuration file. -/
def configVariable : String := "DOCSNIFF_CONFIG"

/-- The written name of who chose a configuration. -/
def ConfigSource.label : ConfigSource → String
  | commandLine => "cli"
  | environment => "env:" ++ configVariable
  | discovered => "default"
  | project => "pyproject"
  | builtin => "builtin"

/-- The file that is used, if any, and who chose it. -/
structure ConfigChoice where
  path : Option Path
  source : ConfigSource
  deriving DecidableEq, Repr, Inhabited

/-- Why there is no configuration: the chosen file does not exist, is not well-formed, is not text,
or holds no configuration. -/
inductive ConfigFailure where
  | notFound (path : Path) (source : ConfigSource)
  | malformed (path : Path)
  | undecodable (path : Path) (cause : Utf8.Error)
  | invalid (cause : ConfigError)
  deriving Repr, Inhabited

/-- The outcome of loading a configuration, and the files that were read on the way to it. -/
structure ConfigLoad where
  read : List Path
  outcome : Except ConfigFailure (Config × ConfigChoice)

namespace ConfigFailure

/-- The detail of a malformed document. -/
def malformedDetail : String := "the document is not well-formed"

/-- The failure, in the words for the user. Bytes that are no text and digits that are no number
are no failures of this kind. -/
def failure? : ConfigFailure → Option Failure
  | notFound path source =>
      some (.make .configuration
        ("Config file not found: " ++ path.text ++ " (from " ++ source.label ++ ")")
        [("path", .text path.text)] none)
  | malformed path =>
      some (.make .configuration ("Invalid TOML in " ++ path.text ++ ": " ++ malformedDetail)
        [("path", .text path.text)] none)
  | undecodable _ _ => none
  | invalid cause => cause.message?.map fun message => .make .configuration message [] none

end ConfigFailure

namespace ConfigLoad

/-- The name of a configuration file. -/
def fileName : String := "docsniff.toml"

/-- The name of a project file. -/
def projectName : String := "pyproject.toml"

/-- The fields of a file. -/
def fieldsOf (d : Disk) (path : Path) (source : ConfigSource) : Except ConfigFailure Fields := do
  let some bytes := d.read? path | throw (.notFound path source)
  let text ← (Utf8.decode bytes).mapError (.undecodable path)
  (Toml.read? text).elim (.error (.malformed path)) .ok

/-- The section of a project file, if it has one. -/
def section? (fields : Fields) : Option Value :=
  (fields.lookup "tool").bind (·.field? "docsniff")

/-- The fields of a value that is a mapping. -/
def mappingFields : Option Value → Fields
  | some (.map fields) => fields
  | _ => []

/-- Search for a configuration in the directories, in their order: the project files that were read,
and the choice. -/
def discover (d : Disk) : List Path → List Path × Except ConfigFailure ConfigChoice
  | [] => ([], .ok ⟨none, .builtin⟩)
  | directory :: rest =>
      let own := directory.append [fileName]
      let project := directory.append [projectName]
      if d.isFile own then ([], .ok ⟨some own, .discovered⟩)
      else if d.isFile project then
        match fieldsOf d project .project with
        | .error (.undecodable path cause) => ([project], .error (.undecodable path cause))
        | .ok fields =>
            if (section? fields).isSome then ([project], .ok ⟨some project, .project⟩)
            else
              let (read, choice) := discover d rest
              (project :: read, choice)
        | .error _ =>
            let (read, choice) := discover d rest
            (project :: read, choice)
      else discover d rest

/-- A directory and all directories above it, from the innermost one on. -/
def upward (directory : Path) : List Path :=
  (List.range (directory.names.length + 1)).reverse.map fun n =>
    { directory with names := directory.names.take n }

/-- Choose a configuration: by the command line, by the environment, or by a search that starts in
the directory `start`. An empty name chooses nothing. -/
def choose (d : Disk) (commandLine environment : String) (start : Path) :
    List Path × Except ConfigFailure ConfigChoice :=
  let named (text : String) : Path := (Path.ofText text).expandHome d.home
  if !commandLine.isEmpty then ([], .ok ⟨some (named commandLine), .commandLine⟩)
  else if !environment.isEmpty then ([], .ok ⟨some (named environment), .environment⟩)
  else discover d (upward (d.resolve start))

/-- The configuration in a file that was chosen. -/
def configOf (d : Disk) (path : Path) (source : ConfigSource) : Except ConfigFailure Config := do
  let fields ← fieldsOf d path source
  let own := if path.name == projectName then mappingFields (section? fields) else fields
  (Config.ofFields own).mapError .invalid

/-- Load the configuration. -/
def load (d : Disk) (commandLine environment : String) (start : Path) : ConfigLoad :=
  match choose d commandLine environment start with
  | (read, .error e) => ⟨read, .error e⟩
  | (read, .ok choice) =>
      match choice.path with
      | none => ⟨read, .ok (Config.default, choice)⟩
      | some path =>
          if d.isFile path then
            ⟨read ++ [path], (configOf d path choice.source).map (·, choice)⟩
          else ⟨read, .error (.notFound path choice.source)⟩

end ConfigLoad

end PhpDoc
