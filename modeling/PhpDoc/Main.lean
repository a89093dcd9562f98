import PhpDoc.Data.Moment
import PhpDoc.Log.Record
import PhpDoc.Run.Execute
import Std.Time

/-!
# The command line

The program takes a picture of the files that a command line names, executes the command line on it,
writes the files that came out different, and prints what was put out.
-/

namespace PhpDoc.Main

/-- The files below a directory, with their places. -/
partial def walk (place : Place) (directory : String) : IO (List (Place × List UInt8)) := do
  let mut files := []
  for entry in ← (← IO.FS.realPath directory).readDir do
    let child := directory ++ "/" ++ entry.fileName
    let childPlace := place ++ [entry.fileName]
    if ← entry.path.isDir then
      files := files ++ (← walk childPlace child)
    else
      files := files ++ [(childPlace, (← IO.FS.readBinFile child).toList)]
  return files

/-- The files and the directories to which a path leads. -/
def load (place : Place) (path : String) : IO (List (Place × List UInt8) × List Place) := do
  try
    if ← (← IO.FS.realPath path).isDir then
      return (← walk place path, [place])
    else
      return ([(place, (← IO.FS.readBinFile path).toList)], [])
  catch _ => return ([], [])

/-- The value of a variable, under its name in upper and in lower case. -/
def valuesOf (name : String) : IO Settings.Environment := do
  let upper ← IO.getEnv name
  let lower ← IO.getEnv name.toLower
  return (upper.map (name, ·)).toList ++ (lower.map (name.toLower, ·)).toList

/-- The variables that settings are read from. -/
def environment : IO Settings.Environment := do
  let names :=
    ["DOCSNIFF_LOG_LEVEL", "DOCSNIFF_LOG_JSON", "DOCSNIFF_CONFIG", "DOCSNIFF_CONFIG_PATH"]
  return (← names.mapM valuesOf).flatten

/-- The paths that a command line and its environment name, and those where a configuration may be
found. -/
def namedPaths (empty : Disk) (environment : Settings.Environment) (i : Invocation) : List Path :=
  let own := Execute.roots i
  let options := [i.options.config, i.options.allowlist].map Path.ofText
  let fromEnvironment := environment.map fun (_, v) => Path.ofText v
  let found := (ConfigLoad.upward (empty.resolve (Path.ofText ""))).flatMap fun directory =>
    [directory.append [ConfigLoad.fileName], directory.append [ConfigLoad.projectName]]
  let chosen := (options ++ fromEnvironment).filter fun p => !p.names.isEmpty
  own ++ chosen.map (·.expandHome empty.home) ++ found

/-- The picture of the disk for a command line. -/
def picture (environment : Settings.Environment) (arguments : List String) : IO Disk := do
  let current ← IO.currentDir
  let home := (← IO.getEnv "HOME").getD "/"
  let empty : Disk := ⟨[], [], Path.ofText current.toString, Path.ofText home⟩
  match CommandLine.parse arguments with
  | .run i =>
      let loaded ← (namedPaths empty environment i).mapM fun path =>
        load (empty.resolve path).names path.text
      let files := loaded.flatMap (·.1)
      let directories := loaded.flatMap (·.2)
      return { empty with files := files.eraseDups, directories }
  | _ => return empty

/-- Write the files that a run changed. -/
def writeChanged (before after : Disk) : IO Unit := do
  for (place, bytes) in after.files do
    if before.files.lookup place != some bytes then
      IO.FS.writeBinFile ("/" ++ Text.join "/" place) ⟨bytes.toArray⟩

/-- What a run starts from. -/
def world (arguments : List String) : IO World := do
  let environment ← environment
  let disk ← picture environment arguments
  let now := (← Std.Time.Timestamp.now).toMillisecondsSinceUnixEpoch.val
  return {
    disk
    environment
    today := (Moment.date? now).getD default
    reportTime := Moment.seconds now
    logTime := Moment.precise now
    correlation := Correlation.ofBytes (← IO.getRandomBytes 16).toList }

/-- What is said about a run that was broken off. -/
def interrupted : Interruption → String
  | .undecodable => "a configuration file or an allowlist is not UTF-8"
  | .unreadableNumber => "a number has too many digits or digits that cannot be read"
  | .impossibleDate => "the allowlist holds an impossible date"
  | .incomparableDate => "the allowlist holds a time of day where a day is needed"
  | .unpairedMarker => "a doc comment has a marker without a partner"

end PhpDoc.Main

/-- Execute the command line. -/
def main (arguments : List String) : IO UInt32 := do
  let world ← PhpDoc.Main.world arguments
  match PhpDoc.Execute.run world arguments with
  | .error e =>
      IO.eprintln (PhpDoc.Main.interrupted e)
      return 1
  | .ok r =>
      PhpDoc.Main.writeChanged world.disk r.disk
      IO.print r.stdout
      IO.eprint r.stderr
      return UInt32.ofNat r.exitCode
