import PhpDoc.Command.Usage
import PhpDoc.Diff.Unified
import PhpDoc.Files.Selection
import PhpDoc.Log.Record
import PhpDoc.Policy.Allowlist
import PhpDoc.Report.Text
import PhpDoc.Rule.Catalog
import PhpDoc.Run.Process
import PhpDoc.Settings

/-!
# Executing a command line

A run starts from the disk, the environment, the day and the arguments. It ends with an exit status
and a disk, and with what it printed, complained about and logged on the way, in order. Reports go
to the standard output; complaints and the log go to the standard error.
-/

namespace PhpDoc

/-- What a run starts from: the disk, the environment, the day, the time in the two forms of reports
and logs, and the correlation id. -/
structure World where
  disk : Disk
  environment : Settings.Environment
  today : Date
  reportTime : String
  logTime : String
  correlation : String

/-- Something that a run puts out. -/
inductive Output where
  | print (text : String)
  | complain (diagnostic : Diagnostic) (message : String)
  | tell (event : Event)
  deriving Repr, Inhabited

/-- A part of a run: the disk after it, what it put out, and how it ended. -/
structure Outcome where
  disk : Disk
  outputs : List Output
  status : ExitStatus

/-- A run that is over. -/
structure Finished where
  disk : Disk
  exitCode : Nat
  stdout : String
  stderr : String

namespace Execute

/-- The complaint about a failure and, in JSON, its problem. -/
def complaint (i : Invocation) (d : Diagnostic) (f : Failure) : List Output :=
  .complain d f.message ::
    if i.options.json then
      [.print ((f.problem ("urn:docsniff:cli:" ++ i.command.label)).render ++ "\n")]
    else []

/-- The events of loading a configuration. -/
def configEvents (load : ConfigLoad) : List Event :=
  load.read.map .readingConfig ++
    match load.outcome with
    | .ok (config, ⟨some _, _⟩) => [.loadedConfig config]
    | _ => []

/-- Load the configuration for an invocation. -/
def loadConfig (w : World) (settings : Settings) (i : Invocation) : ConfigLoad :=
  ConfigLoad.load w.disk i.options.config (settings.configPath.elim "" (·.text)) (Path.ofText "")

/-- Load the allowlist for an invocation. Without one nothing is exempt. -/
def loadAllowlist (w : World) (i : Invocation) :
    List Event × Except AllowlistError (List Exemption) :=
  if i.options.allowlist.isEmpty then ([], .ok [])
  else
    let path := Path.ofText i.options.allowlist
    match Allowlist.load w.disk path with
    | .ok exemptions => ([.loadedAllowlist exemptions.length path], .ok exemptions)
    | .error e => ([], .error e)

/-- How a run over files ends: with an error if a file failed, else with a violation if an error
remains or a diff is not empty. -/
def statusOf (mode : RunMode) (results : List FileResult) : ExitStatus :=
  if results.any (·.failure.isSome) then .error
  else if results.any (0 < ·.errorCount) then .violation
  else if mode == .diff && results.any (·.changed) then .violation
  else .success

/-- The complaint about a file that failed. -/
def fileComplaint? (r : FileResult) : Option Output :=
  r.failure.map fun f =>
    .complain (if f.code = .tokenize then .unterminated else .unreadable) f.message

/-- The diff of a file that changed. -/
def fileDiff? (r : FileResult) : Option Output :=
  if r.changed then some (.print (Diff.unified r.path r.before r.text)) else none

/-- What a run over files prints at the end. -/
def summary (w : World) (i : Invocation) (mode : RunMode) (config : Config) (source : ConfigSource)
    (batch : Process.Batch) : List Output :=
  let report : Report :=
    ⟨mode.label, w.reportTime, source.label, config.fingerprint, batch.results,
      batch.suppressed⟩
  if i.options.json then [.print (report.json ++ "\n")]
  else
    (if mode == .diff then batch.results.filterMap fileDiff? else []) ++ [.print report.text]

/-- The roots of an invocation: the working directory when there are no paths. -/
def roots (i : Invocation) : List Path :=
  if i.paths.isEmpty then [Path.ofText "."] else i.paths.map Path.ofText

/-- Process the files of an invocation under a policy. -/
def runFiles (w : World) (i : Invocation) (mode : RunMode) (config : Config)
    (source : ConfigSource) (policy : Policy) : Except Interruption Outcome := do
  let selection := Selection.ofRoots w.disk config (roots i)
  let batch ← Process.files w.disk mode i.dryRun config policy selection.files
  let told := batch.events.map .tell
  match selection.missing with
  | some root =>
      let failure : Failure :=
        .make .sourceRead (Selection.missingMessage root) [("path", .text root.text)] none
      return ⟨batch.disk, told ++ complaint i .unreadable failure, .error⟩
  | none =>
      return ⟨batch.disk,
        told ++ batch.results.filterMap fileComplaint? ++ summary w i mode config source batch,
        statusOf mode batch.results⟩

/-- What a run tells, and then what a further part of it does. -/
def after (outputs : List Output) (rest : Except Interruption Outcome) :
    Except Interruption Outcome :=
  rest.map fun o => { o with outputs := outputs ++ o.outputs }

/-- A run that ends with a complaint about its configuration. -/
def refuse (w : World) (i : Invocation) (d : Diagnostic) (f : Failure) : Outcome :=
  ⟨w.disk, complaint i d f, .config⟩

/-- Apply the policy of a configuration and the exemptions to the files of an invocation. -/
def runPolicy (w : World) (i : Invocation) (mode : RunMode) (config : Config)
    (source : ConfigSource) (exemptions : List Exemption) : Except Interruption Outcome :=
  match Policy.make config.overrides exemptions w.today with
  | .error (.incomparable _) => .error .incomparableDate
  | .ok policy =>
      after (policy.expired.map fun e => .tell (.expired e))
        (runFiles w i mode config source policy)

/-- What breaks a run off when the configuration is no text or holds no number. -/
def configInterruption : ConfigFailure → Interruption
  | .undecodable _ _ => .undecodable
  | _ => .unreadableNumber

/-- What breaks a run off when the allowlist is no text or holds an impossible date. -/
def allowlistInterruption : AllowlistError → Interruption
  | .impossibleDate => .impossibleDate
  | _ => .undecodable

/-- Run a command on files. -/
def runCommand (w : World) (settings : Settings) (i : Invocation) (mode : RunMode) :
    Except Interruption Outcome :=
  let load := loadConfig w settings i
  after ((configEvents load).map .tell) <|
    match load.outcome with
    | .error e =>
        e.failure?.elim (.error (configInterruption e)) fun f =>
          .ok (refuse w i .configuration f)
    | .ok (config, choice) =>
        let (events, allowlist) := loadAllowlist w i
        after ((.activeConfig choice :: events).map .tell) <|
          match allowlist with
          | .ok exemptions => runPolicy w i mode config choice.source exemptions
          | .error e =>
              (e.failure? (Path.ofText i.options.allowlist)).elim
                (.error (allowlistInterruption e)) fun f => .ok (refuse w i .allowlist f)

/-- Run a command. -/
def dispatch (w : World) (settings : Settings) (i : Invocation) : Except Interruption Outcome :=
  match i.command with
  | .check => runCommand w settings i .check
  | .fix => runCommand w settings i .fix
  | .diff => runCommand w settings i .diff
  | .codes => .ok ⟨w.disk, [.print (Catalog.table Catalog.entries)], .success⟩

/-- The line of a record in the log. -/
def logLine (w : World) (json : Bool) (r : Record) : String :=
  (if json then r.json w.logTime (some w.correlation) else r.plain) ++ "\n"

/-- What an output adds to the standard output. -/
def printed : Output → String
  | .print text => text
  | _ => ""

/-- What an output adds to the standard error, with a log of records from `threshold` on. -/
def complained (w : World) (threshold : LogLevel) (json : Bool) : Output → String
  | .print _ => ""
  | .complain d message => d.text message "" ++ "\n"
  | .tell event =>
      let r := event.record (some w.correlation)
      if threshold.number ≤ r.level.number then logLine w json r else ""

/-- The end of a run with the given outputs. -/
def conclude (w : World) (threshold : LogLevel) (json : Bool) (o : Outcome) : Finished :=
  ⟨o.disk, o.status.code, String.join (o.outputs.map printed),
    String.join (o.outputs.map (complained w threshold json))⟩

/-- Execute a complete command line. -/
def invoke (w : World) (i : Invocation) : Except Interruption Finished :=
  match Settings.load w.environment [] with
  | .error e =>
      let failure : Failure := .make .configuration e.message [] none
      .ok (conclude w .warning false (refuse w i .settings failure))
  | .ok settings => do
      let o ← dispatch w settings i
      let name := i.command.label
      let outputs :=
        .tell (.started name) :: o.outputs ++ [.tell (.finished name o.status)]
      return conclude w (i.options.logLevel.getD settings.logLevel) settings.logJson
        { o with outputs }

/-- Execute the arguments of a command line. -/
def run (w : World) (arguments : List String) : Except Interruption Finished :=
  match CommandLine.parse arguments with
  | .help topic => .ok ⟨w.disk, ExitStatus.success.code, Usage.help topic, ""⟩
  | .incomplete => .ok ⟨w.disk, ExitStatus.config.code, Usage.help none, ""⟩
  | .refused topic e => .ok ⟨w.disk, ExitStatus.config.code, "", Usage.refusal topic e⟩
  | .run i => invoke w i

end Execute

end PhpDoc
