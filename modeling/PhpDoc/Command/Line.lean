import PhpDoc.Command.Word
import PhpDoc.Log.Record
import PhpDoc.Text.Case

/-!
# Command lines

A command line has options for the whole run, the name of a command, and then the options and the
paths of the command. All paths of a command stand together. What belongs nowhere is collected and
refused at the end, after everything else has been read.
-/

namespace PhpDoc

/-- What a run is asked to do. -/
inductive Command where
  | check
  | fix
  | diff
  | codes
  deriving DecidableEq, Repr, Inhabited

namespace Command

/-- All commands. -/
def all : List Command := [check, fix, diff, codes]

/-- The name of a command. -/
def label : Command → String
  | check => "check"
  | fix => "fix"
  | diff => "diff"
  | codes => "codes"

/-- The command with the name `s`. -/
def ofLabel? (s : String) : Option Command :=
  all.find? (·.label == s)

/-- Whether paths belong to the command. -/
def hasPaths : Command → Bool
  | codes => false
  | _ => true

end Command

/-- The options for a whole run. -/
structure RunOptions where
  config : String := ""
  allowlist : String := ""
  json : Bool := false
  logLevel : Option LogLevel := none
  deriving DecidableEq, Repr, Inhabited

/-- A complete command line. -/
structure Invocation where
  options : RunOptions
  command : Command
  paths : List String
  dryRun : Bool
  deriving DecidableEq, Repr, Inhabited

/-- What a command line asks for: a run, the help on everything or on one command, or nothing, when
the name of a command is missing. -/
inductive CommandLine where
  | run (invocation : Invocation)
  | help (topic : Option Command)
  | incomplete
  | refused (topic : Option Command) (error : UsageError)
  deriving DecidableEq, Repr, Inhabited

namespace CommandLine

/-- The option that asks for help. -/
def helpOption : OptionSpec := ⟨["-h", "--help"], false⟩

/-- The option that names a configuration file. -/
def configOption : OptionSpec := ⟨["--config"], true⟩

/-- The option that names an allowlist. -/
def allowlistOption : OptionSpec := ⟨["--allowlist"], true⟩

/-- The option that asks for a report as JSON. -/
def jsonOption : OptionSpec := ⟨["--json"], false⟩

/-- The option that sets the threshold of the log. -/
def logLevelOption : OptionSpec := ⟨["--log-level"], true⟩

/-- The option that keeps a fix from writing files. -/
def dryRunOption : OptionSpec := ⟨["--dry-run"], false⟩

/-- The options for a whole run. -/
def runOptions : List OptionSpec :=
  [helpOption, configOption, allowlistOption, jsonOption, logLevelOption]

/-- The options of a command. -/
def commandOptions : Command → List OptionSpec
  | .fix => [helpOption, dryRunOption]
  | _ => [helpOption]

/-- The letter under which options may be written together. -/
def clusterLetter : Char := 'h'

/-- Why letters behind the letter of an option without a value are refused. Letters that are no
option do no harm, since asking for help comes first. -/
def clusterError? : List Char → Option String
  | [] => none
  | c :: rest =>
      if c = '-' then some (String.ofList (c :: rest))
      else if c = clusterLetter then
        match rest with
        | '=' :: value => some (String.ofList value)
        | _ => clusterError? rest
      else none

/-- The options with a value for one of them. -/
def setValue (options : RunOptions) (spec : OptionSpec) (value : String) :
    Except UsageError RunOptions :=
  if spec = configOption then .ok { options with config := value }
  else if spec = allowlistOption then .ok { options with allowlist := value }
  else
    match LogLevel.ofLabel? (Text.upper value) with
    | some level => .ok { options with logLevel := some level }
    | none =>
        .error (.invalidChoice spec.label (Text.upper value) (LogLevel.all.map (·.label)))

/-- What stands in front of the arguments of a command. -/
inductive Opening where
  | help
  | alone (extras : List String)
  | command (options : RunOptions) (extras : List String) (command : Command) (rest : List String)
  deriving Repr, Inhabited

/-- The refusal of a name that is no command. -/
def unknownCommand (name : String) : UsageError :=
  .invalidChoice "subcommand" name (Command.all.map (·.label))

/-- Read the words up to the name of the command. -/
def readOpening (options : RunOptions) (extras : List String) :
    List (Word × String) → Except UsageError Opening
  | [] => .ok (.alone extras)
  | (.operand name, _) :: rest =>
      match Command.ofLabel? name with
      | some command => .ok (.command options extras command (rest.map (·.2)))
      | none => .error (unknownCommand name)
  | [(.separator, text)] => .ok (.alone (extras ++ [text]))
  | (.separator, text) :: _ => .error (unknownCommand text)
  | (.unknown text, _) :: rest => readOpening options (extras ++ [text]) rest
  | (.cluster spec tail, _) :: _ =>
      match clusterError? tail.toList with
      | some value => .error (.unexpectedValue spec value)
      | none => .ok .help
  | (.option spec (some value), _) :: rest =>
      if spec.hasValue then do readOpening (← setValue options spec value) extras rest
      else .error (.unexpectedValue spec value)
  | (.option spec none, _) :: rest =>
      if spec = helpOption then .ok .help
      else if spec = jsonOption then readOpening { options with json := true } extras rest
      else match rest with
        | (.operand value, _) :: rest => do
            readOpening (← setValue options spec value) extras rest
        | _ => .error (.missingValue spec)

/-- Where the reader of a command is: before its paths, among them, or behind them. -/
inductive Phase where
  | before
  | among
  | behind
  deriving DecidableEq, Repr, Inhabited

/-- The phase behind an option. -/
def Phase.afterOption : Phase → Phase
  | before => before
  | among => behind
  | behind => behind

/-- What stands behind the name of a command. -/
inductive Closing where
  | help
  | arguments (paths : List String) (dryRun : Bool) (extras : List String)
  deriving DecidableEq, Repr, Inhabited

/-- Read the words of a command. -/
def readClosing (phase : Phase) (paths : List String) (dryRun : Bool) (extras : List String) :
    List (Word × String) → Except UsageError Closing
  | [] => .ok (.arguments paths dryRun extras)
  | (.operand text, _) :: rest =>
      if phase = .behind then readClosing phase paths dryRun (extras ++ [text]) rest
      else readClosing .among (paths ++ [text]) dryRun extras rest
  | (.separator, text) :: rest =>
      if phase = .behind then readClosing phase paths dryRun (extras ++ [text]) rest
      else readClosing .among paths dryRun extras rest
  | (.unknown text, _) :: rest =>
      readClosing phase.afterOption paths dryRun (extras ++ [text]) rest
  | (.cluster spec tail, _) :: _ =>
      match clusterError? tail.toList with
      | some value => .error (.unexpectedValue spec value)
      | none => .ok .help
  | (.option spec (some value), _) :: _ => .error (.unexpectedValue spec value)
  | (.option spec none, _) :: rest =>
      if spec = helpOption then .ok .help
      else readClosing phase.afterOption paths true extras rest

/-- The words of a command, read. -/
def closingOf (command : Command) (texts : List String) : Except UsageError Closing := do
  let words ← Word.ofTexts (commandOptions command) texts
  readClosing (if command.hasPaths then .before else .behind) [] false [] words

/-- The words in front of a command, read. -/
def openingOf (texts : List String) : Except UsageError Opening := do
  readOpening {} [] (← Word.ofTexts runOptions texts)

/-- What the arguments of a command line ask for. -/
def parse (texts : List String) : CommandLine :=
  match openingOf texts with
  | .error e => .refused none e
  | .ok .help => .help none
  | .ok (.alone extras) =>
      if extras.isEmpty then .incomplete else .refused none (.unrecognized extras)
  | .ok (.command options extras command rest) =>
      match closingOf command rest with
      | .error e => .refused (some command) e
      | .ok .help => .help (some command)
      | .ok (.arguments paths dryRun more) =>
          if (extras ++ more).isEmpty then .run ⟨options, command, paths, dryRun⟩
          else .refused none (.unrecognized (extras ++ more))

end CommandLine

end PhpDoc
