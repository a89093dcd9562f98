import PhpDoc.Config.Source
import PhpDoc.Log.Record
import PhpDoc.Policy.Exemption
import PhpDoc.Problem.Diagnostic
import PhpDoc.Report.Basic

/-!
# Events of a run

A run tells what it does in events, from the choice of the configuration to the end of the command.
Each event has a record for the log, with the level and the logger that belong to it.
-/

namespace PhpDoc

/-- How a run ends. -/
inductive ExitStatus where
  | success
  | violation
  | config
  | error
  deriving DecidableEq, Repr, Inhabited

namespace ExitStatus

/-- The number of an exit status. -/
def code : ExitStatus → Nat
  | success => 0
  | violation => 1
  | config => 2
  | error => 3

/-- The name of an exit status. -/
def label : ExitStatus → String
  | success => "success"
  | violation => "violation"
  | config => "config"
  | error => "error"

end ExitStatus

/-- What is done with files. -/
inductive RunMode where
  | check
  | fix
  | diff
  deriving DecidableEq, Repr, Inhabited

/-- The name of what is done with files. -/
def RunMode.label : RunMode → String
  | check => "check"
  | fix => "fix"
  | diff => "diff"

/-- Something that a run tells. -/
inductive Event where
  | started (command : String)
  | finished (command : String) (status : ExitStatus)
  | readingConfig (path : Path)
  | loadedConfig (config : Config)
  | activeConfig (choice : ConfigChoice)
  | loadedAllowlist (count : Nat) (path : Path)
  | expired (exemption : Exemption)
  | tokenized (tokens lines : Nat)
  | rejected (index : Nat)
  | passed (number accepted rejected : Nat)
  | unconverged (passes : Nat)
  | applied (fixes passes : Nat)
  | skipped (mode : RunMode) (path message : String)
  | processed (mode : RunMode) (path : String) (errors warnings fixes : Nat)
  deriving Repr, Inhabited

namespace Event

/-- The logger for a part of the program. -/
def logger (part : String) : Logger :=
  .named ("docsniff." ++ part)

/-- The logger of a command. -/
def commandLogger (command : String) : Logger :=
  (logger "cli").bind [("command", .text "docsniff"), ("subcommand", .text command)]

/-- The logger for the work on a file. -/
def fileLogger (mode : RunMode) (path : String) : Logger :=
  (logger "runner").bind [("operation", .text mode.label), ("path", .text path)]

/-- The fields that name an operation and its status. -/
def operation (name status : String) : Fields :=
  [("operation", .text name), ("status", .text status)]

/-- The record of an event, where `id` is the correlation id in force. -/
def record (id : Option String) : Event → Record
  | started command =>
      (commandLogger command).record id .debug "Starting docsniff command"
        [("status", .text "start")]
  | finished command status =>
      (commandLogger command).record id .debug "Finished docsniff command"
        [("status", .text status.label)]
  | readingConfig path =>
      (logger "config").record id .debug ("Loading docsniff config from " ++ path.text) []
  | loadedConfig config =>
      (logger "config").record id .debug
        ("Loaded docsniff config: minimum_language_version=" ++ config.version.text ++
          " max_fix_passes=" ++ toString config.maxFixPasses) []
  | activeConfig choice =>
      (logger "cli").record id .info
        ("Active config: " ++ choice.path.elim "None" (·.text) ++ " (" ++ choice.source.label ++
          ")") []
  | loadedAllowlist count path =>
      (logger "policy").record id .debug
        ("Loaded " ++ toString count ++ " allowlist entries from " ++ path.text) []
  | expired exemption =>
      (logger "policy").record id .warning
        ("Allowlist entry for " ++ exemption.code ++ " in " ++ exemption.path ++
          " expired on " ++ exemption.expiry.text) (operation "policy" "expired")
  | tokenized tokens lines =>
      (logger "tokenizer").record id .debug "Tokenized source"
        [("operation", .text "tokenize"), ("token_count", .int tokens), ("line_count", .int lines)]
  | rejected index =>
      (logger "fixer").record id .debug "Changeset rejected"
        (operation "fix" "rejected" ++ [("token_index", .int index)])
  | passed number accepts rejects =>
      (logger "engine").record id .debug
        ("Fix pass " ++ toString number ++ " accepted " ++ toString accepts ++
          " and rejected " ++ toString rejects ++ " changesets")
        [("operation", .text "fix"), ("pass", .int number)]
  | unconverged passes =>
      (logger "engine").record id .warning
        (Diagnostic.unconverged.text
          ("Fixes did not converge after " ++ toString passes ++ " passes") "")
        (operation "fix" "not-converged" ++ [("passes", .int passes)])
  | applied fixes passes =>
      (logger "engine").record id .info
        ("Applied " ++ toString fixes ++ " fixes in " ++ toString passes ++ " passes")
        (operation "fix" "converged" ++ [("passes", .int passes)])
  | skipped mode path message =>
      (fileLogger mode path).record id .warning ("Skipping " ++ path ++ ": " ++ message)
        [("status", .text "error")]
  | processed mode path errors warnings fixes =>
      (fileLogger mode path).record id .debug
        ("Processed " ++ path ++ ": " ++ toString errors ++ " errors, " ++ toString warnings ++
          " warnings, " ++ toString fixes ++ " fixes") []

end Event

end PhpDoc
