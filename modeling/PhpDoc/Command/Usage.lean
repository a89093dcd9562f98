import PhpDoc.Command.Line

/-!
# Usage and help

The texts about the command line: how it is used, on everything or on one command, and the help,
which describes all its parts. They fit into eighty columns.
-/

namespace PhpDoc.Usage

/-- The name of the program. -/
def program : String := "docsniff"

/-- The name of what the text is about. -/
def subject (topic : Option Command) : String :=
  topic.elim program fun command => program ++ " " ++ command.label

/-- The arguments of a command in short. -/
def brief : Command → String
  | .codes => " [-h]"
  | .fix => " [-h] [--dry-run] [paths ...]"
  | _ => " [-h] [paths ...]"

/-- How the command line is used. -/
def usage : Option Command → String
  | none =>
      "usage: docsniff [-h] [--config CONFIG] [--allowlist ALLOWLIST] [--json]\n" ++
        "                [--log-level \x7bDEBUG,INFO,WARNING,ERROR,CRITICAL\x7d]\n" ++
        "                \x7bcheck,fix,diff,codes\x7d ...\n"
  | some command => "usage: " ++ subject (some command) ++ brief command ++ "\n"

/-- The description of the paths of a command. -/
def pathsHelp : String :=
  "positional arguments:\n" ++
    "  paths       Files or directories to process (default: current directory)\n\n"

/-- The description of the option that asks for help. -/
def helpHelp : String :=
  "options:\n  -h, --help  show this help message and exit\n"

/-- The description of the arguments of a command. -/
def details : Command → String
  | .codes => helpHelp
  | .fix =>
      pathsHelp ++ helpHelp ++
        "  --dry-run   Compute fixes and report them without writing files\n"
  | _ => pathsHelp ++ helpHelp

/-- The description of the commands and the options for a whole run. -/
def overview : String :=
  "Lint and fix structured doc comments.\n\n" ++
    "positional arguments:\n" ++
    "  \x7bcheck,fix,diff,codes\x7d\n" ++
    "    check               Report doc comment violations\n" ++
    "    fix                 Fix violations in place until the files converge\n" ++
    "    diff                Show the fixes as a unified diff without writing\n" ++
    "    codes               List every violation code\n\n" ++
    "options:\n" ++
    "  -h, --help            show this help message and exit\n" ++
    "  --config CONFIG       Path to docsniff.toml or pyproject.toml\n" ++
    "  --allowlist ALLOWLIST\n" ++
    "                        YAML file of allowlisted violations\n" ++
    "  --json                Emit a JSON report\n" ++
    "  --log-level \x7bDEBUG,INFO,WARNING,ERROR,CRITICAL\x7d\n" ++
    "                        Override DOCSNIFF_LOG_LEVEL\n"

/-- The help on everything or on one command. -/
def help (topic : Option Command) : String :=
  usage topic ++ "\n" ++ topic.elim overview details

/-- The text about a refused command line. -/
def refusal (topic : Option Command) (e : UsageError) : String :=
  usage topic ++ subject topic ++ ": error: " ++ e.message ++ "\n"

end PhpDoc.Usage
