import PhpDoc.Config.Basic
import PhpDoc.Files.Disk
import PhpDoc.Policy.Glob

/-!
# Selecting source files

A run works on the files that its roots name. A file that is named itself is always selected. A
directory stands for the files below it, in the order of their names, that have one of the
configured extensions and match none of the excluded patterns. No path is selected twice.
-/

namespace PhpDoc

/-- The selected files, and the first root that leads nowhere. What comes behind it is not
selected. -/
structure Selection where
  files : List Path
  missing : Option Path
  deriving DecidableEq, Repr, Inhabited

namespace Selection

/-- Whether a file below a directory is a source file, by the names on the way to it. -/
def isSource (config : Config) (names : List String) : Bool :=
  config.extensions.contains (Text.lower (Path.extensionOf (names.getLastD ""))) &&
    !config.exclude.any fun pattern => Glob.accepts pattern (Text.join "/" names)

/-- The source files that a root stands for, if it leads somewhere. -/
def ofRoot? (d : Disk) (config : Config) (root : Path) : Option (List Path) :=
  if d.isFile root then some [root]
  else if d.isDirectory root then
    some (((d.filesBelow root).filter (isSource config)).map root.append)
  else none

/-- All that the roots stand for, with repetitions. -/
def collect (d : Disk) (config : Config) : List Path → Selection
  | [] => ⟨[], none⟩
  | root :: roots =>
      match ofRoot? d config root with
      | none => ⟨[], some root⟩
      | some files =>
          let rest := collect d config roots
          ⟨files ++ rest.files, rest.missing⟩

/-- The source files that the roots stand for. -/
def ofRoots (d : Disk) (config : Config) (roots : List Path) : Selection :=
  let all := collect d config roots
  { all with files := all.files.eraseDups }

/-- The message about a root that leads nowhere. -/
def missingMessage (root : Path) : String :=
  "Path does not exist: " ++ root.text

end Selection

end PhpDoc
