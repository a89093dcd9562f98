import PhpDoc.Files.Path
import PhpDoc.Text.Utf8

/-!
# Disks

A disk holds files at places, and directories, some of which may be empty. A path leads to a place
name by name: every place on the way has to be a directory. Writing a file that exists changes its
content and nothing else.
-/

namespace PhpDoc

/-- A place on a disk: the names on the way to it from the root. -/
abbrev Place := List String

/-- The content of a disk, with the working directory and the home directory of its user. -/
structure Disk where
  files : List (Place × List UInt8)
  directories : List Place
  workingDirectory : Path
  home : Path
  deriving Repr, Inhabited

namespace Disk

/-- Whether there is a directory at the place. Every place on the way to something is one. -/
def hasDirectory (d : Disk) (place : Place) : Bool :=
  d.directories.any (place.isPrefixOf ·) || place.isPrefixOf d.workingDirectory.names ||
    d.files.any fun (file, _) => place.isPrefixOf file && place.length < file.length

/-- The place that is reached by following names from a place. -/
def follow? (d : Disk) (place : Place) : List String → Option Place
  | [] => some place
  | name :: names =>
      if d.hasDirectory place then
        d.follow? (if name == ".." then place.dropLast else place ++ [name]) names
      else none

/-- The place to which a path leads. Nothing has to be there. -/
def place? (d : Disk) (p : Path) : Option Place :=
  d.follow? (if p.isAbsolute then [] else d.workingDirectory.names) p.names

/-- The content of the file to which a path leads. -/
def read? (d : Disk) (p : Path) : Option (List UInt8) :=
  (d.place? p).bind (d.files.lookup ·)

/-- Whether a path leads to a file. -/
def isFile (d : Disk) (p : Path) : Bool :=
  (d.read? p).isSome

/-- Whether a path leads to a directory. -/
def isDirectory (d : Disk) (p : Path) : Bool :=
  (d.place? p).any d.hasDirectory

/-- The disk with other content in the file at the place. -/
def writeAt (d : Disk) (place : Place) (bytes : List UInt8) : Disk :=
  { d with files := d.files.map fun (file, old) => (file, if file == place then bytes else old) }

/-- The disk with a text in the file to which a path leads. -/
def write (d : Disk) (p : Path) (text : String) : Disk :=
  (d.place? p).elim d fun place => d.writeAt place (Utf8.encode text)

/-- The names on the way from a place to another one below it. -/
def below? (place file : Place) : Option (List String) :=
  if place.isPrefixOf file && place.length < file.length then some (file.drop place.length)
  else none

/-- The ways from the directory to which a path leads to all files below it, in the order of their
names. -/
def filesBelow (d : Disk) (p : Path) : List (List String) :=
  match d.place? p with
  | none => []
  | some place =>
      (d.files.filterMap fun (file, _) => below? place file).mergeSort fun a b => !decide (b < a)

/-- The path from the root of the disk to the directory in which a path starts or to which it leads,
without pairs of dots. -/
def resolve (d : Disk) (p : Path) : Path :=
  if p.isAbsolute then ⟨p.slashes, Path.collapse [] p.names⟩
  else
    ⟨d.workingDirectory.slashes, Path.collapse [] (d.workingDirectory.names ++ p.names)⟩

end Disk

end PhpDoc
