import PhpDoc.Files.Selection

/-!
# Writing on a disk

Writing a text gives another content to one file and changes nothing else. The disk keeps its tree
(`SameTree`), so that every path leads where it led before and the same files are selected
(`Selection.ofRoots_eq`), and every other file reads as before (`Disk.read?_write`).
-/

namespace PhpDoc

namespace Disk

variable {d e f : Disk} {place : Place} {bytes : List UInt8} {p q : Path}

/-- The disks have the same places: files, directories, working directory and home. -/
structure SameTree (d e : Disk) : Prop where
  files : e.files.map (·.1) = d.files.map (·.1)
  directories : e.directories = d.directories
  workingDirectory : e.workingDirectory = d.workingDirectory
  home : e.home = d.home

namespace SameTree

/-- A disk has its own tree. -/
theorem refl (d : Disk) : SameTree d d :=
  ⟨rfl, rfl, rfl, rfl⟩

/-- Disks with the tree of a third one have the same tree. -/
theorem trans (h : SameTree d e) (h' : SameTree e f) : SameTree d f :=
  ⟨h'.files.trans h.files, h'.directories.trans h.directories,
    h'.workingDirectory.trans h.workingDirectory, h'.home.trans h.home⟩

/-- Disks with the same tree have the same directories. -/
theorem hasDirectory_eq (h : SameTree d e) (place : Place) :
    e.hasDirectory place = d.hasDirectory place := by
  have hany (x : Disk) :
      (x.files.any fun file => place.isPrefixOf file.1 && place.length < file.1.length) =
        (x.files.map (·.1)).any fun file => place.isPrefixOf file && place.length < file.length := by
    rw [List.any_map]
    rfl
  unfold hasDirectory
  rw [h.directories, h.workingDirectory, hany e, hany d, h.files]

/-- Names lead to the same place on disks with the same tree. -/
theorem follow?_eq (h : SameTree d e) (place : Place) (names : List String) :
    e.follow? place names = d.follow? place names := by
  induction names generalizing place with
  | nil => rfl
  | cons name names ih => rw [follow?, follow?, h.hasDirectory_eq, ih]

/-- A path leads to the same place on disks with the same tree. -/
theorem place?_eq (h : SameTree d e) (p : Path) : e.place? p = d.place? p := by
  rw [place?, place?, h.workingDirectory, h.follow?_eq]

/-- A path names a directory on both of two disks with the same tree, or on none. -/
theorem isDirectory_eq (h : SameTree d e) (p : Path) : e.isDirectory p = d.isDirectory p := by
  unfold isDirectory
  rw [h.place?_eq]
  exact congrArg (Option.any · _) (funext h.hasDirectory_eq)

/-- A file is found on the one disk when it is found on the other. -/
theorem isSome_lookup_eq (h : SameTree d e) (place : Place) :
    (e.files.lookup place).isSome = (d.files.lookup place).isSome := by
  have hfind (files : List (Place × List UInt8)) :
      (files.lookup place).isSome = (files.map (·.1)).contains place := by
    induction files with
    | nil => rfl
    | cons file files ih =>
        rw [List.lookup_cons, List.map_cons, List.contains_cons, ← ih]
        cases place == file.1 <;> simp
  rw [hfind, hfind, h.files]

/-- A path names a file on both of two disks with the same tree, or on none. -/
theorem isFile_eq (h : SameTree d e) (p : Path) : e.isFile p = d.isFile p := by
  unfold isFile read?
  rw [h.place?_eq]
  cases d.place? p with
  | none => rfl
  | some place => exact h.isSome_lookup_eq place

/-- The files below a directory are the same on disks with the same tree. -/
theorem filesBelow_eq (h : SameTree d e) (p : Path) : e.filesBelow p = d.filesBelow p := by
  have hbelow (x : Disk) (place : Place) :
      (x.files.filterMap fun file => below? place file.1) =
        (x.files.map (·.1)).filterMap (below? place) := by
    rw [List.filterMap_map]
    rfl
  unfold filesBelow
  rw [h.place?_eq]
  cases d.place? p with
  | none => rfl
  | some place =>
      simp only
      rw [hbelow e, hbelow d, h.files]

end SameTree

/-- Writing at a place does not change the tree of a disk. -/
theorem sameTree_writeAt (d : Disk) (place : Place) (bytes : List UInt8) :
    SameTree d (d.writeAt place bytes) where
  files := by
    rw [writeAt, List.map_map]
    rfl
  directories := rfl
  workingDirectory := rfl
  home := rfl

/-- Writing a file does not change the tree of a disk. -/
theorem sameTree_write (d : Disk) (p : Path) (text : String) : SameTree d (d.write p text) := by
  unfold write
  cases d.place? p with
  | none => exact .refl d
  | some place => exact sameTree_writeAt d place _

/-- The file at the place that is written has the new content, and every other file its old one. -/
theorem lookup_writeAt (d : Disk) (place : Place) (bytes : List UInt8) (file : Place) :
    (d.writeAt place bytes).files.lookup file =
      (d.files.lookup file).map fun old => if file = place then bytes else old := by
  unfold writeAt
  simp only
  induction d.files with
  | nil => rfl
  | cons first files ih =>
      rw [List.map_cons, List.lookup_cons, List.lookup_cons, ih]
      cases hfile : file == first.1 with
      | false => rfl
      | true => simp [eq_of_beq hfile]

/-- A path reads the text that was written where it leads, and what it read before anywhere else. -/
theorem read?_write (d : Disk) (p : Path) (text : String) (q : Path) :
    (d.write p text).read? q =
      (d.read? q).map fun old => if d.place? q = d.place? p then Utf8.encode text else old := by
  unfold read?
  rw [(sameTree_write d p text).place?_eq]
  cases hq : d.place? q with
  | none => rfl
  | some file =>
      unfold write
      cases hp : d.place? p with
      | none => simp
      | some place => simp [lookup_writeAt]

/-- Writing a file leaves what is read at other places. -/
theorem read?_write_of_ne (h : d.place? q ≠ d.place? p) (text : String) :
    (d.write p text).read? q = d.read? q := by
  rw [read?_write]
  simp [h]

end Disk

namespace Selection

open Disk

variable {d e : Disk} {config : Config}

/-- A root stands for the same files on disks with the same tree. -/
theorem ofRoot?_eq (h : SameTree d e) (root : Path) :
    ofRoot? e config root = ofRoot? d config root := by
  unfold ofRoot?
  rw [h.isFile_eq, h.isDirectory_eq, h.filesBelow_eq]

/-- What is selected depends on the tree of the disk only, so that files may be written while others
are still to be selected. -/
theorem collect_eq (h : SameTree d e) (roots : List Path) :
    collect e config roots = collect d config roots := by
  induction roots with
  | nil => rfl
  | cons root roots ih => rw [collect, collect, ofRoot?_eq h, ih]

/-- The selected files are the same on disks with the same tree. -/
theorem ofRoots_eq (h : SameTree d e) (roots : List Path) :
    ofRoots e config roots = ofRoots d config roots := by
  rw [ofRoots, ofRoots, collect_eq h]

/-- Roots that lead somewhere are followed by the first one that does not. -/
theorem exists_of_missing {roots : List Path} {root : Path}
    (h : (collect d config roots).missing = some root) :
    ∃ before behind, roots = before ++ root :: behind ∧
      (∀ r ∈ before, (ofRoot? d config r).isSome = true) ∧ ofRoot? d config root = none ∧
      (collect d config roots).files = (collect d config before).files ∧
      (collect d config before).missing = none := by
  induction roots with
  | nil => cases h
  | cons first roots ih =>
      rw [collect] at h ⊢
      cases hfirst : ofRoot? d config first with
      | none =>
          rw [hfirst] at h
          cases h
          exact ⟨[], roots, rfl, by simp, hfirst, rfl, rfl⟩
      | some files =>
          simp only [hfirst] at h ⊢
          obtain ⟨before, behind, rfl, hbefore, hroot, hfiles, hnone⟩ := ih h
          refine ⟨first :: before, behind, rfl, ?_, hroot, ?_, ?_⟩
          · exact List.forall_mem_cons.2 ⟨by rw [hfirst]; rfl, hbefore⟩
          · simp only [collect, hfirst, hfiles]
          · simp only [collect, hfirst, hnone]

end Selection

end PhpDoc
