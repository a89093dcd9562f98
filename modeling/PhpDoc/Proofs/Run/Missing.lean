import PhpDoc.Proofs.Files.Disk
import PhpDoc.Run.Execute

/-!
# Runs over paths of which one is missing

Files are processed one after the other, and each changes at most the file to which its path leads
(`Process.file_disk`, `Process.files_frame`). A path that leads nowhere is only met when the paths
in front of it have been processed: the run ends with an error and has changed no other files than
those (`Execute.runFiles_missing`).
-/

namespace PhpDoc

open Disk

namespace Process

variable {d : Disk} {mode : RunMode} {dryRun : Bool} {config : Config} {policy : Policy}
variable {path q : Path}

/-- Processing a file leaves the disk as it is, or writes that file, which only a fix does that is
not a dry run. -/
theorem file_disk {r : Processed} (h : file d mode dryRun config policy path = .ok r) :
    r.disk = d ∨ mode = .fix ∧ dryRun = false ∧ ∃ text, r.disk = d.write path text := by
  unfold file at h
  split at h
  · cases h
    exact .inl rfl
  · next before hsource =>
      split at h
      · next events t htreat =>
          cases h
          unfold finish
          simp only
          split
          · next hwrites =>
              simp only [writes, Bool.and_eq_true, beq_iff_eq, Bool.not_eq_true'] at hwrites
              exact .inr ⟨hwrites.1.1, hwrites.1.2, t.text, rfl⟩
          · exact .inl rfl
      · cases h
        exact .inl rfl
      · cases h

/-- Processing a file keeps the tree of the disk and every file elsewhere. -/
theorem file_frame {r : Processed} (h : file d mode dryRun config policy path = .ok r) :
    SameTree d r.disk ∧ ∀ q, d.place? q ≠ d.place? path → r.disk.read? q = d.read? q := by
  rcases file_disk h with hsame | ⟨-, -, text, hwrite⟩
  · rw [hsame]
    exact ⟨.refl d, fun _ _ => rfl⟩
  · rw [hwrite]
    exact ⟨sameTree_write d path text, fun q hq => read?_write_of_ne hq text⟩

/-- What is done to the first file and then to the others. -/
theorem files_cons_eq_ok {paths : List Path} {batch : Batch}
    (h : files d mode dryRun config policy (path :: paths) = .ok batch) :
    ∃ first rest, file d mode dryRun config policy path = .ok first ∧
      files first.disk mode dryRun config policy paths = .ok rest ∧ batch.disk = rest.disk := by
  rw [files] at h
  cases hfile : file d mode dryRun config policy path with
  | error e =>
      rw [hfile] at h
      cases h
  | ok first =>
      simp only [hfile, bind, Except.bind] at h
      cases hfiles : files first.disk mode dryRun config policy paths with
      | error e =>
          rw [hfiles] at h
          cases h
      | ok rest =>
          rw [hfiles] at h
          cases h
          exact ⟨first, rest, rfl, hfiles, rfl⟩

/-- Processing files keeps the tree of the disk and every file to which none of the paths leads. -/
theorem files_frame {paths : List Path} {batch : Batch}
    (h : files d mode dryRun config policy paths = .ok batch) :
    SameTree d batch.disk ∧
      ∀ q, (∀ p ∈ paths, d.place? q ≠ d.place? p) → batch.disk.read? q = d.read? q := by
  induction paths generalizing d batch with
  | nil =>
      cases h
      exact ⟨.refl d, fun _ _ => rfl⟩
  | cons path paths ih =>
      obtain ⟨first, rest, hfile, hfiles, hdisk⟩ := files_cons_eq_ok h
      obtain ⟨hfirst, helsewhere⟩ := file_frame hfile
      obtain ⟨htree, hread⟩ := ih hfiles
      rw [hdisk]
      refine ⟨hfirst.trans htree, fun q hq => ?_⟩
      obtain ⟨hpath, hpaths⟩ := List.forall_mem_cons.1 hq
      rw [hread q fun p hp => by rw [hfirst.place?_eq, hfirst.place?_eq]; exact hpaths p hp,
        helsewhere q hpath]

/-- Only a fix that is not a dry run writes files. -/
theorem files_disk_of_dry {paths : List Path} {batch : Batch}
    (hdry : mode ≠ .fix ∨ dryRun = true)
    (h : files d mode dryRun config policy paths = .ok batch) : batch.disk = d := by
  induction paths generalizing d batch with
  | nil =>
      cases h
      rfl
  | cons path paths ih =>
      obtain ⟨first, rest, hfile, hfiles, hdisk⟩ := files_cons_eq_ok h
      rcases file_disk hfile with hsame | ⟨hfix, hwet, -⟩
      · rw [hdisk, ih hfiles, hsame]
      · rcases hdry with hmode | hdry
        · exact absurd hfix hmode
        · rw [hwet] at hdry
          cases hdry

end Process

namespace Execute

variable {w : World} {i : Invocation} {mode : RunMode} {config : Config} {source : ConfigSource}
variable {policy : Policy} {o : Outcome}

/-- A run over paths of which one leads nowhere ends with an error. It has processed what the paths
in front of the missing one select, so that every file to which none of these leads is as before.
Nothing is changed at all when the first path is the missing one, and nothing by a run that does not
write. -/
theorem runFiles_missing
    (hmissing : (Selection.ofRoots w.disk config (roots i)).missing.isSome = true)
    (h : runFiles w i mode config source policy = .ok o) :
    o.status = .error ∧ ∃ before root behind, roots i = before ++ root :: behind ∧
      (∀ r ∈ before, (Selection.ofRoot? w.disk config r).isSome = true) ∧
      Selection.ofRoot? w.disk config root = none ∧
      (∀ q, (∀ p ∈ (Selection.ofRoots w.disk config before).files,
        w.disk.place? q ≠ w.disk.place? p) → o.disk.read? q = w.disk.read? q) ∧
      (before = [] ∨ mode ≠ .fix ∨ i.dryRun = true → o.disk = w.disk) := by
  obtain ⟨root, hroot⟩ := Option.isSome_iff_exists.1 hmissing
  obtain ⟨before, behind, hroots, hbefore, hnone, hfiles, -⟩ := Selection.exists_of_missing hroot
  unfold runFiles at h
  simp only [bind, Except.bind] at h
  split at h
  · cases h
  · next batch hbatch =>
      rw [hroot] at h
      cases h
      have hselected : (Selection.ofRoots w.disk config (roots i)).files =
          (Selection.ofRoots w.disk config before).files := congrArg List.eraseDups hfiles
      rw [hselected] at hbatch
      refine ⟨rfl, before, root, behind, hroots, hbefore, hnone,
        (Process.files_frame hbatch).2, ?_⟩
      rintro (rfl | hdry)
      · cases hbatch
        rfl
      · exact Process.files_disk_of_dry hdry hbatch

/-- The file in front of a missing path is fixed and written before the run fails. -/
example :
    let disk : Disk := ⟨[(["a.php"], Utf8.encode "<?php /** F */")], [], ⟨1, []⟩, ⟨1, []⟩⟩
    let w : World := ⟨disk, [], ⟨2024, 1, 1⟩, "", "", ""⟩
    (run w ["fix", "a.php", "b.php"]).toOption.any (fun r =>
      r.exitCode == ExitStatus.error.code && r.disk.files != disk.files) = true := by
  decide +kernel

end Execute

end PhpDoc
