import Mathlib.Data.List.Forall2
import PhpDoc.Proofs.Run.File
import PhpDoc.Proofs.Run.Missing

/-!
# What a diff foretells of a fix

A diff treats every file as a fix does and writes none. For files at different places it tells of
each file what a fix from the same disk tells of it: the same texts, failure and violations, and
changes where the fix writes (`Process.files_foretell`). So a file has a diff exactly when the fix
writes it (`Process.Foretells.diff_of_success`), unless it failed: then it has no text afterwards,
and a diff that removes all that was read of it (`Process.Foretells.diff_of_failure`).
-/

namespace PhpDoc

open Disk

namespace Process

variable {d e : Disk} {dryRun : Bool} {config : Config} {policy : Policy} {path : Path}
variable {shown fixed : FileResult}

/-- What the result of a diff tells of the result of a fix: all but whether the file was written,
and this by its changes, unless the file failed. -/
structure Foretells (shown fixed : FileResult) : Prop where
  same : shown = { fixed with written := false }
  written : fixed.written = true ↔ shown.failure = none ∧ shown.changed = true
  failed : shown.failure.isSome = true → shown.text = ""

/-- A file that did not fail has a diff exactly when the fix writes it, from its old text to the
text that is written. -/
theorem Foretells.diff_of_success (h : Foretells shown fixed) (hnone : shown.failure = none) :
    Execute.fileDiff? shown =
      if fixed.written then
        some (.print (Diff.unified fixed.path fixed.before fixed.text))
      else none := by
  have hwritten : fixed.written = shown.changed :=
    Bool.eq_iff_iff.2 (h.written.trans (and_iff_right hnone))
  rw [Execute.fileDiff?, hwritten, h.same]

/-- A file that failed is not written, and has a diff that removes its text. -/
theorem Foretells.diff_of_failure (h : Foretells shown fixed)
    (hsome : shown.failure.isSome = true) :
    fixed.written = false ∧ Execute.fileDiff? shown =
      if shown.before = "" then none
      else some (.print (Diff.unified shown.path shown.before "")) := by
  have htext := h.failed hsome
  constructor
  · by_contra hwritten
    rw [(h.written.1 (by simpa using hwritten)).1] at hsome
    cases hsome
  · rw [Execute.fileDiff?, FileResult.changed, htext]
    by_cases hempty : shown.before = ""
    · simp [hempty]
    · simp [hempty, Ne.symm hempty]

/-- What is read of a file depends on its bytes only. -/
theorem sourceText_congr (h : e.read? path = d.read? path) :
    sourceText e path = sourceText d path := by
  rw [sourceText, sourceText, h]

/-- A diff of a file foretells a fix of it, on every disk with the same file. -/
theorem file_foretell (hread : e.read? path = d.read? path) (dryRun : Bool) (config : Config)
    (policy : Policy) :
    ∃ shown fixed, file d .diff dryRun config policy path = .ok shown ∧
      file e .fix false config policy path = .ok fixed ∧ shown.disk = d ∧
      shown.suppressed = fixed.suppressed ∧ Foretells shown.result fixed.result ∧
      fixed.disk.read? path =
        if fixed.result.written then some (Utf8.encode fixed.result.text) else d.read? path := by
  cases hsource : sourceText d path with
  | error failure =>
      have hsource' := (sourceText_congr hread).trans hsource
      exact ⟨_, _, file_of_unread hsource .diff dryRun config policy,
        file_of_unread hsource' .fix false config policy, rfl, rfl,
        ⟨rfl, by simp [skip], fun _ => rfl⟩, hread⟩
  | ok before =>
      have hsource' := (sourceText_congr hread).trans hsource
      have hsame : treat .diff config before = treat .fix config before := rfl
      rcases treat_cases .fix config before with ⟨events, t, htreat, -⟩ |
        ⟨events, cause, htreat, -⟩
      · refine ⟨_, _, file_of_treated hsource (hsame.trans htreat) dryRun policy,
          file_of_treated hsource' htreat false policy, rfl, rfl, ⟨rfl, ?_, fun h => ?_⟩, ?_⟩
        · simp [finish, writes, FileResult.changed]
        · cases h
        · rw [read?_finish (sourceText_eq_ok.1 hsource') .fix false policy events t,
            if_pos ⟨rfl, rfl⟩]
          split
          · rfl
          · next hkept => rw [text_eq_of_not_writes hkept, sourceText_eq_ok.1 hsource]
      · exact ⟨_, _, file_of_untreated hsource (hsame.trans htreat) dryRun policy,
          file_of_untreated hsource' htreat false policy, rfl, rfl,
          ⟨rfl, by simp [skip], fun _ => rfl⟩, hread⟩

/-- A comment that is never closed stops the fix, but the diff removes the whole text. -/
example :
    let d : Disk := ⟨[(["a.php"], Utf8.encode "<?php /** F")], [], ⟨1, []⟩, ⟨1, []⟩⟩
    (file d .diff false .default ⟨[], [], ⟨2024, 1, 1⟩⟩ ⟨0, ["a.php"]⟩).toOption.any (fun r =>
      r.result.failure.isSome && (Execute.fileDiff? r.result).isSome) = true := by
  decide +kernel

/-- Files are processed one after the other. -/
theorem files_cons {mode : RunMode} {paths : List Path} {first : Processed} {rest : Batch}
    (hfirst : file d mode dryRun config policy path = .ok first)
    (hrest : files first.disk mode dryRun config policy paths = .ok rest) :
    files d mode dryRun config policy (path :: paths) =
      .ok ⟨rest.disk, first.result :: rest.results, first.suppressed + rest.suppressed,
        first.events ++ rest.events⟩ := by
  rw [files, hfirst]
  simp only [bind, Except.bind, hrest]
  rfl

/-- Diffs of files at different places foretell fixes of the files, on every disk with the same tree
and the same files at these places. -/
theorem files_foretell_of_read {paths : List Path}
    (hdistinct : paths.Pairwise fun p q => d.place? q ≠ d.place? p) (htree : SameTree d e)
    (hread : ∀ p ∈ paths, e.read? p = d.read? p) (dryRun : Bool) (config : Config)
    (policy : Policy) :
    ∃ shown fixed, files d .diff dryRun config policy paths = .ok shown ∧
      files e .fix false config policy paths = .ok fixed ∧ shown.disk = d ∧
      shown.suppressed = fixed.suppressed ∧
      List.Forall₂ Foretells shown.results fixed.results ∧
      List.Forall₂ (fun p f => fixed.disk.read? p =
        if f.written then some (Utf8.encode f.text) else d.read? p) paths fixed.results := by
  induction paths generalizing e with
  | nil => exact ⟨_, _, rfl, rfl, rfl, rfl, .nil, .nil⟩
  | cons path paths ih =>
      obtain ⟨hfirst, hrest⟩ := List.pairwise_cons.1 hdistinct
      obtain ⟨hpath, hpaths⟩ := List.forall_mem_cons.1 hread
      obtain ⟨shown, fixed, hshown, hfixed, hdisk, hsuppressed, hforetells, hnow⟩ :=
        file_foretell hpath dryRun config policy
      obtain ⟨htree', helsewhere⟩ := file_frame hfixed
      -- the fix of the first file leaves the others as the diff reads them
      have hagain : ∀ p ∈ paths, fixed.disk.read? p = d.read? p := fun p hp => by
        rw [helsewhere p (by rw [htree.place?_eq, htree.place?_eq]; exact hfirst p hp),
          hpaths p hp]
      obtain ⟨moreShown, moreFixed, hmoreShown, hmoreFixed, hmoreDisk, hmoreSuppressed,
        hmoreForetells, hmoreNow⟩ := ih hrest (htree.trans htree') hagain
      -- and the fixes of the others do not come back to it
      have hkept : moreFixed.disk.read? path = fixed.disk.read? path :=
        (files_frame hmoreFixed).2 path fun p hp => by
          rw [htree'.place?_eq, htree'.place?_eq, htree.place?_eq, htree.place?_eq]
          exact (hfirst p hp).symm
      refine ⟨_, _, files_cons hshown (hdisk ▸ hmoreShown), files_cons hfixed hmoreFixed,
        hmoreDisk, ?_, .cons hforetells hmoreForetells, .cons (hkept.trans hnow) hmoreNow⟩
      show shown.suppressed + moreShown.suppressed = fixed.suppressed + moreFixed.suppressed
      rw [hsuppressed, hmoreSuppressed]

/-- A diff of files at different places writes nothing and foretells a fix of the files on the same
disk: the policy drops as much, every result tells what the fix tells, and the fix leaves in each
file the text that it tells when it writes the file, and else what was there. -/
theorem files_foretell {paths : List Path}
    (hdistinct : paths.Pairwise fun p q => d.place? q ≠ d.place? p) (dryRun : Bool)
    (config : Config) (policy : Policy) :
    ∃ shown fixed, files d .diff dryRun config policy paths = .ok shown ∧
      files d .fix false config policy paths = .ok fixed ∧ shown.disk = d ∧
      shown.suppressed = fixed.suppressed ∧
      List.Forall₂ Foretells shown.results fixed.results ∧
      List.Forall₂ (fun p f => fixed.disk.read? p =
        if f.written then some (Utf8.encode f.text) else d.read? p) paths fixed.results :=
  files_foretell_of_read hdistinct (.refl d) (fun _ _ => rfl) dryRun config policy

end Process

end PhpDoc
