import PhpDoc.Proofs.Edit.History
import PhpDoc.Proofs.Rule.Violation

/-!
# Changes that keep apart

Changes of one stream that touch different tokens do not stand in each other's way: proposed one
after the other to a fresh fixer they are all accepted (`Fixer.wrote_of_apart`).
-/

namespace PhpDoc

variable {s : Stream}

/-- No token gets another text by both changes. -/
def Changeset.Apart (s : Stream) (c d : Changeset) : Prop :=
  ∀ t, s.Has t → c.current t ≠ t.text → d.current t = t.text

namespace Fixer

variable {f : Fixer}

/-- A change is accepted when no token that it changes was changed before. -/
theorem Took.verdict_of_apart {done : List Changeset} (h : f.Took s (done.map (·.edits)))
    (hdone : ∀ d ∈ done, d.Over s) {c : Changeset} (hc : c.Changes s)
    (hapart : ∀ d ∈ done, d.Apart s c) : f.verdict c.edits = .accepted := by
  obtain ⟨t, ht, hne⟩ := hc.changed
  refine h.verdict_eq_accepted.2 ⟨hc.fits.edits_ne_nil ht hne, fun e he => ?_, fun e he d hd => ?_⟩
  · obtain ⟨u, hu, -, rfl⟩ := hc.fits.mem_edits.1 he
    have hget : s.get? u.index = some u := hu
    rw [hget]
    rfl
  · obtain ⟨u, hu, hchanged, rfl⟩ := hc.fits.mem_edits.1 he
    obtain ⟨edits, hedits, hd⟩ := List.mem_flatten.1 hd
    obtain ⟨c', hc', rfl⟩ := List.mem_map.1 hedits
    obtain ⟨w, hw, hother, rfl⟩ := (hdone c' hc').mem_edits.1 hd
    intro heq
    obtain rfl := hw.eq hu heq
    exact hchanged (hapart c' hc' w hw hother)

/-- Changes that keep apart from those that were taken, and from each other, are all taken. -/
theorem Took.after_of_apart {done cs : List Changeset} (h : f.Took s (done.map (·.edits)))
    (hover : ∀ d ∈ done, d.Over s) (hcs : ∀ c ∈ cs, c.Changes s)
    (hdone : ∀ d ∈ done, ∀ c ∈ cs, d.Apart s c) (hapart : cs.Pairwise (Changeset.Apart s)) :
    (f.after (cs.map (·.edits))).Took s ((done ++ cs).map (·.edits)) := by
  induction cs generalizing f done with
  | nil => simpa using h
  | cons c cs ih =>
      obtain ⟨hc, hrest⟩ := List.forall_mem_cons.1 hcs
      obtain ⟨hfirst, hlater⟩ := List.pairwise_cons.1 hapart
      have haccepted := h.verdict_of_apart hover hc fun d hd => hdone d hd c List.mem_cons_self
      have htook := h.propose hc.fits.nodup_edits
      rw [if_pos haccepted] at htook
      have hnext : (f.propose c.edits).1.Took s ((done ++ [c]).map (·.edits)) := by
        simpa using htook
      have hafter := ih hnext
        (by
          intro d hd
          rcases List.mem_append.1 hd with hd | hd
          · exact hover d hd
          · exact List.mem_singleton.1 hd ▸ hc.fits)
        hrest
        (by
          intro d hd e he
          rcases List.mem_append.1 hd with hd | hd
          · exact hdone d hd e (List.mem_cons_of_mem _ he)
          · exact List.mem_singleton.1 hd ▸ hfirst e he)
        hlater
      simpa using hafter

/-- A fresh fixer accepts all changes of its stream that keep apart. -/
theorem wrote_of_apart {cs : List Changeset} (hcs : ∀ c ∈ cs, c.Changes s)
    (hapart : cs.Pairwise (Changeset.Apart s)) :
    ((ofStream s).after (cs.map (·.edits))).Wrote s cs := by
  have hfresh : (ofStream s).Took s (([] : List Changeset).map (·.edits)) := took_ofStream s
  have htook := hfresh.after_of_apart (by simp) hcs (by simp) hapart
  exact htook.wrote fun c hc => (hcs c hc).fits

end Fixer

end PhpDoc
