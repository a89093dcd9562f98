import PhpDoc.Proofs.Edit.Fixer
import Mathlib.Data.List.Pairwise

/-!
# Histories of proposals

A fixer to which changes were proposed one after the other holds the texts of the changes that it
took, and the texts of its stream everywhere else (`Took`, and by changesets `Took.wrote`). So a
proposal is taken or refused as a whole (`transactional_of_over`), and proposals that have no token
in common may be made in either order (`propose_swap`).
-/

namespace PhpDoc

namespace Fixer

variable {f : Fixer} {s : Stream} {edits : List Edit} {before : List (List Edit)}

/-! ## One proposal -/

/-- The fixer after edits were proposed to it of which this becomes. -/
def settle (f : Fixer) (edits : List Edit) : Verdict → Fixer
  | .accepted => f.apply edits
  | .rejected _ => { f with rejected := f.rejected + 1 }
  | .outOfRange _ => f

/-- A proposal is settled by its verdict. -/
theorem propose_eq (f : Fixer) (edits : List Edit) :
    f.propose edits = (f.settle edits (f.verdict edits), f.verdict edits) := by
  unfold propose
  cases f.verdict edits <;> rfl

/-- Edits at tokens of the fixer are never out of its range. -/
theorem verdict_ne_outOfRange (h : ∀ e ∈ edits, e.index < f.texts.size) (i : Nat) :
    f.verdict edits ≠ .outOfRange i := by
  have hobstacle : f.obstacle? edits ≠ some (.outOfRange i) := by
    induction edits with
    | nil => simp [obstacle?]
    | cons e es ih =>
        obtain ⟨he, hes⟩ := List.forall_mem_cons.1 h
        rw [obstacle?, Array.getElem?_eq_getElem he]
        simp only
        split
        · simp
        · split
          · exact ih hes
          · simp
  unfold verdict
  split
  · simp
  · cases hcase : f.obstacle? edits with
    | none => simp
    | some v =>
        rintro rfl
        exact hobstacle hcase

/-- The edits are all written, each over the text that it was computed against, nothing else
changes, and the acceptance is counted. -/
structure Applies (f g : Fixer) (edits : List Edit) : Prop where
  old : ∀ e ∈ edits, f.texts[e.index]? = some e.oldText ∧ e.newText ≠ e.oldText
  new : ∀ e ∈ edits, g.texts[e.index]? = some e.newText
  others : ∀ i, (∀ e ∈ edits, e.index ≠ i) → g.texts[i]? = f.texts[i]?
  accepted : g.accepted = f.accepted + 1
  rejected : g.rejected = f.rejected

/-- Accepted edits are applied. -/
theorem applies_of_accepted {c : Changeset} (hnodup : (c.edits.map (·.index)).Nodup)
    (h : f.verdict c.edits = .accepted) : f.Applies (f.propose c.edits).1 c.edits := by
  obtain ⟨-, hfree⟩ := verdict_eq_accepted.1 h
  rw [propose_eq, h]
  refine ⟨fun e he => ⟨(hfree e he).2, Changeset.ne_of_mem_edits he⟩, fun e he => ?_, ?_, rfl, rfl⟩
  · exact getElem?_foldl_of_mem f.texts hnodup he (Array.getElem?_eq_some_iff.1 (hfree e he).2).1
  · exact fun i hi => getElem?_foldl_of_not_mem f.texts hi

/-! ## Proposals one after the other -/

/-- The fixer after edits were proposed to it, one list after the other. -/
def after (f : Fixer) (history : List (List Edit)) : Fixer :=
  history.foldl (fun f edits => (f.propose edits).1) f

/-- What becomes of the edits that are proposed to the fixer, one list after the other. -/
def verdicts (f : Fixer) : List (List Edit) → List Verdict
  | [] => []
  | edits :: history => f.verdict edits :: (f.propose edits).1.verdicts history

/-- The lists of edits that the fixer accepts of those that are proposed to it. -/
def taken (f : Fixer) : List (List Edit) → List (List Edit)
  | [] => []
  | edits :: history =>
      let rest := (f.propose edits).1.taken history
      if f.verdict edits = .accepted then edits :: rest else rest

/-- Without proposals a fixer stays as it is. -/
@[simp] theorem after_nil (f : Fixer) : f.after [] = f := rfl

/-- The first proposal comes before the others. -/
@[simp] theorem after_cons (f : Fixer) (edits : List Edit) (history : List (List Edit)) :
    f.after (edits :: history) = (f.propose edits).1.after history := rfl

/-- Proposals come one after the other. -/
theorem after_append (f : Fixer) (earlier later : List (List Edit)) :
    f.after (earlier ++ later) = (f.after earlier).after later :=
  List.foldl_append

/-- Later proposals are judged by the fixer that the earlier ones leave. -/
theorem verdicts_append (f : Fixer) (earlier later : List (List Edit)) :
    f.verdicts (earlier ++ later) = f.verdicts earlier ++ (f.after earlier).verdicts later := by
  induction earlier generalizing f with
  | nil => rfl
  | cons edits earlier ih => simp [verdicts, ih]

/-- Every proposal is judged once. -/
@[simp] theorem length_verdicts (f : Fixer) (history : List (List Edit)) :
    (f.verdicts history).length = history.length := by
  induction history generalizing f with
  | nil => rfl
  | cons edits history ih => simp [verdicts, ih]

/-- A proposal never lowers the number of accepted ones. -/
theorem accepted_le_propose (f : Fixer) (edits : List Edit) :
    f.accepted ≤ (f.propose edits).1.accepted := by
  rw [propose_eq]
  cases f.verdict edits with
  | accepted => exact Nat.le_succ f.accepted
  | rejected obstacle => exact Nat.le_refl _
  | outOfRange i => exact Nat.le_refl _

/-- Proposals never lower the number of accepted ones. -/
theorem accepted_le_after (f : Fixer) (history : List (List Edit)) :
    f.accepted ≤ (f.after history).accepted := by
  induction history generalizing f with
  | nil => exact Nat.le_refl _
  | cons edits history ih => exact Nat.le_trans (f.accepted_le_propose edits) (ih _)

/-- A proposal leaves the fixer as many texts as it had. -/
@[simp] theorem size_texts_propose (f : Fixer) (edits : List Edit) :
    (f.propose edits).1.texts.size = f.texts.size := by
  rw [propose_eq]
  cases f.verdict edits with
  | accepted => exact size_foldl edits f.texts
  | rejected obstacle => rfl
  | outOfRange i => rfl

/-- Proposals leave the fixer as many texts as it had. -/
@[simp] theorem size_texts_after (f : Fixer) (history : List (List Edit)) :
    (f.after history).texts.size = f.texts.size := by
  induction history generalizing f with
  | nil => rfl
  | cons edits history ih => rw [after_cons, ih, size_texts_propose]

/-- A proposal leaves the tokens alone that none of its edits is at. -/
theorem getElem?_propose_of_not_mem (f : Fixer) {i : Nat} (h : ∀ e ∈ edits, e.index ≠ i) :
    (f.propose edits).1.texts[i]? = f.texts[i]? := by
  rw [propose_eq]
  cases f.verdict edits with
  | accepted => exact getElem?_foldl_of_not_mem f.texts h
  | rejected obstacle => rfl
  | outOfRange i => rfl

/-- Proposals leave the tokens alone that none of their edits is at. -/
theorem getElem?_after_of_not_mem (f : Fixer) {history : List (List Edit)} {i : Nat}
    (h : ∀ edits ∈ history, ∀ e ∈ edits, e.index ≠ i) :
    (f.after history).texts[i]? = f.texts[i]? := by
  induction history generalizing f with
  | nil => rfl
  | cons edits history ih =>
      obtain ⟨hedits, hhistory⟩ := List.forall_mem_cons.1 h
      rw [after_cons, ih _ hhistory, getElem?_propose_of_not_mem f hedits]

/-- The fixer took the lists of edits over the stream, and nothing else was written. -/
structure Took (s : Stream) (before : List (List Edit)) (f : Fixer) : Prop where
  size : f.texts.size = s.size
  count : f.accepted = before.length
  touched : ∀ i, i ∈ f.touched ↔ ∃ e ∈ before.flatten, e.index = i
  once : (before.flatten.map (·.index)).Nodup
  written : ∀ e ∈ before.flatten, f.texts[e.index]? = some e.newText
  kept : ∀ i, (∀ e ∈ before.flatten, e.index ≠ i) → f.texts[i]? = (s.get? i).map (·.text)

/-- A fresh fixer has taken nothing. -/
theorem took_ofStream (s : Stream) : (ofStream s).Took s [] where
  size := by simp [ofStream, Stream.size]
  count := rfl
  touched := by simp [ofStream]
  once := List.nodup_nil
  written := by simp
  kept := by simp [ofStream, Stream.get?]

/-- Edits that are accepted are taken as well. -/
theorem Took.apply (h : f.Took s before) (hnodup : (edits.map (·.index)).Nodup)
    (haccepted : f.verdict edits = .accepted) : (f.apply edits).Took s (before ++ [edits]) := by
  obtain ⟨-, hfree⟩ := verdict_eq_accepted.1 haccepted
  -- no edit taken before is at a token of one of these
  have hapart : ∀ e ∈ edits, ∀ d ∈ before.flatten, d.index ≠ e.index := by
    intro e he d hd heq
    exact (hfree e he).1 ((h.touched _).2 ⟨d, hd, heq⟩)
  refine ⟨?_, ?_, fun i => ?_, ?_, fun e he => ?_, fun i hi => ?_⟩
  · exact (size_foldl edits f.texts).trans h.size
  · show f.accepted + 1 = (before ++ [edits]).length
    rw [h.count, List.length_append, List.length_singleton]
  · show i ∈ edits.map (·.index) ++ f.touched ↔ _
    rw [List.mem_append, h.touched, List.flatten_concat, List.mem_map]
    simp only [List.mem_append, or_and_right, exists_or]
    exact or_comm
  · rw [List.flatten_concat, List.map_append, List.nodup_append]
    refine ⟨h.once, hnodup, ?_⟩
    rintro i hi j hj rfl
    obtain ⟨d, hd, rfl⟩ := List.mem_map.1 hi
    obtain ⟨e, he, heq⟩ := List.mem_map.1 hj
    exact hapart e he d hd heq.symm
  · rw [List.flatten_concat] at he
    rcases List.mem_append.1 he with he | he
    · refine (getElem?_foldl_of_not_mem f.texts fun d hd heq => ?_).trans (h.written e he)
      exact hapart d hd e he heq.symm
    · exact getElem?_foldl_of_mem f.texts hnodup he
        (Array.getElem?_eq_some_iff.1 (hfree e he).2).1
  · rw [List.flatten_concat] at hi
    exact (getElem?_foldl_of_not_mem f.texts fun e he => hi e (List.mem_append_right _ he)).trans
      (h.kept i fun e he => hi e (List.mem_append_left _ he))

/-- Whatever becomes of a proposal, the fixer has taken what it accepted. -/
theorem Took.propose (h : f.Took s before) (hnodup : (edits.map (·.index)).Nodup) :
    (f.propose edits).1.Took s
      (if f.verdict edits = .accepted then before ++ [edits] else before) := by
  rw [propose_eq]
  cases hverdict : f.verdict edits with
  | accepted => exact h.apply hnodup hverdict
  | rejected obstacle => exact ⟨h.size, h.count, h.touched, h.once, h.written, h.kept⟩
  | outOfRange i => exact h

/-- A fixer takes those of further proposals that it accepts. -/
theorem Took.after (h : f.Took s before) {history : List (List Edit)}
    (hnodup : ∀ edits ∈ history, (edits.map (·.index)).Nodup) :
    (f.after history).Took s (before ++ f.taken history) := by
  induction history generalizing f before with
  | nil => simpa [Fixer.taken] using h
  | cons edits history ih =>
      obtain ⟨hedits, hhistory⟩ := List.forall_mem_cons.1 hnodup
      have hrest := ih (h.propose hedits) hhistory
      rw [after_cons, Fixer.taken]
      split
      · next haccepted => simpa [haccepted] using hrest
      · next hrejected => simpa [hrejected] using hrest

/-- What is accepted stays written, whatever is proposed before and after it. -/
theorem Took.getElem?_of_accepted (h : f.Took s before) {earlier later : List (List Edit)}
    (hnodup : ∀ es ∈ earlier ++ edits :: later, (es.map (·.index)).Nodup)
    (haccepted : (f.after earlier).verdict edits = .accepted) {e : Edit} (he : e ∈ edits) :
    (f.after (earlier ++ edits :: later)).texts[e.index]? = some e.newText := by
  obtain ⟨hearlier, hrest⟩ := List.forall_mem_append.1 hnodup
  obtain ⟨hedits, hlater⟩ := List.forall_mem_cons.1 hrest
  have htook := (h.after hearlier).propose hedits
  rw [if_pos haccepted] at htook
  rw [after_append, after_cons]
  refine (htook.after hlater).written e (List.mem_flatten.2 ⟨edits, ?_, he⟩)
  exact List.mem_append_left _ (List.mem_append_right _ List.mem_cons_self)

/-- What a fixer takes was proposed to it. -/
theorem mem_of_mem_taken {f : Fixer} {history : List (List Edit)} (h : edits ∈ f.taken history) :
    edits ∈ history := by
  induction history generalizing f with
  | nil => cases h
  | cons first history ih =>
      rw [taken] at h
      split at h
      · rcases List.mem_cons.1 h with rfl | h
        · exact List.mem_cons_self
        · exact List.mem_cons_of_mem _ (ih h)
      · exact List.mem_cons_of_mem _ (ih h)

/-- What was taken of changes of the stream was written by these changes. -/
theorem Took.wrote {cs : List Changeset} (h : f.Took s (cs.map (·.edits)))
    (hcs : ∀ c ∈ cs, c.Over s) : f.Wrote s cs := by
  -- the edits that were taken are at the tokens that get another text
  have hmem : ∀ {t c}, s.Has t → c ∈ cs → c.current t ≠ t.text →
      (⟨t.index, t.text, c.current t⟩ : Edit) ∈ c.edits := fun ht hc hne =>
    (hcs _ hc).mem_edits.2 ⟨_, ht, hne, rfl⟩
  have hflatten : ∀ {e c}, c ∈ cs → e ∈ c.edits → e ∈ (cs.map (·.edits)).flatten := fun hc he =>
    List.mem_flatten.2 ⟨_, List.mem_map_of_mem hc, he⟩
  have hindex : ∀ {t}, s.Has t →
      ((∃ e ∈ (cs.map (·.edits)).flatten, e.index = t.index) ↔ ∃ c ∈ cs, c.current t ≠ t.text) := by
    intro t ht
    constructor
    · rintro ⟨e, he, heq⟩
      obtain ⟨edits, hedits, he⟩ := List.mem_flatten.1 he
      obtain ⟨c, hc, rfl⟩ := List.mem_map.1 hedits
      obtain ⟨u, hu, hne, rfl⟩ := (hcs c hc).mem_edits.1 he
      obtain rfl := hu.eq ht heq
      exact ⟨c, hc, hne⟩
    · rintro ⟨c, hc, hne⟩
      exact ⟨_, hflatten hc (hmem ht hc hne), rfl⟩
  refine ⟨h.size, h.count.trans (List.length_map _), fun ht => (h.touched _).trans (hindex ht),
    ?_, ?_, ?_⟩
  · intro t c ht hc hne
    rw [Fixer.written, h.written _ (hflatten hc (hmem ht hc hne))]
    rfl
  · intro t ht hkeep
    have hfree : ∀ e ∈ (cs.map (·.edits)).flatten, e.index ≠ t.index := by
      intro e he heq
      obtain ⟨c, hc, hne⟩ := (hindex ht).1 ⟨e, he, heq⟩
      exact hne (hkeep c hc)
    have hget : s.get? t.index = some t := ht
    rw [Fixer.written, h.kept t.index hfree, hget]
    rfl
  · intro t c d ht hc hd hne hne'
    let apart := fun c d : Changeset => (c.edits.map (·.index)).Disjoint (d.edits.map (·.index))
    have hapart : cs.Pairwise apart := by
      have honce := h.once
      rw [List.map_flatten, List.nodup_flatten, List.map_map, List.pairwise_map] at honce
      exact honce.2
    have hsymm : Std.Symm apart := ⟨fun _ _ hdisjoint i hi hi' => hdisjoint hi' hi⟩
    have hat : ∀ {c}, c ∈ cs → c.current t ≠ t.text → t.index ∈ c.edits.map (·.index) :=
      fun hc hne => List.mem_map.2 ⟨_, hmem ht hc hne, rfl⟩
    by_contra hcd
    exact hapart.forall hc hd hcd (hat hc hne) (hat hd hne')

/-- What a fixer accepts, in terms of the stream and of what it took before. -/
theorem Took.verdict_eq_accepted (h : f.Took s before) :
    f.verdict edits = .accepted ↔ edits ≠ [] ∧
      (∀ e ∈ edits, (s.get? e.index).map (·.text) = some e.oldText) ∧
      ∀ e ∈ edits, ∀ d ∈ before.flatten, d.index ≠ e.index := by
  rw [Fixer.verdict_eq_accepted, ← forall₂_and]
  refine and_congr_right fun _ => forall₂_congr fun e he => ?_
  rw [h.touched, and_comm]
  constructor
  · rintro ⟨htext, hfree⟩
    have hfree : ∀ d ∈ before.flatten, d.index ≠ e.index := fun d hd heq => hfree ⟨d, hd, heq⟩
    exact ⟨(h.kept _ hfree).symm.trans htext, hfree⟩
  · rintro ⟨htext, hfree⟩
    exact ⟨(h.kept _ hfree).trans htext, fun ⟨d, hd, heq⟩ => hfree d hd heq⟩

/-- Every proposal of edits at tokens of the fixer is counted. -/
theorem counts_after {history : List (List Edit)}
    (h : ∀ edits ∈ history, ∀ e ∈ edits, e.index < f.texts.size) :
    (f.after history).accepted + (f.after history).rejected =
      f.accepted + f.rejected + history.length := by
  induction history generalizing f with
  | nil => rfl
  | cons edits history ih =>
      obtain ⟨hedits, hhistory⟩ := List.forall_mem_cons.1 h
      rw [after_cons, propose_eq, List.length_cons]
      cases hverdict : f.verdict edits with
      | accepted =>
          have hsize : (f.apply edits).texts.size = f.texts.size := size_foldl edits f.texts
          refine (ih (f := f.apply edits) (by rwa [hsize])).trans ?_
          show f.accepted + 1 + f.rejected + history.length = _
          omega
      | rejected obstacle =>
          refine (ih (f := { f with rejected := f.rejected + 1 }) hhistory).trans ?_
          show f.accepted + (f.rejected + 1) + history.length = _
          omega
      | outOfRange i => exact absurd hverdict (verdict_ne_outOfRange hedits i)

/-! ## The order of proposals -/

/-- What becomes of edits depends only on the tokens that they are at. -/
theorem verdict_congr {g : Fixer}
    (h : ∀ e ∈ edits, (e.index ∈ f.touched ↔ e.index ∈ g.touched) ∧
      f.texts[e.index]? = g.texts[e.index]?) : f.verdict edits = g.verdict edits := by
  have hobstacle : f.obstacle? edits = g.obstacle? edits := by
    induction edits with
    | nil => rfl
    | cons e es ih =>
        obtain ⟨⟨htouched, htext⟩, hes⟩ := List.forall_mem_cons.1 h
        have hcontains : f.touched.contains e.index = g.touched.contains e.index := by
          simp only [List.contains_eq_mem, htouched]
        rw [obstacle?, obstacle?, hcontains, htext, ih hes]
  rw [verdict, verdict, hobstacle]

/-- The fixers hold the same texts, changed the same tokens and counted the same proposals. -/
structure Alike (f g : Fixer) : Prop where
  texts : f.texts = g.texts
  touched : ∀ i, i ∈ f.touched ↔ i ∈ g.touched
  accepted : f.accepted = g.accepted
  rejected : f.rejected = g.rejected

namespace Alike

variable {g : Fixer}

/-- Fixers that are alike judge in the same way. -/
theorem verdict (h : f.Alike g) (edits : List Edit) : f.verdict edits = g.verdict edits :=
  verdict_congr fun e _ => ⟨h.touched e.index, by rw [h.texts]⟩

/-- Fixers that are alike stay alike with the same proposal. -/
theorem propose (h : f.Alike g) (edits : List Edit) :
    (f.propose edits).1.Alike (g.propose edits).1 := by
  rw [propose_eq, propose_eq, h.verdict edits]
  cases g.verdict edits with
  | accepted =>
      refine ⟨?_, fun i => ?_, congrArg (· + 1) h.accepted, h.rejected⟩
      · show edits.foldl _ f.texts = edits.foldl _ g.texts
        rw [h.texts]
      · show i ∈ edits.map (·.index) ++ f.touched ↔ i ∈ edits.map (·.index) ++ g.touched
        rw [List.mem_append, List.mem_append, h.touched]
  | rejected obstacle => exact ⟨h.texts, h.touched, h.accepted, congrArg (· + 1) h.rejected⟩
  | outOfRange i => exact h

/-- Fixers that are alike stay alike with the same proposals. -/
theorem after (h : f.Alike g) (history : List (List Edit)) :
    (f.after history).Alike (g.after history) := by
  induction history generalizing f g with
  | nil => exact h
  | cons edits history ih => exact ih (h.propose edits)

/-- Fixers that are alike judge the same proposals in the same way. -/
theorem verdicts (h : f.Alike g) (history : List (List Edit)) :
    f.verdicts history = g.verdicts history := by
  induction history generalizing f g with
  | nil => rfl
  | cons edits history ih => rw [Fixer.verdicts, Fixer.verdicts, h.verdict, ih (h.propose edits)]

end Alike

variable {first second : List Edit}

/-- A write to another token may be made before or after the edits. -/
theorem foldl_setIfInBounds (texts : Array String) {i : Nat} (text : String)
    (h : ∀ e ∈ edits, i ≠ e.index) :
    edits.foldl (fun texts e => texts.setIfInBounds e.index e.newText)
        (texts.setIfInBounds i text) =
      (edits.foldl (fun texts e => texts.setIfInBounds e.index e.newText)
        texts).setIfInBounds i text := by
  induction edits generalizing texts with
  | nil => rfl
  | cons e es ih =>
      obtain ⟨he, hes⟩ := List.forall_mem_cons.1 h
      rw [List.foldl_cons, List.foldl_cons, ← ih _ hes, Array.setIfInBounds_comm _ _ he]

/-- Edits of different tokens may be written in either order. -/
theorem texts_apply_comm (f : Fixer) (h : ∀ d ∈ first, ∀ e ∈ second, d.index ≠ e.index) :
    ((f.apply first).apply second).texts = ((f.apply second).apply first).texts := by
  show second.foldl _ (first.foldl _ f.texts) = first.foldl _ (second.foldl _ f.texts)
  generalize f.texts = texts
  induction first generalizing texts with
  | nil => rfl
  | cons d first ih =>
      obtain ⟨hd, hfirst⟩ := List.forall_mem_cons.1 h
      rw [List.foldl_cons, List.foldl_cons, ih hfirst, foldl_setIfInBounds _ _ hd]

/-- What becomes of edits does not depend on proposals of edits at other tokens. -/
theorem verdict_settle (f : Fixer) (h : ∀ d ∈ first, ∀ e ∈ second, d.index ≠ e.index)
    (v : Verdict) : (f.settle first v).verdict second = f.verdict second := by
  refine verdict_congr fun e he => ?_
  cases v with
  | accepted =>
      have hapart : ∀ d ∈ first, d.index ≠ e.index := fun d hd => h d hd e he
      refine ⟨?_, getElem?_foldl_of_not_mem f.texts hapart⟩
      show e.index ∈ first.map (·.index) ++ f.touched ↔ e.index ∈ f.touched
      rw [List.mem_append, List.mem_map]
      exact or_iff_right fun ⟨d, hd, heq⟩ => hapart d hd heq
  | rejected obstacle => exact ⟨Iff.rfl, rfl⟩
  | outOfRange i => exact ⟨Iff.rfl, rfl⟩

/-- Whatever becomes of proposals of edits at different tokens, they may be made in either order. -/
theorem settle_comm (f : Fixer) (h : ∀ d ∈ first, ∀ e ∈ second, d.index ≠ e.index)
    (v w : Verdict) :
    ((f.settle first v).settle second w).Alike ((f.settle second w).settle first v) := by
  cases v with
  | accepted =>
      cases w with
      | accepted =>
          refine ⟨texts_apply_comm f h, fun i => ?_, rfl, rfl⟩
          show i ∈ second.map (·.index) ++ (first.map (·.index) ++ f.touched) ↔
            i ∈ first.map (·.index) ++ (second.map (·.index) ++ f.touched)
          simp only [List.mem_append]
          exact or_left_comm
      | rejected obstacle => exact ⟨rfl, fun _ => Iff.rfl, rfl, rfl⟩
      | outOfRange i => exact ⟨rfl, fun _ => Iff.rfl, rfl, rfl⟩
  | rejected obstacle => cases w <;> exact ⟨rfl, fun _ => Iff.rfl, rfl, rfl⟩
  | outOfRange i => cases w <;> exact ⟨rfl, fun _ => Iff.rfl, rfl, rfl⟩

/-- Edits at different tokens may be proposed in either order: the same becomes of them, and the
fixer is the same. -/
theorem propose_swap (f : Fixer) (h : ∀ d ∈ first, ∀ e ∈ second, d.index ≠ e.index) :
    (f.propose first).1.verdict second = f.verdict second ∧
      (f.propose second).1.verdict first = f.verdict first ∧
      ((f.propose first).1.propose second).1.Alike ((f.propose second).1.propose first).1 := by
  have hsymm : ∀ e ∈ second, ∀ d ∈ first, e.index ≠ d.index := fun e he d hd => (h d hd e he).symm
  have hsecond := verdict_settle f h (f.verdict first)
  have hfirst := verdict_settle f hsymm (f.verdict second)
  simp only [propose_eq, hsecond, hfirst, true_and]
  exact settle_comm f h _ _

/-- In a history two neighbours at different tokens may change places. -/
theorem history_swap (f : Fixer) (earlier later : List (List Edit))
    (h : ∀ d ∈ first, ∀ e ∈ second, d.index ≠ e.index) :
    (∃ front x y back, front.length = earlier.length ∧
      f.verdicts (earlier ++ first :: second :: later) = front ++ x :: y :: back ∧
      f.verdicts (earlier ++ second :: first :: later) = front ++ y :: x :: back) ∧
      (f.after (earlier ++ first :: second :: later)).Alike
        (f.after (earlier ++ second :: first :: later)) := by
  obtain ⟨hsecond, hfirst, halike⟩ := (f.after earlier).propose_swap h
  refine ⟨⟨f.verdicts earlier, (f.after earlier).verdict first, (f.after earlier).verdict second,
    (((f.after earlier).propose first).1.propose second).1.verdicts later,
    length_verdicts f earlier, ?_, ?_⟩, ?_⟩
  · rw [verdicts_append, verdicts, verdicts, hsecond]
  · rw [verdicts_append, verdicts, verdicts, hfirst, halike.verdicts]
  · rw [after_append, after_append]
    exact halike.after later

/-! ## Histories as transactions -/

/-- A fresh fixer of the stream after the changes were proposed to it, one after the other. -/
def ofHistory (s : Stream) (history : List Changeset) : Fixer :=
  (ofStream s).after (history.map (·.edits))

/-- What becomes of the changes that are proposed to a fresh fixer, one after the other. -/
def outcomes (s : Stream) (history : List Changeset) : List Verdict :=
  (ofStream s).verdicts (history.map (·.edits))

/-- The edits of the changes that a fresh fixer accepts. -/
def writes (s : Stream) (history : List Changeset) : List Edit :=
  ((ofStream s).taken (history.map (·.edits))).flatten

/-- What a fresh fixer of the stream makes of changes that are proposed to it one after the other. -/
structure Transactional (s : Stream) (history : List Changeset) : Prop where
  /-- A proposal is accepted and its edits are applied, or it is rejected and only counted. -/
  whole : ∀ earlier c later, history = earlier ++ c :: later →
    let f := ofHistory s earlier
    let (g, verdict) := f.propose c.edits
    (verdict = .accepted ∧ f.Applies g c.edits) ∨
      (∃ obstacle, verdict = .rejected obstacle) ∧ g = { f with rejected := f.rejected + 1 }
  /-- A proposal is accepted exactly when it has edits, all of them were computed against the texts
  of the stream, and none is at a token of an earlier accepted one. -/
  accepted_iff : ∀ earlier c later, history = earlier ++ c :: later →
    (((ofHistory s earlier).propose c.edits).2 = .accepted ↔
      c.edits ≠ [] ∧ (∀ e ∈ c.edits, (s.get? e.index).map (·.text) = some e.oldText) ∧
        ∀ e ∈ c.edits, ∀ d ∈ writes s earlier, d.index ≠ e.index)
  /-- Every proposal is counted once. -/
  counted : (ofHistory s history).accepted + (ofHistory s history).rejected = history.length
  /-- No token is rewritten twice. -/
  once : ((writes s history).map (·.index)).Nodup
  /-- A token of an accepted proposal holds what that proposal gave it. -/
  written : ∀ e ∈ writes s history, (ofHistory s history).texts[e.index]? = some e.newText
  /-- A token of no accepted proposal holds the text of the stream. -/
  kept : ∀ i, (∀ e ∈ writes s history, e.index ≠ i) →
    (ofHistory s history).texts[i]? = (s.get? i).map (·.text)
  /-- Neighbours at different tokens may change places. -/
  swap : ∀ earlier c d later, history = earlier ++ c :: d :: later →
    (∀ e ∈ c.edits, ∀ e' ∈ d.edits, e.index ≠ e'.index) →
    (∃ front x y back, front.length = earlier.length ∧
      outcomes s history = front ++ x :: y :: back ∧
      outcomes s (earlier ++ d :: c :: later) = front ++ y :: x :: back) ∧
    (ofHistory s (earlier ++ d :: c :: later)).text = (ofHistory s history).text

/-- A fixer with a history has taken what it accepted of it. -/
theorem took_ofHistory (s : Stream) {history : List Changeset}
    (h : ∀ c ∈ history, (c.edits.map (·.index)).Nodup) :
    (ofHistory s history).Took s ((ofStream s).taken (history.map (·.edits))) := by
  have hnodup : ∀ edits ∈ history.map (·.edits), (edits.map (·.index)).Nodup := by
    intro edits hedits
    obtain ⟨c, hc, rfl⟩ := List.mem_map.1 hedits
    exact h c hc
  exact (took_ofStream s).after hnodup

/-- Changes of any streams that are proposed to a fixer one after the other, all at tokens of the
fixer, are transactions: each is taken as a whole or not at all. -/
theorem transactional_of_over (s : Stream) (history : List Changeset)
    (bound : ∀ c ∈ history, ∃ origin : Stream, c.Over origin)
    (inside : ∀ c ∈ history, ∀ e ∈ c.edits, e.index < s.size) : Transactional s history := by
  have hnodup : ∀ c ∈ history, (c.edits.map (·.index)).Nodup := by
    intro c hc
    obtain ⟨origin, hover⟩ := bound c hc
    exact hover.nodup_edits
  have htook := took_ofHistory s hnodup
  have hearlier : ∀ earlier c later, history = earlier ++ c :: later →
      (ofHistory s earlier).Took s ((ofStream s).taken (earlier.map (·.edits))) := by
    rintro earlier c later rfl
    exact took_ofHistory s fun d hd => hnodup d (List.mem_append_left _ hd)
  refine ⟨fun earlier c later heq => ?_, fun earlier c later heq => ?_, ?_, htook.once,
    htook.written, htook.kept, fun earlier c d later heq hapart => ?_⟩
  · have hc : c ∈ history := by simp [heq]
    have hpropose := propose_eq (ofHistory s earlier) c.edits
    cases hverdict : (ofHistory s earlier).verdict c.edits with
    | accepted =>
        rw [hverdict] at hpropose
        have happlies := applies_of_accepted (hnodup c hc) hverdict
        exact .inl ⟨congrArg Prod.snd hpropose, happlies⟩
    | rejected obstacle =>
        rw [hverdict] at hpropose
        exact .inr ⟨⟨obstacle, congrArg Prod.snd hpropose⟩, congrArg Prod.fst hpropose⟩
    | outOfRange i =>
        have hrange : ∀ e ∈ c.edits, e.index < (ofHistory s earlier).texts.size := by
          rw [(hearlier earlier c later heq).size]
          exact inside c hc
        exact absurd hverdict (verdict_ne_outOfRange hrange i)
  · rw [propose_eq]
    exact (hearlier earlier c later heq).verdict_eq_accepted
  · have hrange : ∀ edits ∈ history.map (·.edits), ∀ e ∈ edits,
        e.index < (ofStream s).texts.size := by
      intro edits hedits
      obtain ⟨c, hc, rfl⟩ := List.mem_map.1 hedits
      rw [(took_ofStream s).size]
      exact inside c hc
    have hcounts := counts_after hrange
    rw [List.length_map] at hcounts
    exact hcounts.trans (Nat.zero_add _)
  · subst heq
    obtain ⟨houtcomes, halike⟩ := (ofStream s).history_swap (earlier.map (·.edits))
      (later.map (·.edits)) hapart
    unfold outcomes ofHistory
    simp only [List.map_append, List.map_cons, List.length_map] at houtcomes ⊢
    refine ⟨houtcomes, ?_⟩
    rw [text, text, halike.texts]

/-- Of five changes the first is accepted, one that collides with it, one that was computed against
another text and one without edits are rejected, and one at another token is accepted. -/
theorem transactional_collision :
    let foo : Token := ⟨.docString, "Foo", 1, 1, 4⟩
    let bar : Token := ⟨.docString, "Bar", 1, 1, 4⟩
    let closer : Token := ⟨.docClose, "*/", 2, 1, 7⟩
    let s := Stream.ofTokens [⟨.docOpen, "/**", 0, 1, 1⟩, foo, closer]
    let history :=
      [Changeset.empty.replace foo "Baz",
       (Changeset.empty.prepend closer " ").append foo ".",
       Changeset.empty.replace bar "Foo",
       Changeset.empty.replace closer "*/",
       Changeset.empty.prepend closer " "]
    (∀ c ∈ history, ∃ origin : Stream, c.Over origin) ∧
      (∀ c ∈ history, ∀ e ∈ c.edits, e.index < s.size) ∧ Transactional s history ∧
      outcomes s history =
        [.accepted, .rejected (some 1), .rejected (some 1), .rejected none, .accepted] ∧
      (ofHistory s history).text = "/**Baz */" := by
  intro foo bar closer s history
  have hfoo : s.Has foo := rfl
  have hcloser : s.Has closer := rfl
  have hbar : (Stream.ofTokens [⟨.docOpen, "/**", 0, 1, 1⟩, bar, closer]).Has bar := rfl
  have bound : ∀ c ∈ history, ∃ origin : Stream, c.Over origin := by
    have hempty := Changeset.over_empty s
    simp only [history, List.forall_mem_cons, List.not_mem_nil, false_imp_iff, implies_true,
      and_true]
    exact ⟨⟨s, hempty.replace hfoo _⟩, ⟨s, (hempty.prepend hcloser _).append hfoo _⟩,
      ⟨_, (Changeset.over_empty _).replace hbar _⟩, ⟨s, hempty.replace hcloser _⟩,
      ⟨s, hempty.prepend hcloser _⟩⟩
  have inside : ∀ c ∈ history, ∀ e ∈ c.edits, e.index < s.size := by decide
  exact ⟨bound, inside, transactional_of_over s history bound inside, by decide +kernel,
    by decide +kernel⟩

end Fixer

end PhpDoc
