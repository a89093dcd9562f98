import PhpDoc.Edit.Operation
import PhpDoc.Proofs.Edit.Fixer
import PhpDoc.Proofs.Token.Bracket

/-!
# A changeset is its operations in sequence

Operations on the tokens of a stream can be applied to the texts of these tokens, one after the
other (`Operation.apply`). The changeset that is built from them writes just what comes out of that.
Its edits are the tokens with another text in the end, in the order in which the operations first
came to them (`Changeset.Performs`, `Changeset.performs_of_operations`). So operations that have no
token in common may be exchanged, and the edits are the same but for their order.

While operations are recorded, the changeset stands for the texts to which they were applied so far
(`Changeset.Tracks`): one operation keeps that (`Tracks.record`), and so do all (`Tracks.run`).
-/

namespace PhpDoc

namespace Operation

variable {op other : Operation} {eol : String} {texts : Array String} {i : Nat}

/-! ## Operations on texts -/

/-- What the operation makes of the text of a token that it is on. -/
def effect (eol : String) : Operation → String → String
  | replace _ text, _ => text
  | append _ text, old => old ++ text
  | prepend _ text, old => text ++ old
  | newline _, old => old ++ eol
  | newlineBefore _, old => eol ++ old
  | blank _, _ => ""

/-- The texts with the operation applied at each of its indices. -/
def apply (eol : String) (texts : Array String) (op : Operation) : Array String :=
  op.indices.foldl (fun texts i => texts.modify i (op.effect eol)) texts

/-- A change that is the same when it is made twice is made where its index is named, however often.
-/
theorem getElem?_foldl_modify {f : String → String} (hf : ∀ old, f (f old) = f old)
    (indices : List Nat) (texts : Array String) (i : Nat) :
    (indices.foldl (fun texts i => texts.modify i f) texts)[i]? =
      if i ∈ indices then texts[i]?.map f else texts[i]? := by
  induction indices generalizing texts with
  | nil => rfl
  | cons first rest ih =>
      rw [List.foldl_cons, ih, Array.getElem?_modify]
      by_cases hfirst : first = i
      · subst hfirst
        by_cases hrest : first ∈ rest
        · simp [hrest, Function.comp_def, hf]
        · simp [hrest]
      · have hne : i ≠ first := fun heq => hfirst heq.symm
        simp [hfirst, hne]

/-- An operation changes the texts at its indices, each by itself. -/
theorem getElem?_apply (op : Operation) (eol : String) (texts : Array String) (i : Nat) :
    (op.apply eol texts)[i]? =
      if i ∈ op.indices then texts[i]?.map (op.effect eol) else texts[i]? := by
  have hone : ∀ (f : String → String) (j : Nat),
      (texts.modify j f)[i]? = if i ∈ [j] then texts[i]?.map f else texts[i]? := by
    intro f j
    simp only [Array.getElem?_modify, List.mem_singleton, eq_comm]
  cases op with
  | replace j text => exact hone _ j
  | append j text => exact hone _ j
  | prepend j text => exact hone _ j
  | newline j => exact hone _ j
  | newlineBefore j => exact hone _ j
  | blank indices => exact getElem?_foldl_modify (f := fun _ => "") (fun _ => rfl) indices texts i

/-- Operations that have no index in common can be applied in either order. -/
theorem apply_comm (h : op.indices.Disjoint other.indices) :
    other.apply eol (op.apply eol texts) = op.apply eol (other.apply eol texts) := by
  refine Array.ext_getElem? fun i => ?_
  rw [getElem?_apply, getElem?_apply, getElem?_apply, getElem?_apply]
  by_cases hi : i ∈ op.indices
  · rw [if_neg (h hi), if_neg (h hi)]
  · rw [if_neg hi, if_neg hi]

/-- The texts of the stream after the operations. -/
def textsAfter (s : Stream) (ops : List Operation) : Array String :=
  ops.foldl (apply s.eol) (Fixer.ofStream s).texts

end Operation

namespace Changeset

variable {s : Stream} {c d : Changeset} {t : Token} {texts : Array String} {touched : List Nat}
variable {op : Operation} {ops : List Operation} {e : Edit}

/-! ## Recording one operation after the other -/

/-- The changeset over the stream stands for the texts: they are what its tokens have now. It came
to the tokens in the order of the indices. -/
structure Tracks (s : Stream) (c : Changeset) (texts : Array String) (touched : List Nat) :
    Prop where
  based : c.Over s
  size : texts.size = s.size
  texts : ∀ {t}, s.Has t → texts[t.index]? = some (c.current t)
  order : c.pending.map (·.index) = touched.eraseDups

/-- Without operations the texts are those of the stream. -/
theorem tracks_empty (s : Stream) : Tracks s empty (Fixer.ofStream s).texts [] where
  based := over_empty s
  size := Array.size_map
  texts := by
    intro t ht
    have hget : s.tokens[t.index]? = some t := ht
    rw [Fixer.ofStream, Array.getElem?_map, hget]
    rfl
  order := rfl

/-- A further index is new unless it was named before. -/
theorem eraseDups_concat (indices : List Nat) (i : Nat) :
    (indices ++ [i]).eraseDups =
      if i ∈ indices then indices.eraseDups else indices.eraseDups ++ [i] := by
  rw [List.eraseDups_append]
  split
  · next h => simp [List.removeAll, h]
  · next h => simp [List.removeAll, h, List.eraseDups_cons]

/-- A token gets a text that is made of the one that it has. -/
theorem Tracks.modify (h : Tracks s c texts touched) (ht : s.Has t) (f : String → String) :
    Tracks s (c.replace t (f (c.current t))) (texts.modify t.index f) (touched ++ [t.index]) where
  based := h.based.replace ht _
  size := by rw [Array.size_modify, h.size]
  texts := by
    intro u hu
    rw [Array.getElem?_modify, current_replace, h.texts hu]
    by_cases heq : t.index = u.index
    · rw [if_pos heq, if_pos heq.symm, ht.eq hu heq]
      rfl
    · rw [if_neg heq, if_neg fun heq' => heq heq'.symm]
  order := by
    show (write t _ c.pending).map (·.index) = _
    rw [map_index_write, eraseDups_concat, h.order]
    simp only [List.mem_eraseDups]

/-- Blanking tokens is tracked by the operation that blanks their indices. -/
theorem Tracks.blank (h : Tracks s c texts touched) {ts : List Token} (hts : ∀ t ∈ ts, s.Has t) :
    Tracks s (c.blank ts) ((Operation.blank (ts.map (·.index))).apply s.eol texts)
      (touched ++ ts.map (·.index)) := by
  induction ts generalizing c texts touched with
  | nil =>
      rw [List.map_nil, List.append_nil]
      exact h
  | cons t ts ih =>
      obtain ⟨ht, hts⟩ := List.forall_mem_cons.1 hts
      have hrest := ih (h.modify ht fun _ => "") hts
      rwa [List.append_assoc] at hrest

/-- The edits are in the order in which their tokens were first touched. -/
theorem Tracks.map_index_edits (h : Tracks s c texts touched) :
    c.edits.map (·.index) =
      touched.eraseDups.filter fun i => texts[i]? != (Fixer.ofStream s).texts[i]? := by
  rw [← h.order, List.filter_map, edits]
  congr 1
  refine List.filter_congr fun e he => ?_
  obtain ⟨t, ht, hindex, hold⟩ := h.based.old e he
  obtain ⟨-, hnew⟩ := h.based.current_of_mem he ht hindex
  have htext : (Fixer.ofStream s).texts[t.index]? = some t.text := (tracks_empty s).texts ht
  simp only [Function.comp_apply, hindex, h.texts ht, htext, hold, hnew]
  rfl

/-! ## Doing what the operations do -/

/-- The changeset does what the operations do one after the other: written over the texts of the
stream, its edits make what the operations make of them. There is one edit for every token with
another text in the end, in the order in which the operations first came to the tokens, and it is
computed from the text of the stream. -/
structure Performs (s : Stream) (ops : List Operation) (c : Changeset) : Prop where
  texts : ((Fixer.ofStream s).apply c.edits).texts = Operation.textsAfter s ops
  once : (c.edits.map (·.index)).Nodup
  order : c.edits.map (·.index) = (ops.flatMap (·.indices)).eraseDups.filter fun i =>
    (Operation.textsAfter s ops)[i]? != (Fixer.ofStream s).texts[i]?
  mem_edits : ∀ e, e ∈ c.edits ↔ (Fixer.ofStream s).texts[e.index]? = some e.oldText ∧
    (Operation.textsAfter s ops)[e.index]? = some e.newText ∧ e.newText ≠ e.oldText

/-- Changesets of operations with the same texts in the end have the same edits, but for their
order. -/
theorem Performs.perm {others : List Operation} (hc : c.Performs s ops) (hd : d.Performs s others)
    (h : Operation.textsAfter s others = Operation.textsAfter s ops) : d.edits.Perm c.edits := by
  rw [List.perm_ext_iff_of_nodup (.of_map _ hd.once) (.of_map _ hc.once)]
  intro e
  rw [hc.mem_edits, hd.mem_edits, h]

section Numbered

variable (hs : Token.Numbered s.tokens.toList)

include hs

/-- Every index below the size of a stream has a token. -/
theorem exists_token {i : Nat} (h : i < s.size) :
    ∃ t, s.get? i = some t ∧ s.Has t ∧ t.index = i := by
  have hget : s.get? i = some s.tokens[i] := Array.getElem?_eq_getElem h
  have hindex : s.tokens[i].index = i := hs i _ (Array.getElem?_toList ▸ hget)
  refine ⟨_, hget, ?_, hindex⟩
  rw [Stream.Has, hindex]
  exact hget

/-- Indices below the size of a stream have tokens. -/
theorem exists_tokens {indices : List Nat} (h : ∀ i ∈ indices, i < s.size) :
    ∃ ts, indices.mapM s.get? = some ts ∧ (∀ t ∈ ts, s.Has t) ∧ ts.map (·.index) = indices := by
  induction indices with
  | nil => exact ⟨[], rfl, by simp, rfl⟩
  | cons i indices ih =>
      obtain ⟨hi, hindices⟩ := List.forall_mem_cons.1 h
      obtain ⟨t, hget, ht, rfl⟩ := exists_token hs hi
      obtain ⟨ts, hts, hhas, rfl⟩ := ih hindices
      refine ⟨t :: ts, ?_, List.forall_mem_cons.2 ⟨ht, hhas⟩, rfl⟩
      rw [List.mapM_cons, hget, hts]
      rfl

/-- An operation at tokens of the stream is recorded, and the changeset then stands for the texts to
which it was applied. -/
theorem Tracks.record (h : Tracks s c texts touched) (hop : ∀ i ∈ op.indices, i < s.size) :
    ∃ d, op.record s c = some d ∧
      Tracks s d (op.apply s.eol texts) (touched ++ op.indices) := by
  have hone : ∀ {i : Nat}, i < s.size → ∀ f : String → String, ∃ t, s.get? i = some t ∧
      Tracks s (c.replace t (f (c.current t))) (texts.modify i f) (touched ++ [i]) := by
    intro i hi f
    obtain ⟨t, hget, ht, rfl⟩ := exists_token hs hi
    exact ⟨t, hget, h.modify ht f⟩
  cases op with
  | replace i text =>
      obtain ⟨t, hget, htracks⟩ := hone (hop i List.mem_cons_self) fun _ => text
      exact ⟨_, by rw [Operation.record, hget]; rfl, htracks⟩
  | append i text =>
      obtain ⟨t, hget, htracks⟩ := hone (hop i List.mem_cons_self) fun old => old ++ text
      exact ⟨_, by rw [Operation.record, hget]; rfl, htracks⟩
  | prepend i text =>
      obtain ⟨t, hget, htracks⟩ := hone (hop i List.mem_cons_self) fun old => text ++ old
      exact ⟨_, by rw [Operation.record, hget]; rfl, htracks⟩
  | newline i =>
      obtain ⟨t, hget, htracks⟩ := hone (hop i List.mem_cons_self) fun old => old ++ s.eol
      exact ⟨_, by rw [Operation.record, hget]; rfl, htracks⟩
  | newlineBefore i =>
      obtain ⟨t, hget, htracks⟩ := hone (hop i List.mem_cons_self) fun old => s.eol ++ old
      exact ⟨_, by rw [Operation.record, hget]; rfl, htracks⟩
  | blank indices =>
      have hindices : ∀ i ∈ indices, i < s.size := hop
      obtain ⟨ts, hmap, hhas, rfl⟩ := exists_tokens hs hindices
      exact ⟨_, by rw [Operation.record, hmap]; rfl, h.blank hhas⟩

/-- Operations at tokens of the stream are recorded one after the other. -/
theorem Tracks.run (h : Tracks s c texts touched)
    (hops : ∀ op ∈ ops, ∀ i ∈ op.indices, i < s.size) :
    ∃ d, ops.foldlM (Operation.record s) c = some d ∧
      Tracks s d (ops.foldl (Operation.apply s.eol) texts)
        (touched ++ ops.flatMap (·.indices)) := by
  induction ops generalizing c texts touched with
  | nil =>
      rw [List.flatMap_nil, List.append_nil]
      exact ⟨c, rfl, h⟩
  | cons op ops ih =>
      obtain ⟨hop, hops⟩ := List.forall_mem_cons.1 hops
      obtain ⟨d, hrecord, htracks⟩ := h.record hs hop
      obtain ⟨final, hrun, hfinal⟩ := ih htracks hops
      refine ⟨final, ?_, ?_⟩
      · rw [List.foldlM_cons, hrecord]
        exact hrun
      · rwa [List.append_assoc] at hfinal

/-- The changeset of operations at tokens of the stream. -/
theorem exists_ofOperations (hops : ∀ op ∈ ops, ∀ i ∈ op.indices, i < s.size) :
    ∃ c, ofOperations s ops = some c ∧
      Tracks s c (Operation.textsAfter s ops) (ops.flatMap (·.indices)) :=
  (tracks_empty s).run hs hops

/-- The edits are at the tokens with another text: each is computed from the text of the stream, and
gives the token the text that it has now. -/
theorem Tracks.mem_edits (h : Tracks s c texts touched) :
    e ∈ c.edits ↔ (Fixer.ofStream s).texts[e.index]? = some e.oldText ∧
      texts[e.index]? = some e.newText ∧ e.newText ≠ e.oldText := by
  rw [h.based.mem_edits]
  constructor
  · rintro ⟨t, ht, hne, rfl⟩
    exact ⟨(tracks_empty s).texts ht, h.texts ht, hne⟩
  · rintro ⟨hold, hnew, hne⟩
    have hlt : e.index < s.size := by
      have hbound := (Array.getElem?_eq_some_iff.1 hold).1
      rwa [(tracks_empty s).size] at hbound
    obtain ⟨t, -, ht, hindex⟩ := exists_token hs hlt
    rw [← hindex, (tracks_empty s).texts ht] at hold
    rw [← hindex, h.texts ht] at hnew
    have hold : t.text = e.oldText := Option.some.inj hold
    have hnew : c.current t = e.newText := Option.some.inj hnew
    exact ⟨t, ht, by rwa [hnew, hold], by rw [hindex, hold, hnew]⟩

/-- Where there is no edit, the token has the text of the stream. -/
theorem Tracks.getElem?_of_not_mem (h : Tracks s c texts touched) {i : Nat}
    (hi : ∀ e ∈ c.edits, e.index ≠ i) : texts[i]? = (Fixer.ofStream s).texts[i]? := by
  by_cases hlt : i < s.size
  · obtain ⟨t, -, ht, rfl⟩ := exists_token hs hlt
    have htext : (Fixer.ofStream s).texts[t.index]? = some t.text := (tracks_empty s).texts ht
    rw [h.texts ht, htext]
    by_contra hne
    have hcurrent : c.current t ≠ t.text := fun heq => hne (congrArg some heq)
    exact hi _ (h.based.mem_edits.2 ⟨t, ht, hcurrent, rfl⟩) rfl
  · have hsize := (tracks_empty s).size
    rw [Array.getElem?_eq_none (by rw [h.size]; omega), Array.getElem?_eq_none (by omega)]

/-- Writing the edits makes the texts of the stream into the texts. -/
theorem Tracks.texts_apply (h : Tracks s c texts touched) :
    ((Fixer.ofStream s).apply c.edits).texts = texts := by
  refine Array.ext_getElem? fun i => ?_
  by_cases hi : ∃ e ∈ c.edits, e.index = i
  · obtain ⟨e, he, rfl⟩ := hi
    obtain ⟨hold, hnew, -⟩ := (h.mem_edits hs).1 he
    rw [hnew]
    exact Fixer.getElem?_foldl_of_mem _ h.based.nodup_edits he (Array.getElem?_eq_some_iff.1 hold).1
  · have hi : ∀ e ∈ c.edits, e.index ≠ i := fun e he heq => hi ⟨e, he, heq⟩
    rw [h.getElem?_of_not_mem hs hi]
    exact Fixer.getElem?_foldl_of_not_mem _ hi

/-- A changeset that tracks the texts of operations performs the operations. -/
theorem Tracks.performs
    (h : Tracks s c (Operation.textsAfter s ops) (ops.flatMap (·.indices))) :
    c.Performs s ops where
  texts := h.texts_apply hs
  once := h.based.nodup_edits
  order := h.map_index_edits
  mem_edits := fun _ => h.mem_edits hs

/-- The changeset of operations at tokens of a stream does what they do one after the other, and
two operations in a row that have no token in common can be exchanged. -/
theorem performs_of_operations (hops : ∀ op ∈ ops, ∀ i ∈ op.indices, i < s.size) :
    ∃ c, ofOperations s ops = some c ∧ c.Performs s ops ∧
      ∀ before first second after, ops = before ++ first :: second :: after →
        first.indices.Disjoint second.indices →
        ∃ d, ofOperations s (before ++ second :: first :: after) = some d ∧
          ((Fixer.ofStream s).apply d.edits).texts = Operation.textsAfter s ops ∧
          d.edits.Perm c.edits := by
  obtain ⟨c, hc, htracks⟩ := exists_ofOperations hs hops
  have hperforms := htracks.performs hs
  refine ⟨c, hc, hperforms, ?_⟩
  rintro before first second after rfl hdisjoint
  have hswapped : ∀ op ∈ before ++ second :: first :: after, ∀ i ∈ op.indices, i < s.size := by
    intro op hop
    refine hops op ?_
    simp only [List.mem_append, List.mem_cons] at hop ⊢
    tauto
  obtain ⟨d, hd, hdtracks⟩ := exists_ofOperations hs hswapped
  have hsame : Operation.textsAfter s (before ++ second :: first :: after) =
      Operation.textsAfter s (before ++ first :: second :: after) := by
    simp only [Operation.textsAfter, List.foldl_append, List.foldl_cons]
    rw [Operation.apply_comm hdisjoint]
  have hdperforms := hdtracks.performs hs
  exact ⟨d, hd, hdperforms.texts.trans hsame, hperforms.perm hdperforms hsame⟩

end Numbered

/-- Of three tokens one is changed several times, one is emptied, and one gets its own text back, so
that there are two edits. Two operations in a row on different tokens can be exchanged. -/
theorem performs_of_operations_three_tokens :
    let s := Stream.ofTokens
      (Token.place 0 Position.start [⟨.docOpen, "/**"⟩, ⟨.docString, "Foo"⟩, ⟨.docClose, "*/"⟩])
    let ops : List Operation :=
      [.append 1 "!", .blank [2, 1], .prepend 1 "X", .newline 0, .replace 0 "/**"]
    let swapped : List Operation :=
      [.append 1 "!", .blank [2, 1], .newline 0, .prepend 1 "X", .replace 0 "/**"]
    Token.Numbered s.tokens.toList ∧ (∀ op ∈ ops, ∀ i ∈ op.indices, i < s.size) ∧
      ∃ c, ofOperations s ops = some c ∧ c.Performs s ops ∧
        c.edits = [⟨1, "Foo", "X"⟩, ⟨2, "*/", ""⟩] ∧
        ∃ d, ofOperations s swapped = some d ∧ d.edits.Perm c.edits := by
  intro s ops swapped
  have hs : Token.Numbered s.tokens.toList := by
    intro i t ht
    rw [Array.getElem?_toList] at ht
    exact (Stream.placed_ofTokens _).index ht
  have hops : ∀ op ∈ ops, ∀ i ∈ op.indices, i < s.size := by decide
  have hedits : (ofOperations s ops).map (·.edits) = some [⟨1, "Foo", "X"⟩, ⟨2, "*/", ""⟩] := by
    decide +kernel
  obtain ⟨c, hc, hperforms, hswap⟩ := performs_of_operations hs hops
  rw [hc] at hedits
  obtain ⟨d, hd, -, hperm⟩ := hswap [.append 1 "!", .blank [2, 1]] (.prepend 1 "X") (.newline 0)
    [.replace 0 "/**"] rfl (by simp [Operation.indices])
  exact ⟨hs, hops, c, hc, hperforms, Option.some.inj hedits, d, hd, hperm⟩

end Changeset

end PhpDoc
