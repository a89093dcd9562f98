import PhpDoc.Lint.Check
import PhpDoc.Proofs.Comment.Preceding
import PhpDoc.Proofs.Data.Result
import PhpDoc.Proofs.Rule.Effective

/-!
# Checking a stream

Every marker of a source text has its partner, so checking the stream of a text always succeeds
(`exists_checkStream`), and all of its findings are effective.
-/

namespace PhpDoc.Lint

variable {s : Stream} {config : Config}

/-- A result with a property that can be decided. -/
theorem exists_ok_of_any {α ε : Type} {x : Except ε α} {p : α → Bool}
    (h : x.toOption.any p = true) : ∃ a, x = .ok a ∧ p a = true := by
  cases x with
  | error e => cases h
  | ok a => exact ⟨a, rfl, h⟩

/-- The comment of an open marker. -/
theorem exists_commentAt (hs : s.Sound) {t : Token} (ht : s.Has t) (hkind : t.kind = .docOpen) :
    ∃ c ∈ s.comments, c.opener = t ∧ s.commentAt? t.index = some c := by
  obtain ⟨c, hc, rfl⟩ := hs.exists_of_open ht hkind
  cases hfound : s.commentAt? c.opener.index with
  | none =>
      have := List.find?_eq_none.1 hfound c hc
      simp at this
  | some d =>
      have hd := List.mem_of_find?_eq_some hfound
      have hindex : d.opener.index = c.opener.index := by simpa using List.find?_some hfound
      exact ⟨d, hd, (hs.frames hd).opener.eq ht hindex, rfl⟩

/-- The comment of a close marker. -/
theorem exists_commentClosedAt (hs : s.Sound) {t : Token} (ht : s.Has t)
    (hkind : t.kind = .docClose) :
    ∃ c ∈ s.comments, c.closer = t ∧ s.commentClosedAt? t.index = some c := by
  obtain ⟨c, hc, rfl⟩ := hs.exists_of_close ht hkind
  cases hfound : s.commentClosedAt? c.closer.index with
  | none =>
      have := List.find?_eq_none.1 hfound c hc
      simp at this
  | some d =>
      have hd := List.mem_of_find?_eq_some hfound
      have hindex : d.closer.index = c.closer.index := by simpa using List.find?_some hfound
      exact ⟨d, hd, (hs.frames hd).closer.eq ht hindex, rfl⟩

/-- Every token of a source text can be checked, and the findings at it are effective. -/
theorem exists_checkToken (config : Config) (hs : s.Sound) {t : Token} (ht : s.Has t) :
    ∃ vs, checkToken config s t = .ok vs ∧ ∀ v ∈ vs, v.Effective s := by
  unfold checkToken
  split
  · next hkind =>
      obtain ⟨c, hc, -, hfound⟩ := exists_commentAt hs ht hkind
      unfold checkBlock
      rw [hfound]
      exact ⟨_, rfl, fun v hv => (Layout.fixedBy_check hs (hs.frames hc) hv).imp fun _ repair =>
        .layout (hs.frames hc) repair⟩
  · next hfunction =>
      unfold checkFunction
      simp only
      split
      · exact ⟨_, rfl, by simp [Violation.fixedBy_error]⟩
      · exact ⟨_, rfl, by simp [Violation.fixedBy_error]⟩
      · next closer hclose =>
          obtain ⟨hhas, hkind, -⟩ := Preceding.find_eq_doc hs.toPlaced hclose
          obtain ⟨c, hc, rfl, hfound⟩ := exists_commentClosedAt hs hhas hkind
          rw [hfound]
          exact ⟨_, rfl, fun v hv =>
            FunctionRule.effective_checkComment hs (hs.frames hc) ht hfunction hclose hv⟩
  · split
    · unfold checkProperty
      split
      · exact ⟨_, rfl, by simp [Violation.fixedBy_error]⟩
      · exact ⟨_, rfl, by simp [Violation.fixedBy_error]⟩
      · next closer hclose =>
          obtain ⟨hhas, hkind, -⟩ := Preceding.find_eq_doc hs.toPlaced hclose
          obtain ⟨c, hc, -, hfound⟩ := exists_commentClosedAt hs hhas hkind
          rw [hfound]
          exact ⟨_, rfl, fun v hv => PropertyRule.effective_checkComment (hs.frames hc) hv⟩
    · exact ⟨[], rfl, by simp⟩
  · exact ⟨[], rfl, by simp⟩

/-- The stream of a source text can be checked, and all findings are effective. -/
theorem exists_checkStream (config : Config) (hs : s.Sound) :
    ∃ vs, checkStream config s = .ok vs ∧ ∀ v ∈ vs, v.Effective s := by
  have htokens : ∀ t ∈ s.tokens.toList,
      ∃ vs, checkToken config s t = .ok vs ∧ ∀ v ∈ vs, v.Effective s :=
    fun t ht => exists_checkToken config hs ((Stream.has_iff_mem hs.toPlaced).2 ht)
  obtain ⟨vss, hvss, heffective⟩ := Result.exists_mapM htokens
  refine ⟨vss.flatten, by rw [checkStream, hvss]; rfl, fun v hv => ?_⟩
  obtain ⟨vs, hvs, hv⟩ := List.mem_flatten.1 hv
  exact heffective vs hvs v hv

/-- The findings of a stream are those at its tokens, one token after the other. -/
theorem exists_forall₂_of_checkStream {vs : List Violation} (h : checkStream config s = .ok vs) :
    ∃ vss, List.Forall₂ (fun t ws => checkToken config s t = .ok ws) s.tokens.toList vss ∧
      vs = vss.flatten := by
  unfold checkStream at h
  cases hmap : s.tokens.toList.mapM (checkToken config s) with
  | error e =>
      rw [hmap] at h
      cases h
  | ok vss =>
      rw [hmap] at h
      cases h
      exact ⟨vss, Result.mapM_eq_ok_iff.1 hmap, rfl⟩

/-- Every finding of a stream is a finding at one of its tokens, and the other way round. -/
theorem mem_checkStream {vs : List Violation} (h : checkStream config s = .ok vs) {v : Violation} :
    v ∈ vs ↔ ∃ t ∈ s.tokens.toList, ∃ ws, checkToken config s t = .ok ws ∧ v ∈ ws := by
  obtain ⟨vss, hall, rfl⟩ := exists_forall₂_of_checkStream h
  clear h
  generalize s.tokens.toList = ts at hall
  induction hall with
  | nil => simp
  | @cons t ws ts vss ht _ ih =>
      rw [List.flatten_cons, List.mem_append]
      constructor
      · rintro (hv | hv)
        · exact ⟨t, List.mem_cons_self, ws, ht, hv⟩
        · obtain ⟨u, hu, hrest⟩ := ih.1 hv
          exact ⟨u, List.mem_cons_of_mem _ hu, hrest⟩
      · rintro ⟨u, hu, ws', hws, hv⟩
        rcases List.mem_cons.1 hu with rfl | hu
        · rw [ht] at hws
          cases hws
          exact .inl hv
        · exact .inr (ih.2 ⟨u, hu, ws', hws, hv⟩)

/-- The layout findings of every comment are among the findings of its stream. -/
theorem mem_checkStream_of_layout (hs : s.Sound) {vs : List Violation}
    (h : checkStream config s = .ok vs) {c : CommentSpan} (hc : c ∈ s.comments) {v : Violation}
    (hv : v ∈ Layout.check s (Block.ofSpan s c)) : v ∈ vs := by
  have hframes := hs.frames hc
  obtain ⟨d, hd, hopener, hfound⟩ := exists_commentAt hs hframes.opener hframes.openerKind
  obtain rfl := hframes.eq (hs.frames hd) hopener.symm
  refine (mem_checkStream h).2
    ⟨c.opener, (Stream.has_iff_mem hs.toPlaced).1 hframes.opener, _, ?_, hv⟩
  simp only [checkToken, hframes.openerKind, checkBlock, hfound]

end PhpDoc.Lint
