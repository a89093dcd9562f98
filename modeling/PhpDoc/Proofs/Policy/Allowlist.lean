import PhpDoc.Proofs.Data.Result
import PhpDoc.Proofs.Policy.Engine
import PhpDoc.Proofs.Text.Lines

/-!
# Allowlists that can be used

The entries of an allowlist are read one after the other, each on its own (`ofEntries_eq_ok_iff`),
and the first one that is no exemption is reported with its place (`ofEntries_eq_error_iff`). An
exemption may end at a moment instead of a day, and such a one cannot be compared with a day: there
is no policy with it, for any day (`make_eq_ok_iff`). So an allowlist that is accepted can be used
exactly when none of its entries ends at a moment (`usable_iff`).
-/

namespace PhpDoc

namespace Exemption

variable {fields : List (String × Value)} {entry : Value} {entries : List Value}
variable {e : Exemption} {es : List Exemption} {place : Nat} {error : ExemptionError}

/-! ## Reading an entry -/

/-- Every field that an exemption needs is there. -/
def Complete (fields : List (String × Value)) : Prop :=
  textField fields "path" ≠ "" ∧ textField fields "code" ≠ "" ∧
    textField fields "justification" ≠ "" ∧ (expiryField fields).isBlank = false

/-- The entry gives the exemption: it is a mapping with all fields, and its last field gives the end
of the exemption. -/
inductive Gives : Value → Exemption → Prop
  | map {fields : List (String × Value)} {expiry : Expiry} : Complete fields →
      expiry? (expiryField fields) = some expiry →
      Gives (.map fields) ⟨textField fields "path", textField fields "code",
        textField fields "justification", expiry⟩

/-- The fault of an entry at a place: it is no mapping, a field is missing, or the last field gives
no end. -/
inductive Faulty (place : Nat) : Value → ExemptionError → Prop
  | notMapping {entry : Value} : (∀ fields, entry ≠ .map fields) →
      Faulty place entry (.notMapping place)
  | incomplete {fields : List (String × Value)} : ¬ Complete fields →
      Faulty place (.map fields) (.incomplete place)
  | invalidExpiry {fields : List (String × Value)} : Complete fields →
      expiry? (expiryField fields) = none →
      Faulty place (.map fields) (.invalidExpiry place (expiryField fields))

/-- What is looked at before the last field is read. -/
theorem lacks_iff : ((textField fields "path").isEmpty || (textField fields "code").isEmpty ||
    (textField fields "justification").isEmpty || (expiryField fields).isBlank) = true ↔
      ¬ Complete fields := by
  simp only [Complete, Bool.or_eq_true, String.isEmpty_iff, ne_eq,
    Classical.not_and_iff_not_or_not, Classical.not_not, Bool.not_eq_false, or_assoc]

/-- What an entry gives is read from it. -/
theorem Gives.ofEntry_eq (h : Gives entry e) (place : Nat) : ofEntry place entry = .ok e := by
  obtain ⟨hfields, hexpiry⟩ := h
  rw [ofEntry, if_neg fun hlacks => lacks_iff.1 hlacks hfields, hexpiry]

/-- A faulty entry is refused for its fault. -/
theorem Faulty.ofEntry_eq (h : Faulty place entry error) : ofEntry place entry = .error error := by
  cases h with
  | notMapping hentry =>
      unfold ofEntry
      split
      · next fields => exact absurd rfl (hentry fields)
      · rfl
  | incomplete hfields => exact if_pos (lacks_iff.2 hfields)
  | invalidExpiry hfields hexpiry =>
      rw [ofEntry, if_neg fun hlacks => lacks_iff.1 hlacks hfields, hexpiry]

/-- An entry gives an exemption, or it has a fault. -/
theorem gives_or_faulty (place : Nat) (entry : Value) :
    (∃ e, Gives entry e) ∨ ∃ error, Faulty place entry error := by
  by_cases hmap : ∃ fields, entry = .map fields
  · obtain ⟨fields, rfl⟩ := hmap
    by_cases hfields : Complete fields
    · cases hexpiry : expiry? (expiryField fields) with
      | some expiry => exact .inl ⟨_, .map hfields hexpiry⟩
      | none => exact .inr ⟨_, .invalidExpiry hfields hexpiry⟩
    · exact .inr ⟨_, .incomplete hfields⟩
  · exact .inr ⟨_, .notMapping fun fields hentry => hmap ⟨fields, hentry⟩⟩

/-- An entry is accepted exactly when it gives an exemption. -/
theorem ofEntry_eq_ok_iff : ofEntry place entry = .ok e ↔ Gives entry e := by
  refine ⟨fun h => ?_, fun h => h.ofEntry_eq place⟩
  rcases gives_or_faulty place entry with ⟨e', hgives⟩ | ⟨error, hfaulty⟩
  · rw [hgives.ofEntry_eq] at h
    cases h
    exact hgives
  · rw [hfaulty.ofEntry_eq] at h
    cases h

/-- An entry is refused exactly when it is faulty, and for its fault. -/
theorem ofEntry_eq_error_iff : ofEntry place entry = .error error ↔ Faulty place entry error := by
  refine ⟨fun h => ?_, Faulty.ofEntry_eq⟩
  rcases gives_or_faulty place entry with ⟨e, hgives⟩ | ⟨error', hfaulty⟩
  · rw [hgives.ofEntry_eq] at h
    cases h
  · rw [hfaulty.ofEntry_eq] at h
    cases h
    exact hfaulty

/-! ## Reading a list of entries -/

/-- A list is accepted exactly when each entry gives an exemption, and these come in its order. -/
theorem ofEntries_eq_ok_iff : ofEntries entries = .ok es ↔ List.Forall₂ Gives entries es := by
  have hentries : entries.zipIdx.map Prod.fst = entries := List.zipIdx_map_fst 0 entries
  rw [ofEntries, Result.mapM_eq_ok_iff]
  conv_rhs => rw [← hentries, List.forall₂_map_left_iff]
  simp only [ofEntry_eq_ok_iff]

/-- The error of a list is the fault of the first entry that gives no exemption, with its place. -/
theorem ofEntries_eq_error_iff : ofEntries entries = .error error ↔
    ∃ front entry back, entries = front ++ entry :: back ∧ (∀ x ∈ front, ∃ e, Gives x e) ∧
      Faulty front.length entry error := by
  rw [ofEntries, Result.mapM_eq_error_iff]
  constructor
  · rintro ⟨front, ⟨entry, i⟩, back, hsplit, hfront, hfault⟩
    obtain ⟨first, others, rfl, rfl, hothers⟩ := List.zipIdx_eq_append_iff.1 hsplit
    obtain ⟨x, rest, rfl, hentry, -⟩ := List.zipIdx_eq_cons_iff.1 hothers.symm
    cases hentry
    refine ⟨first, entry, rest, rfl, fun y hy => ?_, ?_⟩
    · obtain ⟨i, hi⟩ := List.getElem?_of_mem hy
      obtain ⟨e, he⟩ := hfront (y, i) (List.mk_mem_zipIdx_iff_getElem?.2 hi)
      exact ⟨e, ofEntry_eq_ok_iff.1 he⟩
    · rw [← ofEntry_eq_error_iff, ← Nat.zero_add first.length]
      exact hfault
  · rintro ⟨front, entry, back, rfl, hfront, hfault⟩
    refine ⟨front.zipIdx, (entry, front.length), back.zipIdx (front.length + 1), ?_, ?_,
      hfault.ofEntry_eq⟩
    · rw [List.zipIdx_append, List.zipIdx_cons, Nat.zero_add]
    · rintro ⟨y, i⟩ hy
      obtain ⟨e, he⟩ := hfront y (List.fst_mem_of_mem_zipIdx hy)
      exact ⟨e, he.ofEntry_eq i⟩

/-! ## Fields without white space around them -/

/-- There is no white space around the text. -/
def Stripped (text : String) : Prop :=
  Text.strip text = text

/-- A text field of an entry has no white space around it. -/
theorem stripped_textField (fields : List (String × Value)) (key : String) :
    Stripped (textField fields key) := by
  rw [Stripped, textField, Text.strip, Text.strip, String.toList_ofList, Text.trim_trim]

/-- The texts of an exemption are filled in, without white space around them. -/
theorem Gives.texts (h : Gives entry e) : ∀ text ∈ [e.path, e.code, e.justification],
    text ≠ "" ∧ Stripped text := by
  obtain ⟨⟨hpath, hcode, hjustification, -⟩, -⟩ := h
  simp only [List.forall_mem_cons, List.not_mem_nil, false_implies, implies_true, and_true]
  exact ⟨⟨hpath, stripped_textField _ _⟩, ⟨hcode, stripped_textField _ _⟩,
    hjustification, stripped_textField _ _⟩

/-! ## Days and moments -/

/-- Only a moment gives an end that is one. -/
theorem expiry?_eq_moment_iff {v : Value} {d : Date} {time : Clock} :
    expiry? v = some (.moment d time) ↔ v = .moment d time := by
  cases v <;> simp [expiry?]

/-- The entry ends at a moment. -/
def AtMoment (entry : Value) : Prop :=
  ∃ fields d time, entry = .map fields ∧ expiryField fields = .moment d time

/-- An exemption ends on a day, or the entry that gives it ends at a moment. -/
theorem Gives.day_iff (h : Gives entry e) : (∃ day, e.expiry = .day day) ↔ ¬ AtMoment entry := by
  cases h with
  | @map fields expiry hfields hexpiry =>
      cases expiry with
      | day day =>
          refine iff_of_true ⟨day, rfl⟩ ?_
          rintro ⟨_, d, time, hentry, hmoment⟩
          cases hentry
          rw [expiry?_eq_moment_iff.2 hmoment] at hexpiry
          cases hexpiry
      | moment d time =>
          refine iff_of_false nofun fun hday => hday ?_
          exact ⟨fields, d, time, rfl, expiry?_eq_moment_iff.1 hexpiry⟩

/-- The end of an exemption is compared with a day exactly when it is a day itself. -/
theorem isSome_isActive?_iff {today : Date} :
    (e.isActive? today).isSome = true ↔ ∃ day, e.expiry = .day day := by
  rw [isActive?]
  cases e.expiry <;> simp

end Exemption

open Exemption

variable {overrides : List (String × Action)} {entries : List Value} {es : List Exemption}
variable {today : Date}

/-- There is a policy exactly when all of its exemptions end on days. -/
theorem Engine.make_eq_ok_iff : (∃ engine, Engine.make overrides es today = .ok engine) ↔
    ∀ e ∈ es, ∃ day, e.expiry = .day day := by
  refine ⟨fun h e he => ?_, fun h => ⟨_, Engine.make_eq_ok h⟩⟩
  obtain ⟨engine, hengine⟩ := h
  by_contra hnot
  have hundated : ¬ (e.isActive? today).isSome = true := fun h => hnot (isSome_isActive?_iff.1 h)
  have hfind : ¬ (es.find? fun e => (e.isActive? today).isNone) = none := by
    rw [List.find?_eq_none]
    exact fun hnone => hnone e he (by simpa using hundated)
  obtain ⟨found, hfound⟩ := Option.ne_none_iff_exists'.1 hfind
  rw [Engine.make, Policy.make, hfound] at hengine
  cases hengine

namespace Allowlist

/-- With an accepted list there is a policy exactly when no entry of the list ends at a moment. The
day does not matter, and neither do the overrides. -/
theorem usable_iff (h : ofEntries entries = .ok es) :
    (∃ engine, Engine.make overrides es today = .ok engine) ↔
      ∀ entry ∈ entries, ¬ AtMoment entry := by
  have hgives := ofEntries_eq_ok_iff.1 h
  rw [Engine.make_eq_ok_iff]
  clear h
  induction hgives with
  | nil => simp
  | cons hentry _ ih => simp only [List.forall_mem_cons, hentry.day_iff, ih]

/-- A list without moments is refused with the fault of its first faulty entry, or it is accepted
with an exemption for each of its entries, in order, and can be used: the texts are filled in,
there is a policy for every day, and every exemption can be compared with every day. -/
theorem refused_or_usable (h : ∀ entry ∈ entries, ¬ AtMoment entry) :
    (∃ error, ofEntries entries = .error error ∧ ∃ front entry back,
      entries = front ++ entry :: back ∧ Faulty front.length entry error) ∨
    ∃ es, ofEntries entries = .ok es ∧
      List.Forall₂ (fun entry e => Gives entry e ∧
        ∀ text ∈ [e.path, e.code, e.justification], text ≠ "" ∧ Stripped text) entries es ∧
      ∀ overrides today, (∃ engine, Engine.make overrides es today = .ok engine) ∧
        ∀ e ∈ es, (e.isActive? today).isSome = true := by
  cases hread : ofEntries entries with
  | error error =>
      obtain ⟨front, entry, back, hsplit, -, hfault⟩ := ofEntries_eq_error_iff.1 hread
      exact .inl ⟨error, rfl, front, entry, back, hsplit, hfault⟩
  | ok es =>
      have hgives := ofEntries_eq_ok_iff.1 hread
      refine .inr ⟨es, rfl, hgives.imp fun _ _ hentry => ⟨hentry, hentry.texts⟩,
        fun overrides today => ?_⟩
      have hengine : ∃ engine, Engine.make overrides es today = .ok engine := (usable_iff hread).2 h
      exact ⟨hengine, fun e he => isSome_isActive?_iff.2 (Engine.make_eq_ok_iff.1 hengine e he)⟩

/-- An entry that ends at a moment is accepted, and there is no policy with it. -/
example :
    let entries := [Value.map [("path", .text "a.php"), ("code", .text "DocComment"),
      ("justification", .text "old"), ("expires_on", .moment ⟨2999, 1, 1⟩ ⟨10, 0, 0, 0, none⟩)]]
    ∃ es, ofEntries entries = .ok es ∧
      ¬ ∃ engine, Engine.make [] es ⟨2026, 1, 1⟩ = .ok engine := by
  intro entries
  have hcomplete : Complete [("path", .text "a.php"), ("code", .text "DocComment"),
      ("justification", .text "old"), ("expires_on", .moment ⟨2999, 1, 1⟩ ⟨10, 0, 0, 0, none⟩)] := by
    simp only [Complete]
    decide +kernel
  have hgives : List.Forall₂ Gives entries
      [⟨"a.php", "DocComment", "old", .moment ⟨2999, 1, 1⟩ ⟨10, 0, 0, 0, none⟩⟩] :=
    .cons (.map hcomplete rfl) .nil
  refine ⟨_, ofEntries_eq_ok_iff.2 hgives, ?_⟩
  rw [Engine.make_eq_ok_iff]
  simp

end Allowlist

end PhpDoc
