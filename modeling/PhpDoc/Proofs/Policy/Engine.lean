import Mathlib.Data.List.Forall2
import PhpDoc.Policy.Basic

/-!
# What a policy drops and keeps

A policy is described by its overrides, its exemptions and a day: `Policy.Governs` is the action in
force for a rule, `Policy.Dropped` says which violations go, and `Policy.Leaves` what is left of a
list. One judgement does what these say (`Engine.judge_eq`), hence so does a call and a sequence of
calls, in which the count of dropped violations goes on (`Engine.apply_eq`, `Engine.applyAll_spec`).
The main result is `Engine.accounts`.
-/

namespace PhpDoc

namespace Date

/-- The order of dates is transitive. -/
theorem le_trans {a b c : Date} (hab : a.le b = true) (hbc : b.le c = true) : a.le c = true := by
  simp only [le, Bool.or_eq_true, Bool.and_eq_true, decide_eq_true_eq, beq_iff_eq] at hab hbc ⊢
  omega

end Date

namespace Policy

/-- The action in force for a rule: that of the rule itself, and only without one that of its
family. -/
def Governs (overrides : List (String × Action)) (source : String) (action : Action) : Prop :=
  overrides.lookup source = some action ∨
    overrides.lookup source = none ∧ overrides.lookup (familyOf source) = some action

/-- The exemption covers a rule in a file on a day: its last day is not over, it names the rule or
the family of the rule, and its path is that of the file or a pattern for it. -/
def Exempted (today : Date) (path source : String) (e : Exemption) : Prop :=
  (∃ day, e.expiry = .day day ∧ today.le day = true) ∧
    (e.code = source ∨ e.code = familyOf source) ∧
    (path = e.path ∨ Glob.accepts e.path path = true)

/-- The violation does not count: its rule is to be ignored, or an exemption covers it. -/
def Dropped (overrides : List (String × Action)) (exemptions : List Exemption) (today : Date)
    (path : String) (v : Violation) : Prop :=
  Governs overrides v.source .ignore ∨ ∃ e ∈ exemptions, Exempted today path v.source e

/-- What is left of a list of violations, in order. The dropped ones are missing. Of the others only
the severity can change, and it is that of the action in force if there is one. -/
inductive Leaves (overrides : List (String × Action)) (exemptions : List Exemption) (today : Date)
    (path : String) : List Violation → List Violation → Prop where
  | nil : Leaves overrides exemptions today path [] []
  | drop {v : Violation} {vs kept : List Violation}
      (dropped : Dropped overrides exemptions today path v)
      (rest : Leaves overrides exemptions today path vs kept) :
      Leaves overrides exemptions today path (v :: vs) kept
  | keep {v : Violation} {vs kept : List Violation} (severity : Severity)
      (stays : ¬ Dropped overrides exemptions today path v)
      (graded : ∀ action, Governs overrides v.source action → action.severity? = some severity)
      (own : (¬ ∃ action, Governs overrides v.source action) → severity = v.severity)
      (rest : Leaves overrides exemptions today path vs kept) :
      Leaves overrides exemptions today path (v :: vs) ({ v with severity } :: kept)

variable {overrides : List (String × Action)} {exemptions : List Exemption} {today : Date}
variable {path source : String} {v : Violation} {p : Policy}

/-- There is a policy when every exemption ends on a day. -/
theorem make_eq_ok (plain : ∀ e ∈ exemptions, ∃ day, e.expiry = .day day) :
    make overrides exemptions today = .ok ⟨overrides, exemptions, today⟩ := by
  have hfind : (exemptions.find? fun e => (e.isActive? today).isNone) = none := by
    refine List.find?_eq_none.2 fun e he => ?_
    obtain ⟨day, hday⟩ := plain e he
    simp [Exemption.isActive?, hday]
  rw [make, hfind]

/-- The action in force is the one that is looked up. -/
theorem governs_iff {action : Action} :
    Governs p.overrides source action ↔ p.actionFor source = some action := by
  rw [Governs, actionFor]
  cases p.overrides.lookup source <;> simp

/-- An exemption is looked up as one that holds and covers the rule in the file. -/
theorem isActive_and_covers_iff {e : Exemption} :
    (p.isActive e && e.covers path source) = true ↔ Exempted p.today path source e := by
  have hactive : p.isActive e = true ↔ ∃ day, e.expiry = .day day ∧ p.today.le day = true := by
    rw [isActive, Exemption.isActive?]
    cases e.expiry <;> simp
  simp [Exempted, hactive, Exemption.covers]

/-- A rule is exempted in a file when one of the exemptions covers it there. -/
theorem exempts_iff :
    p.exempts path source = true ↔ ∃ e ∈ p.exemptions, Exempted p.today path source e := by
  simp only [exempts, List.any_eq_true, isActive_and_covers_iff]

/-- The policy drops what is dropped. -/
theorem drops_iff : p.drops path v = true ↔ Dropped p.overrides p.exemptions p.today path v := by
  rw [drops, Bool.or_eq_true, beq_iff_eq, exempts_iff, Dropped, governs_iff]

/-- A later day exempts no more than an earlier one. -/
theorem Exempted.of_le {later : Date} {e : Exemption} (hle : today.le later = true)
    (h : Exempted later path source e) : Exempted today path source e := by
  obtain ⟨⟨day, hday, hlater⟩, hcovers⟩ := h
  exact ⟨⟨day, hday, Date.le_trans hle hlater⟩, hcovers⟩

/-- Of a violation that stays only the severity changes. -/
theorem adjust_eq (p : Policy) (v : Violation) :
    p.adjust v = { v with severity := (p.adjust v).severity } := by
  unfold adjust
  split <;> rfl

/-- A violation that stays has the severity of the action in force. -/
theorem severity_adjust_of_governs {action : Action} (h : Governs p.overrides v.source action)
    (stays : p.drops path v ≠ true) : action.severity? = some (p.adjust v).severity := by
  rw [governs_iff] at h
  cases action with
  | error => simp [adjust, h, Action.severity?]
  | warning => simp [adjust, h, Action.severity?]
  | ignore => exact absurd (by simp [drops, h]) stays

/-- Without an action a violation keeps its severity. -/
theorem severity_adjust_of_not_governs (h : ¬ ∃ action, Governs p.overrides v.source action) :
    (p.adjust v).severity = v.severity := by
  have hnone : p.actionFor v.source = none := by
    refine Option.eq_none_iff_forall_ne_some.2 fun action haction => ?_
    exact h ⟨action, governs_iff.2 haction⟩
  simp [adjust, hnone]

/-- A policy leaves of a list what its overrides and exemptions say. -/
theorem leaves_apply (p : Policy) (path : String) (vs : List Violation) :
    Leaves p.overrides p.exemptions p.today path vs (p.apply path vs).kept := by
  induction vs with
  | nil => exact .nil
  | cons v vs ih =>
      by_cases hdrops : p.drops path v = true
      · have hkept : (p.apply path (v :: vs)).kept = (p.apply path vs).kept := by
          simp [apply, hdrops]
        rw [hkept]
        exact .drop (drops_iff.1 hdrops) ih
      · have hkept : (p.apply path (v :: vs)).kept = p.adjust v :: (p.apply path vs).kept := by
          simp [apply, hdrops]
        rw [hkept, adjust_eq p v]
        exact .keep _ (fun hdropped => hdrops (drops_iff.2 hdropped))
          (fun _ hgoverns => severity_adjust_of_governs hgoverns hdrops)
          severity_adjust_of_not_governs ih

/-- Nothing is lost between what stays and what is counted. -/
theorem suppressed_apply (p : Policy) (path : String) (vs : List Violation) :
    (p.apply path vs).suppressed + (p.apply path vs).kept.length = vs.length := by
  simp only [apply, List.length_map]
  rw [← List.countP_eq_length_filter, Nat.add_comm]
  exact (List.length_eq_countP_add_countP (!p.drops path ·)).symm ▸ by simp

/-- Adjusting changes neither the rule of a violation nor what is done with it. -/
theorem drops_adjust : p.drops path (p.adjust v) = p.drops path v := by
  have hsource : (p.adjust v).source = v.source := by
    rw [adjust_eq]
    rfl
  rw [drops, drops, hsource]

/-- Adjusting a second time changes nothing. -/
theorem adjust_adjust : p.adjust (p.adjust v) = p.adjust v := by
  have hsource : (p.adjust v).source = v.source := by
    rw [adjust_eq]
    rfl
  rw [adjust, hsource]
  cases haction : p.actionFor v.source with
  | none => rfl
  | some action => cases action <;> simp [adjust, haction]

/-- A second time nothing is dropped and nothing changes. -/
theorem apply_kept (p : Policy) (path : String) (vs : List Violation) :
    p.apply path (p.apply path vs).kept = ⟨(p.apply path vs).kept, 0⟩ := by
  have hstays : ∀ v ∈ (p.apply path vs).kept, p.drops path v = false ∧ p.adjust v = v := by
    intro k hk
    obtain ⟨v, hv, rfl⟩ := List.mem_map.1 hk
    have hv := (List.mem_filter.1 hv).2
    exact ⟨by rw [drops_adjust]; simpa using hv, adjust_adjust⟩
  generalize (p.apply path vs).kept = kept at hstays
  have hfilter : kept.filter (!p.drops path ·) = kept :=
    List.filter_eq_self.2 fun v hv => by simp [(hstays v hv).1]
  have hcount : kept.countP (p.drops path) = 0 :=
    List.countP_eq_zero.2 fun v hv => by simp [(hstays v hv).1]
  rw [apply, hfilter, hcount, List.map_congr_left fun v hv => (hstays v hv).2, List.map_id']

namespace Leaves

/-- What is left comes from a part of the list, in order, by changes of severities. -/
theorem exists_sublist {vs kept : List Violation}
    (h : Leaves overrides exemptions today path vs kept) :
    ∃ chosen, chosen.Sublist vs ∧
      List.Forall₂ (fun v k => ∃ severity, k = { v with severity }) chosen kept := by
  induction h with
  | nil => exact ⟨[], .slnil, .nil⟩
  | drop _ _ ih =>
      obtain ⟨chosen, hchosen, hkept⟩ := ih
      exact ⟨chosen, hchosen.cons _, hkept⟩
  | @keep v _ _ severity _ _ _ _ ih =>
      obtain ⟨chosen, hchosen, hkept⟩ := ih
      exact ⟨v :: chosen, hchosen.cons_cons v, .cons ⟨severity, rfl⟩ hkept⟩

end Leaves

end Policy

namespace Engine

variable {overrides : List (String × Action)} {exemptions : List Exemption} {today : Date}
variable {path : String} {v : Violation}

/-- There is an engine when every exemption ends on a day. -/
theorem make_eq_ok (plain : ∀ e ∈ exemptions, ∃ day, e.expiry = .day day) :
    make overrides exemptions today = .ok ⟨⟨overrides, exemptions, today⟩, 0⟩ := by
  rw [make, Policy.make_eq_ok plain]
  rfl

/-- Grading by an action with a severity gives the violation that severity. -/
theorem regrade_some (action : Action) (severity : Severity)
    (h : action.severity? = some severity) :
    regrade (some action) v = { v with severity } := by
  simp only [regrade, Option.bind_some, h]
  split
  · next hsame => rw [hsame]
  · rfl

/-- Grading by the action of a rule is what the policy does to a violation that stays. -/
theorem regrade_actionFor (p : Policy) (v : Violation) :
    regrade (p.actionFor v.source) v = p.adjust v := by
  rw [regrade, Policy.adjust]
  cases p.actionFor v.source with
  | none => rfl
  | some action =>
      cases action with
      | error => exact regrade_some .error .error rfl
      | warning => exact regrade_some .warning .warning rfl
      | ignore => rfl

/-- A judgement counts the violation if the policy drops it, and else puts it on the list. -/
theorem judge_eq (path : String) (e : Engine) (kept : List Violation) (v : Violation) :
    judge path (e, kept) v =
      if e.policy.drops path v then ({ e with suppressed := e.suppressed + 1 }, kept)
      else (e, kept ++ [e.policy.adjust v]) := by
  rw [judge, Policy.drops, regrade_actionFor]

/-- Judging one violation after the other counts what the policy drops and puts what it keeps on
the list. -/
theorem foldl_judge (path : String) (vs : List Violation) (e : Engine) (kept : List Violation) :
    vs.foldl (judge path) (e, kept) =
      ({ e with suppressed := e.suppressed + (e.policy.apply path vs).suppressed },
        kept ++ (e.policy.apply path vs).kept) := by
  induction vs generalizing e kept with
  | nil => simp [Policy.apply]
  | cons v vs ih =>
      rw [List.foldl_cons, judge_eq]
      by_cases hdrops : e.policy.drops path v = true
      · rw [if_pos hdrops, ih]
        simp [Policy.apply, hdrops, Nat.add_assoc, Nat.add_comm 1]
      · rw [if_neg hdrops, ih]
        simp [Policy.apply, hdrops]

/-- A call counts what the policy drops and returns what it keeps. -/
theorem apply_eq (e : Engine) (path : String) (vs : List Violation) :
    e.apply path vs =
      ({ e with suppressed := e.suppressed + (e.policy.apply path vs).suppressed },
        (e.policy.apply path vs).kept) :=
  foldl_judge path vs e []

/-- A sequence of calls is the first one and, on what it leaves, the others. -/
theorem applyAll_cons (e : Engine) (call : String × List Violation)
    (calls : List (String × List Violation)) :
    e.applyAll (call :: calls) =
      (((e.apply call.1 call.2).1.applyAll calls).1,
        (e.apply call.1 call.2).2 :: ((e.apply call.1 call.2).1.applyAll calls).2) :=
  rfl

/-- Each call of a sequence returns what the policy keeps of its violations. -/
theorem returned_applyAll (e : Engine) (calls : List (String × List Violation)) :
    (e.applyAll calls).2 = calls.map fun call => (e.policy.apply call.1 call.2).kept := by
  induction calls generalizing e with
  | nil => rfl
  | cons call calls ih =>
      rw [applyAll_cons, ih, apply_eq]
      rfl

/-- After a sequence of calls every violation has been counted or returned. -/
theorem suppressed_applyAll (e : Engine) (calls : List (String × List Violation)) :
    (e.applyAll calls).1.suppressed + (e.applyAll calls).2.flatten.length =
      e.suppressed + (calls.flatMap (·.2)).length := by
  induction calls generalizing e with
  | nil => rfl
  | cons call calls ih =>
      have hrest := ih (e.apply call.1 call.2).1
      have hcall := e.policy.suppressed_apply call.1 call.2
      simp only [applyAll_cons, apply_eq, List.flatten_cons, List.flatMap_cons,
        List.length_append] at hrest ⊢
      omega

/-- A call on the violations that a call has returned drops none and returns them again. -/
theorem apply_apply (e : Engine) (path : String) (vs : List Violation) :
    (e.apply path vs).1.apply path (e.apply path vs).2 = e.apply path vs := by
  rw [apply_eq e path vs, apply_eq]
  simp only [Policy.apply_kept, Nat.add_zero]

/-- A policy loses and invents nothing. When all exemptions end on a day there is an engine for the
policy. Each call of a sequence returns a part of its violations, in order, of which only the
severity can differ: the dropped ones are those whose action in force is to ignore them or which an
exemption covers, and the others have the severity of the action in force. What has been dropped is
counted over all calls. A call on what a call has returned changes nothing. Fewer rules are exempt
on later days and under fewer exemptions. -/
theorem accounts (overrides : List (String × Action)) (exemptions : List Exemption) (today : Date)
    (plain : ∀ e ∈ exemptions, ∃ day, e.expiry = .day day) :
    ∃ e, make overrides exemptions today = .ok e ∧
      (∀ calls, List.Forall₂ (fun call kept =>
          Policy.Leaves overrides exemptions today call.1 call.2 kept ∧
            ∃ chosen, chosen.Sublist call.2 ∧
              List.Forall₂ (fun v k => ∃ severity, k = { v with severity }) chosen kept)
          calls (e.applyAll calls).2 ∧
        (e.applyAll calls).1.suppressed + (e.applyAll calls).2.flatten.length =
          (calls.flatMap (·.2)).length ∧
        ∀ path vs, ((e.applyAll calls).1.apply path vs).1.apply path
            ((e.applyAll calls).1.apply path vs).2 = (e.applyAll calls).1.apply path vs) ∧
      (∀ later, today.le later = true → ∃ e', make overrides exemptions later = .ok e' ∧
        ∀ path source, e'.policy.exempts path source = true →
          e.policy.exempts path source = true) ∧
      (∀ fewer, fewer ⊆ exemptions → ∃ e', make overrides fewer today = .ok e' ∧
        ∀ path source, e'.policy.exempts path source = true →
          e.policy.exempts path source = true) := by
  refine ⟨_, make_eq_ok plain, fun calls => ⟨?_, ?_, fun path vs => ?_⟩,
    fun later hlater => ⟨_, make_eq_ok plain, fun path source h => ?_⟩,
    fun fewer hfewer => ⟨_, make_eq_ok fun e he => plain e (hfewer he),
      fun path source h => ?_⟩⟩
  · rw [returned_applyAll, List.forall₂_map_right_iff, List.forall₂_same]
    intro call _
    have hleaves := Policy.leaves_apply ⟨overrides, exemptions, today⟩ call.1 call.2
    exact ⟨hleaves, hleaves.exists_sublist⟩
  · rw [suppressed_applyAll, Nat.zero_add]
  · exact apply_apply _ path vs
  · obtain ⟨e, he, hexempted⟩ := Policy.exempts_iff.1 h
    exact Policy.exempts_iff.2 ⟨e, he, hexempted.of_le hlater⟩
  · obtain ⟨e, he, hexempted⟩ := Policy.exempts_iff.1 h
    exact Policy.exempts_iff.2 ⟨e, hfewer he, hexempted⟩

/-- The action of a rule wins over that of its family, and an exemption still holds on its last
day: of four violations in a file two are dropped, and one of the others is no error any more. -/
theorem accounts_legacy :
    let overrides : List (String × Action) :=
      [("FunctionComment", .ignore), ("FunctionComment.MissingReturn", .warning)]
    let exemptions : List Exemption := [⟨"legacy/a.php", "DocComment", "old", .day ⟨2027, 3, 31⟩⟩]
    let v (family code : String) : Violation := ⟨family, code, "", 0, 1, 1, .error, none⟩
    let calls := [("legacy/a.php", [v "FunctionComment" "MissingReturn", v "DocComment" "Empty",
      v "FunctionComment" "Missing", v "VariableComment" "Missing"])]
    (∀ e ∈ exemptions, ∃ day, e.expiry = .day day) ∧
      ∃ e, make overrides exemptions ⟨2027, 3, 31⟩ = .ok e ∧
        (e.applyAll calls).2 = [[{ v "FunctionComment" "MissingReturn" with severity := .warning },
          v "VariableComment" "Missing"]] ∧
        (e.applyAll calls).1.suppressed = 2 := by
  intro overrides exemptions v calls
  have hplain : ∀ e ∈ exemptions, ∃ day, e.expiry = .day day := by simp [exemptions]
  obtain ⟨e, hmake, hcalls, -⟩ := accounts overrides exemptions ⟨2027, 3, 31⟩ hplain
  obtain ⟨-, hcount, -⟩ := hcalls calls
  have hreturned : (e.applyAll calls).2 =
      [[{ v "FunctionComment" "MissingReturn" with severity := .warning },
        v "VariableComment" "Missing"]] := by
    cases hmake
    decide +kernel
  rw [hreturned] at hcount
  exact ⟨hplain, e, hmake, hreturned, by simpa [calls] using hcount⟩

end Engine

end PhpDoc
