import PhpDoc.Proofs.Text.Lines
import PhpDoc.Text.Case

/-!
# What lower case keeps

Lower-casing works character by character and drops none, so a text does not become shorter
(`length_le_lower`). No letter has a sign below the letters as its lower-case form, so the signs of
the lower-case form were there before (`mem_of_mem_lower`). Signs stay (`mem_lower_of_mem`), and so
do small letters (`lower_eq_self`). The counterpart of a capital letter is never a capital letter,
so lower-casing a second time changes nothing (`lower_lower`).
-/

namespace PhpDoc.Text

/-- A character in lower case is at least one character. -/
theorem lowerBetween_ne_nil (before : List Char) (c : Char) (after : List Char) :
    lowerBetween before c after ≠ [] := by
  unfold lowerBetween
  split
  · simp
  · split
    · simp
    · simp

/-- A text in lower case is not shorter than the text. -/
theorem length_le_lowerFrom (before cs : List Char) :
    cs.length ≤ (lowerFrom before cs).length := by
  induction cs generalizing before with
  | nil => exact Nat.le_refl _
  | cons c cs ih =>
      have hone := List.length_pos_iff.2 (lowerBetween_ne_nil before c cs)
      have hrest := ih (c :: before)
      rw [lowerFrom, List.length_append, List.length_cons]
      omega

/-- The lower-case form of a text is no shorter than the text. -/
theorem length_le_lower (s : String) : s.length ≤ (lower s).length := by
  rw [lower, ← String.length_toList, ← String.length_toList, String.toList_ofList]
  exact length_le_lowerFrom [] s.toList

/-- The lower-case counterparts of capital letters lie above the signs of the first code points. -/
theorem lt_of_mem_lowerRuns : ∀ run ∈ lowerRuns, 64 < (run.first : Int) + run.shift := by
  decide +kernel

/-- Only a sign of the first code points has that sign as its lower-case form. -/
theorem eq_of_shiftCase_lowerRuns {c sign : Char} (hpos : 0 < sign.toNat) (hsign : sign.toNat ≤ 64)
    (h : shiftCase lowerRuns c = sign) : c = sign := by
  unfold shiftCase at h
  split at h
  · next run hfound =>
      exfalso
      have hshift := lt_of_mem_lowerRuns run (List.mem_of_find?_eq_some hfound)
      have hcontains := List.find?_some hfound
      simp only [CaseRun.contains, Bool.and_eq_true, decide_eq_true_eq] at hcontains
      have hfirst := hcontains.1.1
      -- the counterpart is a code point above the signs, or no code point at all
      have hcode : (Char.ofNat (c.toNat + run.shift).toNat).toNat = sign.toNat := by rw [h]
      by_cases hvalid : (c.toNat + run.shift).toNat.isValidChar
      · have hnat : (Char.ofNat (c.toNat + run.shift).toNat).toNat =
            (c.toNat + run.shift).toNat := by
          rw [Char.ofNat, dif_pos hvalid]
          rfl
        omega
      · rw [Char.ofNat, dif_neg hvalid] at hcode
        exact absurd hcode (Nat.ne_of_lt hpos)
  · exact h

/-- Only a sign has that sign in its lower-case form. -/
theorem eq_of_mem_lowerBetween {before after : List Char} {c sign : Char} (hpos : 0 < sign.toNat)
    (hsign : sign.toNat ≤ 64) (h : sign ∈ lowerBetween before c after) : c = sign := by
  unfold lowerBetween at h
  split at h
  · rw [List.mem_singleton] at h
    split at h
    · subst h
      exact absurd hsign (by decide)
    · subst h
      exact absurd hsign (by decide)
  · split at h
    · rcases List.mem_cons.1 h with rfl | h
      · exact absurd hsign (by decide)
      · rw [List.mem_singleton] at h
        subst h
        exact absurd hsign (by decide)
    · exact eq_of_shiftCase_lowerRuns hpos hsign (List.mem_singleton.1 h).symm

/-- A sign below the letters is in a text if it is in the text in lower case. -/
theorem mem_of_mem_lowerFrom {before cs : List Char} {sign : Char} (hpos : 0 < sign.toNat)
    (hsign : sign.toNat ≤ 64) (h : sign ∈ lowerFrom before cs) : sign ∈ cs := by
  induction cs generalizing before with
  | nil => cases h
  | cons c cs ih =>
      rw [lowerFrom, List.mem_append] at h
      rcases h with h | h
      · exact List.mem_cons.2 (.inl (eq_of_mem_lowerBetween hpos hsign h).symm)
      · exact List.mem_cons_of_mem _ (ih h)

/-- A text whose lower-case form begins with a sign begins with that sign. -/
theorem head?_of_head?_lower {s : String} {sign : Char} (hpos : 0 < sign.toNat)
    (hsign : sign.toNat ≤ 64) (h : (lower s).toList.head? = some sign) :
    s.toList.head? = some sign := by
  rw [lower, String.toList_ofList] at h
  cases hchars : s.toList with
  | nil =>
      rw [hchars] at h
      cases h
  | cons c cs =>
      rw [hchars, lowerFrom] at h
      obtain ⟨first, more, hfirst⟩ := List.exists_cons_of_ne_nil (lowerBetween_ne_nil [] c cs)
      rw [hfirst] at h
      obtain rfl : first = sign := Option.some.inj h
      have hmem : first ∈ lowerBetween [] c cs := by
        rw [hfirst]
        exact List.mem_cons_self
      rw [eq_of_mem_lowerBetween hpos hsign hmem]
      rfl

/-- The signs of the lower-case form of a text are signs of the text. -/
theorem mem_of_mem_lower {s : String} {sign : Char} (hpos : 0 < sign.toNat)
    (hsign : sign.toNat ≤ 64) (h : sign ∈ (lower s).toList) : sign ∈ s.toList := by
  rw [lower, String.toList_ofList] at h
  exact mem_of_mem_lowerFrom hpos hsign h

/-- The capital letters lie above the signs of the first code points. -/
theorem first_lt_of_mem_lowerRuns : ∀ run ∈ lowerRuns, 64 < run.first := by
  decide +kernel

/-- The signs of a text are signs of its lower-case form. -/
theorem mem_lower_of_mem {s : String} {sign : Char} (hsign : sign.toNat ≤ 64)
    (h : sign ∈ s.toList) : sign ∈ (lower s).toList := by
  have hshift : shiftCase lowerRuns sign = sign := by
    unfold shiftCase
    split
    · next run hfound =>
        have hfirst := first_lt_of_mem_lowerRuns run (List.mem_of_find?_eq_some hfound)
        have hcontains := List.find?_some hfound
        simp only [CaseRun.contains, Bool.and_eq_true, decide_eq_true_eq] at hcontains
        omega
    · rfl
  have hsigma : sign ≠ 'Σ' := fun heq => absurd (heq ▸ hsign) (by decide)
  have hdotted : sign ≠ 'İ' := fun heq => absurd (heq ▸ hsign) (by decide)
  rw [lower, String.toList_ofList]
  generalize [] = before
  generalize s.toList = cs at h
  induction cs generalizing before with
  | nil => cases h
  | cons c cs ih =>
      rw [lowerFrom, List.mem_append]
      rcases List.mem_cons.1 h with rfl | h
      · left
        rw [lowerBetween, if_neg hsigma, if_neg hdotted, hshift]
        exact List.mem_singleton_self _
      · exact .inr (ih _ h)

/-! ## Lower case once and for all -/

/-- A character that is its own lower-case form, wherever it stands. -/
def Small (c : Char) : Prop :=
  c ≠ 'Σ' ∧ c ≠ 'İ' ∧ shiftCase lowerRuns c = c

/-- Whether a character is small is found by its lower-case form. -/
instance (c : Char) : Decidable (Small c) :=
  inferInstanceAs (Decidable (_ ∧ _))

/-- A text of small characters is its own lower case. -/
theorem lowerFrom_eq_self {before cs : List Char} (h : ∀ c ∈ cs, Small c) :
    lowerFrom before cs = cs := by
  induction cs generalizing before with
  | nil => rfl
  | cons c cs ih =>
      obtain ⟨⟨hsigma, hdotted, hshift⟩, hcs⟩ := List.forall_mem_cons.1 h
      rw [lowerFrom, lowerBetween, if_neg hsigma, if_neg hdotted, hshift, ih hcs,
        List.singleton_append]

/-- The small letters of which the names of built-in types are made. -/
def smallLetters : List Char :=
  "abcdefghijklmnopqrstuvwxyz".toList

/-- Letters that are listed as small are small. -/
theorem small_of_mem_smallLetters : ∀ c ∈ smallLetters, Small c := by
  decide +kernel

/-- A text of small letters is its own lower-case form. -/
theorem lower_eq_self {s : String} (h : ∀ c ∈ s.toList, c ∈ smallLetters) : lower s = s := by
  rw [lower, lowerFrom_eq_self fun c hc => small_of_mem_smallLetters c (h c hc),
    String.ofList_toList]

/-- The code points of a run. -/
def CaseRun.points (run : CaseRun) : List Nat :=
  (List.range ((run.last - run.first) / run.step + 1)).map fun k => run.first + run.step * k

/-- The code points that a run contains are its points. -/
theorem CaseRun.mem_points {run : CaseRun} {n : Nat} (h : run.contains n = true) :
    n ∈ run.points := by
  simp only [CaseRun.contains, Bool.and_eq_true, decide_eq_true_eq, beq_iff_eq] at h
  obtain ⟨⟨hfirst, hlast⟩, hstep⟩ := h
  have hdiv := Nat.div_add_mod (n - run.first) run.step
  have hle : (n - run.first) / run.step ≤ (run.last - run.first) / run.step :=
    Nat.div_le_div_right (by omega)
  refine List.mem_map.2 ⟨(n - run.first) / run.step, List.mem_range.2 (by omega), ?_⟩
  omega

/-- A set of numbers as one number, in which they are the places of the set bits. -/
def bits (ns : List Nat) : Nat :=
  ns.foldr (fun n set => set ||| 1 <<< n) 0

/-- The bits of a row of numbers are set at these numbers. -/
theorem testBit_bits (ns : List Nat) (n : Nat) : (bits ns).testBit n = decide (n ∈ ns) := by
  induction ns with
  | nil => simp [bits]
  | cons m ns ih =>
      rw [bits, List.foldr_cons, ← bits, Nat.testBit_or, ih, Nat.one_shiftLeft,
        Nat.testBit_two_pow]
      by_cases h : n = m <;> simp [h, eq_comm, Bool.or_comm]

/-- The code points of the capital letters. -/
def capitals : Nat :=
  bits (lowerRuns.flatMap CaseRun.points)

/-- Whether `n` is the code point of a character that is no capital letter. -/
def isSmallPoint (n : Nat) : Bool :=
  (Nat.blt n 0xd800 || Nat.blt 0xdfff n && Nat.blt n 0x110000) &&
    n != 'Σ'.toNat && n != 'İ'.toNat && !capitals.testBit n

/-- The counterparts of the capital letters are no capital letters. The set of capital letters is
one number here, so that each of them costs one look. -/
theorem isSmallPoint_shift : lowerRuns.all fun run =>
    run.points.all fun n => isSmallPoint (n + run.shift).toNat := by
  decide +kernel

/-- A code point that is listed as small is that of a small character. -/
theorem small_ofNat {n : Nat} (h : isSmallPoint n = true) : Small (Char.ofNat n) := by
  simp only [isSmallPoint, Bool.and_eq_true, Bool.or_eq_true, Nat.blt_eq, bne_iff_ne,
    Bool.not_eq_true'] at h
  obtain ⟨⟨⟨hrange, hsigma⟩, hdotted⟩, hcapital⟩ := h
  have hcode : (Char.ofNat n).toNat = n := by
    rw [Char.ofNat, dif_pos (by unfold Nat.isValidChar; omega)]
    rfl
  refine ⟨fun heq => hsigma (by rw [← heq, hcode]), fun heq => hdotted (by rw [← heq, hcode]), ?_⟩
  unfold shiftCase
  split
  · next run hfound =>
      exfalso
      have hcontains := List.find?_some hfound
      rw [hcode] at hcontains
      have hmem : n ∈ lowerRuns.flatMap CaseRun.points :=
        List.mem_flatMap.2 ⟨run, List.mem_of_find?_eq_some hfound, CaseRun.mem_points hcontains⟩
      rw [capitals, testBit_bits, decide_eq_false_iff_not] at hcapital
      exact hcapital hmem
  · rfl

/-- The lower-case form of a character is made of characters that are their own. -/
theorem small_of_mem_lowerBetween {before after : List Char} {c d : Char}
    (h : d ∈ lowerBetween before c after) : Small d := by
  unfold lowerBetween at h
  split at h
  · obtain rfl := List.mem_singleton.1 h
    split <;> decide +kernel
  · next hsigma =>
      split at h
      · obtain rfl | rfl : d = 'i' ∨ d = '\u0307' := by simpa using h
        · decide +kernel
        · decide +kernel
      · next hdotted =>
          obtain rfl := List.mem_singleton.1 h
          cases hfound : lowerRuns.find? (·.contains c.toNat) with
          | none =>
              have hsame : shiftCase lowerRuns c = c := by rw [shiftCase, hfound]
              rw [hsame]
              exact ⟨hsigma, hdotted, hsame⟩
          | some run =>
              have hshift : shiftCase lowerRuns c = Char.ofNat (c.toNat + run.shift).toNat := by
                rw [shiftCase, hfound]
              have hrun := List.all_eq_true.1 isSmallPoint_shift run
                (List.mem_of_find?_eq_some hfound)
              have hcontains : run.contains c.toNat = true :=
                by
                have hany := List.find?_some hfound
                exact hany
              rw [hshift]
              exact small_ofNat (List.all_eq_true.1 hrun c.toNat (CaseRun.mem_points hcontains))

/-- A text in lower case has small characters only. -/
theorem small_of_mem_lowerFrom {before cs : List Char} {c : Char} (h : c ∈ lowerFrom before cs) :
    Small c := by
  induction cs generalizing before with
  | nil => cases h
  | cons d cs ih =>
      rw [lowerFrom, List.mem_append] at h
      obtain h | h := h
      · exact small_of_mem_lowerBetween h
      · exact ih h

/-- A lower-case form is its own lower-case form. -/
theorem lower_lower (s : String) : lower (lower s) = lower s := by
  have hsmall : ∀ c ∈ (lower s).toList, Small c := by
    intro c hc
    rw [lower, String.toList_ofList] at hc
    exact small_of_mem_lowerFrom hc
  rw [lower, lowerFrom_eq_self hsmall, String.ofList_toList]

end PhpDoc.Text
