import PhpDoc.Declaration.Parameter
import PhpDoc.Proofs.Token.Partner

/-!
# Parameters and brackets

The parameter list of a function is cut with a counter for all shapes of brackets, while the stream
knows the partner of every bracket. In front of a place of a balanced word the counter is the number
of pairs around it (`Token.Balanced.depthOf_filter`), so the list is cut at exactly the commas whose
innermost brackets are the parentheses of the function. A part is then read up to its first equals
sign, and nothing behind it matters to anything but the default value. `Stream.parameters_topLevel`
says all of this of every declaration with balanced parameters.
-/

namespace PhpDoc

namespace Parameter

variable {ts xs ys : List Token} {t : Token} {depth : Int}

/-! ## The parts -/

/-- Cutting at commas leaves at least one part. -/
theorem parts_ne_nil (depth : Int) (ts : List Token) : parts depth ts ≠ [] := by
  fun_induction parts depth ts <;> simp

/-- The change of bracket depth at tokens. -/
def depthOf : List Token → Int
  | [] => 0
  | t :: ts => depthChange t.kind + depthOf ts

/-- No tokens change the depth by nothing. -/
@[simp] theorem depthOf_nil : depthOf [] = 0 := rfl

/-- The first token changes the depth before the others do. -/
@[simp] theorem depthOf_cons (t : Token) (ts : List Token) :
    depthOf (t :: ts) = depthChange t.kind + depthOf ts := rfl

/-- The changes of the depth by tokens in a row add up. -/
@[simp] theorem depthOf_append (ts us : List Token) :
    depthOf (ts ++ us) = depthOf ts + depthOf us := by
  induction ts with
  | nil => rw [List.nil_append, depthOf_nil, Int.zero_add]
  | cons t ts ih => rw [List.cons_append, depthOf_cons, depthOf_cons, ih, Int.add_assoc]

/-- A comma does not change the depth. -/
theorem depthChange_comma : depthChange .comma = 0 := rfl

/-- Only brackets change the depth. -/
theorem depthChange_of_neutral {kind : Kind} (hopens : kind.opens? = none)
    (hcloses : kind.closes? = none) : depthChange kind = 0 := by
  simp [depthChange, hopens, hcloses]

/-- An opening bracket leads one level deeper. -/
theorem depthChange_of_opens {shape : Bracket} {kind : Kind} (h : kind.opens? = some shape) :
    depthChange kind = 1 := by
  simp [depthChange, h]

/-- A closing bracket leads one level back. -/
theorem depthChange_of_closes {shape : Bracket} {kind : Kind} (h : kind.closes? = some shape) :
    depthChange kind = -1 := by
  have hopens : kind.opens? = none := Kind.opens?_of_closes (by rw [h]; rfl)
  simp [depthChange, hopens, h]

/-- The counter cuts at the commas at depth zero. -/
theorem parts_eq_splitOnP {p : Token → Bool}
    (h : ∀ front t back, ts = front ++ t :: back → t.kind = .comma →
      (p t = true ↔ depth + depthOf front = 0)) :
    parts depth ts = ts.splitOnP fun t => t.kind == .comma && p t := by
  induction ts generalizing depth with
  | nil => rw [parts, List.splitOnP_nil]
  | cons t ts ih =>
      rw [parts, List.splitOnP_cons_eq_if_modifyHead]
      by_cases hcomma : t.kind = .comma
      · have hhead := h [] t ts rfl hcomma
        have htail : parts depth ts = ts.splitOnP fun t => t.kind == .comma && p t := by
          refine ih fun front u back heq hu => ?_
          have := h (t :: front) u back (by rw [heq, List.cons_append]) hu
          rwa [depthOf_cons, hcomma, depthChange_comma, Int.zero_add] at this
        rw [depthOf_nil, Int.add_zero] at hhead
        by_cases hcut : depth = 0
        · simp [hcomma, hcut, hhead.2 hcut, ← htail]
        · have hnot : p t = false := by
            rw [← Bool.not_eq_true, hhead]
            exact hcut
          obtain ⟨part, rest, hparts⟩ := List.exists_cons_of_ne_nil
            (List.splitOnP_ne_nil (fun t => t.kind == .comma && p t) ts)
          simp [hcomma, hcut, hnot, depthChange_comma, htail, hparts]
      · have htail : parts (depth + depthChange t.kind) ts =
            ts.splitOnP fun t => t.kind == .comma && p t := by
          refine ih fun front u back heq hu => ?_
          have := h (t :: front) u back (by rw [heq, List.cons_append]) hu
          rwa [depthOf_cons, ← Int.add_assoc] at this
        obtain ⟨part, rest, hparts⟩ := List.exists_cons_of_ne_nil
          (List.splitOnP_ne_nil (fun t => t.kind == .comma && p t) ts)
        simp [hcomma, htail, hparts]

/-- A token that is no comma at depth zero goes into the first part. -/
theorem parts_cons_of_uncut {part : List Token} {rest : List (List Token)}
    (huncut : t.kind = .comma → depth ≠ 0)
    (hparts : parts (depth + depthChange t.kind) ys = part :: rest) :
    parts depth (t :: ys) = (t :: part) :: rest := by
  have hcut : (t.kind == .comma && depth == 0) = false := by
    rw [← Bool.not_eq_true, Bool.and_eq_true, beq_iff_eq, beq_iff_eq]
    exact fun ⟨hcomma, hzero⟩ => huncut hcomma hzero
  rw [parts, hcut, hparts]
  rfl

/-- Tokens without a comma at depth zero stay in one part. -/
theorem parts_append_of_uncut (h : ∀ front t back, xs = front ++ t :: back → t.kind = .comma →
      depth + depthOf front ≠ 0) {part : List Token} {rest : List (List Token)}
    (hparts : parts (depth + depthOf xs) ys = part :: rest) :
    parts depth (xs ++ ys) = (xs ++ part) :: rest := by
  induction xs generalizing depth with
  | nil => simpa using hparts
  | cons x xs ih =>
      rw [List.cons_append]
      refine parts_cons_of_uncut (fun hcomma => ?_) (ih (fun front t back heq ht => ?_) ?_)
      · simpa using h [] x xs rfl hcomma
      · have := h (x :: front) t back (by rw [heq, List.cons_append]) ht
        rwa [depthOf_cons, ← Int.add_assoc] at this
      · rwa [depthOf_cons, ← Int.add_assoc] at hparts

/-- What stands behind tokens goes on with their last part. -/
theorem exists_parts_append (depth : Int) (xs : List Token) :
    ∃ front last, ∀ ys part rest, parts (depth + depthOf xs) ys = part :: rest →
      parts depth (xs ++ ys) = front ++ (last ++ part) :: rest := by
  induction xs generalizing depth with
  | nil => exact ⟨[], [], by simp⟩
  | cons x xs ih =>
      obtain ⟨front, last, htail⟩ := ih (depth + depthChange x.kind)
      simp only [depthOf_cons, ← Int.add_assoc, List.cons_append, parts]
      split
      · next hcut =>
          simp only [Bool.and_eq_true, beq_iff_eq] at hcut
          rw [hcut.1, depthChange_comma, Int.add_zero] at htail ⊢
          exact ⟨[] :: front, last, fun ys part rest h => by rw [htail ys part rest h]; rfl⟩
      · cases front with
        | nil =>
            exact ⟨[], x :: last, fun ys part rest h => by rw [htail ys part rest h]; rfl⟩
        | cons first front =>
            exact ⟨(x :: first) :: front, last, fun ys part rest h => by
              rw [htail ys part rest h]; rfl⟩

/-! ## Reading a part -/

/-- The default value that the part gives: the stripped text behind its first equals sign, if it
has one. -/
inductive Gives (part : List Token) : Option String → Prop
  | none : (∀ t ∈ part, t.kind ≠ .equal) → Gives part none
  | some (front : List Token) (sign : Token) (value : List Token) :
      part = front ++ sign :: value → (∀ t ∈ front, t.kind ≠ .equal) → sign.kind = .equal →
      Gives part (some (Text.strip (Token.textOf value)))

/-- The part declares the parameter: it is named by its first variable, in front of which there is
no equals sign, its type and its flags are read from the tokens in front of the name, and its
default value is what stands behind the first equals sign. -/
structure Declares (part : List Token) (p : Parameter) (lead : List Token) (found : Token)
    (rest : List Token) : Prop where
  part_eq : part = lead ++ found :: rest
  found_kind : found.kind = .variable
  lead_kind : ∀ t ∈ lead, t.kind ≠ .variable ∧ t.kind ≠ .equal
  name : p.name = found.text
  type : p.type = Token.textOf (lead.filter isTypePart)
  variadic : p.variadic = lead.any (·.kind == .ellipsis)
  byReference : p.byReference = lead.any (·.kind == .ampersand)
  default : Gives part p.default

/-- A search for a kind stops at a token of the kind. -/
theorem kind_of_dropWhile {kind : Kind} {rest : List Token}
    (h : ts.dropWhile (·.kind != kind) = t :: rest) : t.kind = kind := by
  have hne : ts.dropWhile (·.kind != kind) ≠ [] := by simp [h]
  have := List.head_dropWhile_not (fun t : Token => t.kind != kind) hne
  simpa [h] using this

/-- The default value that is read from a part is the one that the part gives. -/
theorem gives_default? (part : List Token) : Gives part (default? part) := by
  unfold default?
  split
  · next hnil =>
      refine .none fun t ht => ?_
      have := List.dropWhile_eq_nil_iff.1 hnil t ht
      simpa using this
  · next sign value hcons =>
      have hsplit := List.takeWhile_append_dropWhile (p := (·.kind != .equal)) (l := part)
      rw [hcons] at hsplit
      refine .some _ sign value hsplit.symm (fun t ht => ?_)
        (kind_of_dropWhile hcons)
      have := List.mem_takeWhile_imp ht
      simpa using this

/-- A part gives only one default value. -/
theorem Gives.eq {part : List Token} {default : Option String} (h : Gives part default) :
    default = default? part := by
  unfold default?
  cases h with
  | none hnot =>
      rw [List.dropWhile_eq_nil_iff.2 fun t ht => by simpa using hnot t ht]
  | some front sign value heq hfront hsign =>
      rw [heq, List.dropWhile_append_of_pos fun t ht => by simpa using hfront t ht,
        List.dropWhile_cons_of_neg (by simp [hsign])]

/-- What a part declares is what is read from it. -/
theorem ofPart?_eq_some_iff {part : List Token} {p : Parameter} :
    ofPart? part = some p ↔ ∃ lead found rest, Declares part p lead found rest := by
  constructor
  · intro h
    unfold ofPart? at h
    simp only at h
    split at h
    · cases h
    · next found rest hcons =>
        cases h
        have hsplit := List.takeWhile_append_dropWhile (p := (·.kind != .equal)) (l := part)
        have hlead := List.takeWhile_append_dropWhile (p := (·.kind != .variable))
          (l := part.takeWhile (·.kind != .equal))
        rw [hcons] at hlead
        refine ⟨(part.takeWhile (·.kind != .equal)).takeWhile (·.kind != .variable), found,
          rest ++ part.dropWhile (·.kind != .equal), ?_, kind_of_dropWhile hcons, ?_, rfl, rfl, rfl,
          rfl, gives_default? part⟩
        · conv_lhs => rw [← hsplit, ← hlead]
          simp
        · intro t ht
          have hvariable := List.mem_takeWhile_imp ht
          have hequal := List.mem_takeWhile_imp ((List.takeWhile_subset _) ht)
          exact ⟨by simpa using hvariable, by simpa using hequal⟩
  · rintro ⟨lead, found, rest, rfl, hfound, hlead, hname, htype, hvariadic, hreference, hdefault⟩
    have hhead : (lead ++ found :: rest).takeWhile (·.kind != .equal) =
        lead ++ found :: rest.takeWhile (·.kind != .equal) := by
      rw [List.takeWhile_append_of_pos fun t ht => by simpa using (hlead t ht).2,
        List.takeWhile_cons_of_pos (by simp [hfound])]
    have hdrop : (lead ++ found :: rest.takeWhile (·.kind != .equal)).dropWhile
        (·.kind != .variable) = found :: rest.takeWhile (·.kind != .equal) := by
      rw [List.dropWhile_append_of_pos fun t ht => by simpa using (hlead t ht).1,
        List.dropWhile_cons_of_neg (by simp [hfound])]
    have htake : (lead ++ found :: rest.takeWhile (·.kind != .equal)).takeWhile
        (·.kind != .variable) = lead := by
      rw [List.takeWhile_append_of_pos fun t ht => by simpa using (hlead t ht).1,
        List.takeWhile_cons_of_neg (by simp [hfound]), List.append_nil]
    unfold ofPart?
    simp only [hhead, hdrop, htake, ← hdefault.eq, ← hname, ← htype, ← hvariadic, ← hreference]

/-- A part declares a parameter exactly when it has a variable with no equals sign in front of
it. -/
theorem isSome_ofPart? {part : List Token} : (ofPart? part).isSome = true ↔
    ∃ lead found rest, part = lead ++ found :: rest ∧ found.kind = .variable ∧
      ∀ t ∈ lead, t.kind ≠ .equal := by
  constructor
  · intro h
    obtain ⟨p, hp⟩ := Option.isSome_iff_exists.1 h
    obtain ⟨lead, found, rest, hdeclares⟩ := ofPart?_eq_some_iff.1 hp
    exact ⟨lead, found, rest, hdeclares.part_eq, hdeclares.found_kind, fun t ht =>
      (hdeclares.lead_kind t ht).2⟩
  · rintro ⟨lead, found, rest, rfl, hfound, hlead⟩
    have hmem : found ∈ (lead ++ found :: rest).takeWhile (·.kind != .equal) := by
      rw [List.takeWhile_append_of_pos fun t ht => by simpa using hlead t ht,
        List.takeWhile_cons_of_pos (by simp [hfound])]
      simp
    unfold ofPart?
    simp only
    split
    · next hnil =>
        have := List.dropWhile_eq_nil_iff.1 hnil found hmem
        simp [hfound] at this
    · rfl

/-- The parameter without its default value. -/
def bare (p : Parameter) : Parameter :=
  { p with default := none }

/-- The tokens in front of the first equals sign do not depend on what stands behind one. -/
theorem takeWhile_append_sign (front : List Token) {sign : Token} (hsign : sign.kind = .equal)
    (value : List Token) : (front ++ sign :: value).takeWhile (·.kind != .equal) =
      front.takeWhile (·.kind != .equal) := by
  rw [List.takeWhile_append, List.takeWhile_cons_of_neg (by simp [hsign]), List.append_nil]
  split
  · next hlength => exact ((List.takeWhile_prefix _).eq_of_length hlength).symm
  · rfl

/-- What stands behind an equals sign matters to the default value only. -/
theorem bare_ofPart? (front : List Token) {sign : Token} (hsign : sign.kind = .equal)
    (value other : List Token) :
    (ofPart? (front ++ sign :: value)).map bare = (ofPart? (front ++ sign :: other)).map bare := by
  unfold ofPart?
  simp only [takeWhile_append_sign front hsign]
  split
  · rfl
  · rfl

/-- A default value without a comma at depth zero neither adds nor drops a parameter, nor does it
change more than the default value of one. -/
theorem map_bare_eq {before value after : List Token} {sign : Token} (hsign : sign.kind = .equal)
    (hdepth : depthOf value = 0)
    (hvalue : ∀ front t back, value = front ++ t :: back → t.kind = .comma →
      depthOf before + depthOf front ≠ 0) :
    ((parts 0 (before ++ sign :: after)).filterMap ofPart?).map bare =
      ((parts 0 (before ++ sign :: (value ++ after))).filterMap ofPart?).map bare := by
  have hneutral : depthChange sign.kind = 0 := by rw [hsign]; rfl
  obtain ⟨front, last, hfront⟩ := exists_parts_append 0 before
  rw [Int.zero_add] at hfront
  obtain ⟨part, rest, hparts⟩ := List.exists_cons_of_ne_nil (parts_ne_nil (depthOf before) after)
  have hgrown : parts (depthOf before) (value ++ after) = (value ++ part) :: rest :=
    parts_append_of_uncut hvalue (by rwa [hdepth, Int.add_zero])
  have hsigned : ∀ {ys part rest}, parts (depthOf before) ys = part :: rest →
      parts (depthOf before) (sign :: ys) = (sign :: part) :: rest := by
    intro ys part rest h
    rw [parts, if_neg (by simp [hsign]), hneutral, Int.add_zero, h]
  rw [hfront _ _ _ (hsigned hparts), hfront _ _ _ (hsigned hgrown)]
  simp only [List.filterMap_append, List.map_append, List.filterMap_cons]
  have hbare := bare_ofPart? last hsign part (value ++ part)
  cases hshort : ofPart? (last ++ sign :: part) with
  | none =>
      rw [hshort, Option.map_none, eq_comm, Option.map_eq_none_iff] at hbare
      rw [hbare]
  | some p =>
      rw [hshort, Option.map_some, eq_comm, Option.map_eq_some_iff] at hbare
      obtain ⟨q, hq, hbare⟩ := hbare
      rw [hq]
      simp only [List.map_cons, hbare]

end Parameter

/-! ## Depth and pairs -/

namespace Token

open Nesting Parameter

variable {ts us : List Token} {ps : List (Nat × Nat)} {t : Token}

/-- The pairs of a balanced word open and close in it. -/
theorem Balanced.bounds (h : Balanced ts ps) (hts : ts.Pairwise (·.index < ·.index)) {o c : Nat}
    (hp : (o, c) ∈ ps) :
    o < c ∧ (∃ t ∈ ts, t.index = o) ∧ ∃ t ∈ ts, t.index = c := by
  obtain ⟨shape, hlt, hopener, t, ht, hindex, -⟩ :=
    (ordered_nil hts).pair ((h.mem_pairs_iff [] (o, c)).2 hp)
  rcases hopener with hopener | ⟨u, hu, huindex, -⟩
  · cases hopener
  · exact ⟨hlt, ⟨u, hu, huindex⟩, t, ht, hindex⟩

/-- The depth in front of a place of a balanced word is the number of pairs around it. -/
theorem Balanced.depthOf_filter (h : Balanced ts ps) (hps : ∀ p ∈ ps, p.1 < p.2) (k : Nat) :
    depthOf (ts.filter (·.index < k)) = (ps.countP fun p => p.1 < k && k ≤ p.2 : Nat) := by
  induction h with
  | nil => rfl
  | @skip t ts ps hopens hcloses _ ih =>
      rw [List.filter_cons]
      split
      · rw [depthOf_cons, depthChange_of_neutral hopens hcloses, ih hps, Int.zero_add]
      · exact ih hps
  | @pair o c inner rest ps qs shape hopens hcloses _ _ ihinner ihrest =>
      obtain ⟨hlt, hps⟩ := List.forall_mem_cons.1 hps
      obtain ⟨hps, hqs⟩ := List.forall_mem_append.1 hps
      have hopener := depthChange_of_opens hopens
      have hcloser := depthChange_of_closes hcloses
      have hinner := ihinner hps
      have hrest := ihrest hqs
      simp only at hlt
      rw [List.filter_cons, List.filter_append, List.filter_cons, List.countP_cons,
        List.countP_append]
      -- the place stands in front of the pair, inside of it, or behind it
      rcases Nat.lt_or_ge o.index k with ho | ho
      · rcases Nat.lt_or_ge c.index k with hc | hc
        · have hnot : ¬ k ≤ c.index := by omega
          simp only [decide_eq_true ho, decide_eq_true hc, decide_eq_false hnot, if_true,
            Bool.and_false, depthOf_cons, depthOf_append, hopener, hcloser, hinner, hrest]
          push_cast
          omega
        · have hnot : ¬ c.index < k := by omega
          simp only [decide_eq_true ho, decide_eq_false hnot, decide_eq_true hc, if_true,
            Bool.and_true, Bool.false_eq_true, if_false, depthOf_cons, depthOf_append, hopener,
            hinner, hrest]
          push_cast
          omega
      · have hnot : ¬ o.index < k := by omega
        have hnot' : ¬ c.index < k := by omega
        simp only [decide_eq_false hnot, decide_eq_false hnot', Bool.false_eq_true, if_false,
          Bool.false_and, depthOf_append, hinner, hrest]
        push_cast
        simp

/-- Behind a balanced word the depth is the one in front of it. -/
theorem Balanced.depthOf_eq (h : Balanced ts ps) : depthOf ts = 0 := by
  induction h with
  | nil => rfl
  | skip hopens hcloses _ ih => simp [depthChange_of_neutral hopens hcloses, ih]
  | pair hopens hcloses _ _ ihinner ihrest =>
      simp [depthChange_of_opens hopens, depthChange_of_closes hcloses, ihinner, ihrest]

/-- What stands in front of a token of a row in order. -/
theorem filter_index_lt {front back : List Token}
    (h : (front ++ t :: back).Pairwise (·.index < ·.index)) :
    (front ++ t :: back).filter (·.index < t.index) = front := by
  obtain ⟨-, hback, hfront⟩ := List.pairwise_append.1 h
  obtain ⟨hback, -⟩ := List.pairwise_cons.1 hback
  have hkeep : front.filter (·.index < t.index) = front :=
    List.filter_eq_self.2 fun u hu => decide_eq_true (hfront u hu t List.mem_cons_self)
  have hdrop : (t :: back).filter (·.index < t.index) = [] := by
    refine List.filter_eq_nil_iff.2 fun u hu => ?_
    rcases List.mem_cons.1 hu with rfl | hu
    · simp
    · have := hback u hu
      simp only [decide_eq_true_eq]
      omega
  rw [List.filter_append, hkeep, hdrop, List.append_nil]

end Token

namespace Scope

variable {partner : Nat → Option Nat} {following : List Token} {o c : Nat}

/-- The parentheses of a function are partners, and the first one opens. -/
theorem paired_ofFunction (hopener : (ofFunction partner following).parenOpener = some o)
    (hcloser : (ofFunction partner following).parenCloser = some c) :
    partner o = some c ∧ ∃ t ∈ following, t.index = o ∧ t.kind = .openParenthesis := by
  have hopens : ∀ opener, parameterOpener? following = some opener →
      ∃ t ∈ following, t.index = opener ∧ t.kind = .openParenthesis := by
    intro opener h
    unfold parameterOpener? at h
    split at h
    · next t ht =>
        split at h
        · next hkind =>
            cases h
            exact ⟨t, List.mem_of_find?_eq_some ht, rfl, by simpa using hkind⟩
        · cases h
    · cases h
  unfold ofFunction at hopener hcloser
  cases hparen : parameterOpener? following with
  | none =>
      rw [hparen] at hopener
      cases hopener
  | some opener =>
      cases hpartner : partner opener with
      | none =>
          simp only [hparen, hpartner] at hopener
          cases hopener
      | some closer =>
          simp only [hparen, hpartner] at hopener hcloser
          have hboth : opener = o ∧ closer = c := by
            split at hopener
            · next hbody =>
                simp only [hbody] at hcloser
                exact ⟨Option.some.inj hopener, Option.some.inj hcloser⟩
            · next hbody =>
                simp only [hbody] at hcloser
                exact ⟨Option.some.inj hopener, Option.some.inj hcloser⟩
          obtain ⟨rfl, rfl⟩ := hboth
          exact ⟨hpartner, hopens opener hparen⟩

/-- The declaration of a class has no parameter list. -/
theorem parenOpener_ofClass : (ofClass partner following).parenOpener = none := by
  unfold ofClass
  split
  · split <;> rfl
  · rfl

end Scope

namespace Stream

open Nesting Parameter

variable {ts : List Token} {ps : List (Nat × Nat)} {t : Token} {a c d i j k o : Nat}

/-! ## Innermost brackets -/

/-- The innermost bracket with a partner that stands around the token at index `k`. -/
def enclosing? (s : Stream) (k : Nat) : Option Nat :=
  (List.range k).reverse.find? fun a => (s.partner? a).any (k < ·)

/-- A search downwards finds the largest number. -/
theorem find?_reverse_range {p : Nat → Bool} {n : Nat} :
    (List.range n).reverse.find? p = some a ↔
      a < n ∧ p a = true ∧ ∀ b, a < b → b < n → p b = false := by
  induction n with
  | zero => simp
  | succ n ih =>
      rw [List.range_succ, List.reverse_append, List.reverse_singleton, List.singleton_append,
        List.find?_cons]
      cases hp : p n with
      | true =>
          constructor
          · intro h
            cases h
            exact ⟨by omega, hp, fun b hab hbn => by omega⟩
          · rintro ⟨hlt, -, hmax⟩
            rcases Nat.lt_or_ge a n with han | han
            · rw [hmax n han (by omega)] at hp
              cases hp
            · rw [show a = n by omega]
      | false =>
          rw [ih]
          constructor
          · rintro ⟨hlt, ha, hmax⟩
            refine ⟨by omega, ha, fun b hab hbn => ?_⟩
            rcases Nat.lt_or_ge b n with hb | hb
            · exact hmax b hab hb
            · rwa [show b = n by omega]
          · rintro ⟨hlt, ha, hmax⟩
            refine ⟨?_, ha, fun b hab hbn => hmax b hab (by omega)⟩
            by_contra hge
            rw [show a = n by omega, hp] at ha
            cases ha

/-- The innermost bracket around a token is the last one whose partner stands behind the token. -/
theorem enclosing?_eq_some_iff {s : Stream} : s.enclosing? k = some a ↔
    (∃ d, s.partner? a = some d ∧ a < k ∧ k < d) ∧
      ∀ b d, s.partner? b = some d → b < k → k < d → b ≤ a := by
  rw [enclosing?, find?_reverse_range]
  simp only [Option.any_eq_true, Option.any_eq_false, decide_eq_true_eq, decide_eq_false_iff_not]
  constructor
  · rintro ⟨hlt, ⟨d, hd, hkd⟩, hmax⟩
    refine ⟨⟨d, hd, hlt, hkd⟩, fun b e he hbk hke => ?_⟩
    by_contra hnot
    exact hmax b (by omega) hbk e he hke
  · rintro ⟨⟨d, hd, hlt, hkd⟩, hmax⟩
    refine ⟨hlt, ⟨d, hd, hkd⟩, fun b hab hbk e he hke => ?_⟩
    have := hmax b e he hbk hke
    omega

/-- A range of a stream is a piece of its row of tokens. -/
theorem between_ofTokens (ts : List Token) (i j : Nat) :
    (ofTokens ts).between i j = (ts.drop i).take (j - i) := by
  unfold between ofTokens
  rw [Array.toList_extract, List.extract_eq_take_drop]

/-- The pairs of a balanced row of tokens in a stream are those of the stream that open and close in
it. -/
theorem mem_balanced_iff (h : Token.Numbered ts)
    (hbalanced : Token.Balanced ((ofTokens ts).between i j) ps) (hij : i ≤ j) :
    (a, d) ∈ ps ↔ (a, d) ∈ pairs [] ts ∧ i ≤ a ∧ d < j := by
  rw [between_ofTokens] at hbalanced
  have hsplit : ts = ts.take i ++ ((ts.drop i).take (j - i) ++ ts.drop j) := by
    have hdrop : ts.drop j = (ts.drop i).drop (j - i) := by
      rw [List.drop_drop]
      congr 1
      omega
    rw [hdrop, List.take_append_drop, List.take_append_drop]
  have hfrom : ∀ t ∈ (ts.drop i).take (j - i), i ≤ t.index := fun t ht =>
    h.le_of_mem_drop (List.mem_of_mem_take ht)
  have hto : ∀ t ∈ (ts.drop i).take (j - i), t.index < j := by
    intro t ht
    rw [← List.drop_take] at ht
    exact h.lt_of_mem_take (List.mem_of_mem_drop ht)
  have hordered := ordered_nil h.pairwise
  rw [hsplit] at hordered
  have hsorted := (List.pairwise_append.1 hordered.after.tokens).1
  have hpairs : pairs [] ts = pairs [] (ts.take i) ++
      (pairs (after [] (ts.take i)) ((ts.drop i).take (j - i)) ++
        pairs ((after [] (ts.take i)).after ((ts.drop i).take (j - i))) (ts.drop j)) := by
    conv_lhs => rw [hsplit, pairs_append, pairs_append]
  constructor
  · intro hmem
    obtain ⟨-, ⟨t, ht, hindex⟩, u, hu, huindex⟩ := hbalanced.bounds hsorted hmem
    refine ⟨?_, hindex ▸ hfrom t ht, huindex ▸ hto u hu⟩
    rw [hpairs]
    exact List.mem_append_right _ (List.mem_append_left _ ((hbalanced.mem_pairs_iff _ _).2 hmem))
  · rintro ⟨hmem, hia, hdj⟩
    rw [hpairs] at hmem
    rcases List.mem_append.1 hmem with hmem | hmem
    · obtain ⟨shape, hlt, -, t, ht, rfl, -⟩ := hordered.left.pair hmem
      have := h.lt_of_mem_take ht
      omega
    · rcases List.mem_append.1 hmem with hmem | hmem
      · exact (hbalanced.mem_pairs_iff _ _).1 hmem
      · obtain ⟨shape, -, -, t, ht, rfl, -⟩ := hordered.after.after.pair hmem
        have := h.le_of_mem_drop ht
        omega

/-- The parentheses of a declaration are partners, and the first one opens. -/
theorem partner?_parenOpener (h : Token.Numbered ts)
    (hopener : ((ofTokens ts).scope i).parenOpener = some o)
    (hcloser : ((ofTokens ts).scope i).parenCloser = some c) :
    (ofTokens ts).partner? o = some c ∧ o < c := by
  have hscope : (ofTokens ts).partner? o = some c ∧
      ∃ t ∈ ts, t.index = o ∧ t.kind = .openParenthesis := by
    rcases (ofTokens ts).scope_eq_empty_or_mem i with hempty | hmem
    · rw [hempty] at hopener
      cases hopener
    · obtain ⟨before, t, following, hts, -, ⟨-, hfunction⟩ | ⟨-, hclass⟩⟩ :=
        Scope.exists_of_mem_scan hmem
      · rw [hfunction] at hopener hcloser
        obtain ⟨hpartner, u, hu, hindex, hkind⟩ := Scope.paired_ofFunction hopener hcloser
        refine ⟨hpartner, u, ?_, hindex, hkind⟩
        rw [hts]
        exact List.mem_append_right _ (List.mem_cons_of_mem _ hu)
      · rw [hclass] at hopener
        rw [Scope.parenOpener_ofClass] at hopener
        cases hopener
  obtain ⟨hpartner, t, ht, rfl, hkind⟩ := hscope
  exact ⟨hpartner, (isPair_of_opens h ht (by rw [hkind]; rfl) hpartner).1⟩

/-- No comma is a bracket with a partner. -/
theorem ne_of_comma (h : Token.Numbered ts) (ht : t ∈ ts) (hcomma : t.kind = .comma)
    (hpartner : (ofTokens ts).partner? a = some d) : d ≠ t.index := by
  rintro rfl
  have hget : (ofTokens ts).get? t.index = some t := by rw [get?_ofTokens, h.getElem? ht]
  obtain ⟨-, shape, ⟨-, hpair⟩ | ⟨-, hpair⟩⟩ := isPair_of_partner h hpartner
  · obtain ⟨u, hu, hcloses⟩ := hpair.closes
    obtain rfl : t = u := Option.some.inj (hget.symm.trans hu)
    rw [hcomma] at hcloses
    cases hcloses
  · obtain ⟨u, hu, hopens⟩ := hpair.opens
    obtain rfl : t = u := Option.some.inj (hget.symm.trans hu)
    rw [hcomma] at hopens
    cases hopens

/-- Among balanced tokens between two brackets these are the innermost ones around a comma exactly
when it stands at depth zero. -/
theorem enclosing?_eq_some_iff_depth (h : Token.Numbered ts)
    (hpartner : (ofTokens ts).partner? o = some c) (hlt : o < c)
    (hbalanced : Token.Balanced ((ofTokens ts).between (o + 1) c) ps) {front back : List Token}
    (hsplit : (ofTokens ts).between (o + 1) c = front ++ t :: back) (hcomma : t.kind = .comma) :
    (ofTokens ts).enclosing? t.index = some o ↔ depthOf front = 0 := by
  have hmem : t ∈ (ofTokens ts).between (o + 1) c := by
    rw [hsplit]
    simp
  have hsorted : ((ofTokens ts).between (o + 1) c).Pairwise (·.index < ·.index) := by
    rw [between_ofTokens]
    exact h.pairwise.sublist ((List.take_sublist _ _).trans (List.drop_sublist _ _))
  have hdepth := hbalanced.depthOf_filter (fun p hp => (hbalanced.bounds hsorted hp).1) t.index
  rw [hsplit, Token.filter_index_lt (hsplit ▸ hsorted)] at hdepth
  rw [between_ofTokens] at hmem
  have hots : o < t.index := h.le_of_mem_drop (List.mem_of_mem_take hmem)
  have htc : t.index < c := by
    rw [← List.drop_take] at hmem
    exact h.lt_of_mem_take (List.mem_of_mem_drop hmem)
  have ht : t ∈ ts := List.mem_of_mem_drop (List.mem_of_mem_take hmem)
  rw [hdepth, Int.natCast_eq_zero, List.countP_eq_zero, enclosing?_eq_some_iff]
  simp only [Bool.and_eq_true, decide_eq_true_eq, not_and, Nat.not_le, Prod.forall]
  constructor
  · rintro ⟨-, hmax⟩ a d hp hat
    obtain ⟨hpair, hoa, -⟩ := (mem_balanced_iff h hbalanced hlt).1 hp
    have hd := (partner?_eq_some_iff h).2 (.inl hpair)
    have hne := ne_of_comma h ht hcomma hd
    by_contra hnot
    have := hmax a d hd hat (by omega)
    omega
  · intro hnone
    refine ⟨⟨c, hpartner, hots, htc⟩, fun b d hb hbt htd => ?_⟩
    by_contra hnot
    -- a pair around the comma inside of the parentheses would be one of the balanced word
    obtain ⟨-, shape, ⟨-, houter⟩ | ⟨hback, -⟩⟩ := isPair_of_partner h hpartner
    · obtain ⟨-, other, ⟨-, hinner⟩ | ⟨hback, -⟩⟩ := isPair_of_partner h hb
      · have hdc := houter.lt_of_inside h hinner (by omega) (by omega)
        have hp := (mem_balanced_iff h hbalanced hlt).2
          ⟨mem_pairs_of_isPair h hinner, by omega, hdc⟩
        have := hnone b d hp hbt
        omega
      · omega
    · omega

/-- The parameters of a declaration whose parentheses are matched and hold balanced tokens. -/
theorem parameters_topLevel (h : Token.Numbered ts)
    (hopener : ((ofTokens ts).scope i).parenOpener = some o)
    (hcloser : ((ofTokens ts).scope i).parenCloser = some c)
    (hbalanced : Token.Balanced ((ofTokens ts).between (o + 1) c) ps) :
    let s := ofTokens ts
    let inside := s.between (o + 1) c
    s.partner? o = some c ∧
    s.parameters i = (inside.splitOnP fun t => t.kind == .comma &&
      s.enclosing? t.index == some o).filterMap ofPart? ∧
    (∀ k a, s.enclosing? k = some a ↔ (∃ d, s.partner? a = some d ∧ a < k ∧ k < d) ∧
      ∀ b d, s.partner? b = some d → b < k → k < d → b ≤ a) ∧
    (∀ part p, ofPart? part = some p ↔ ∃ lead found rest, Declares part p lead found rest) ∧
    (∀ part, (ofPart? part).isSome = true ↔ ∃ lead found rest, part = lead ++ found :: rest ∧
      found.kind = .variable ∧ ∀ t ∈ lead, t.kind ≠ .equal) ∧
    ∀ before sign value after qs, inside = before ++ sign :: (value ++ after) →
      sign.kind = .equal → Token.Balanced value qs →
      (∀ t ∈ value, t.kind = .comma → s.enclosing? t.index ≠ some o) →
      ((parts 0 (before ++ sign :: after)).filterMap ofPart?).map bare =
        (s.parameters i).map bare := by
  intro s inside
  obtain ⟨hpartner, hlt⟩ := partner?_parenOpener h hopener hcloser
  have hcut : ∀ front t back, inside = front ++ t :: back → t.kind = .comma →
      (s.enclosing? t.index = some o ↔ depthOf front = 0) := fun front t back hsplit hcomma =>
    enclosing?_eq_some_iff_depth h hpartner hlt hbalanced hsplit hcomma
  have hparameters : s.parameters i = (parts 0 inside).filterMap ofPart? := by
    unfold parameters
    rw [hopener, hcloser]
  refine ⟨hpartner, ?_, fun k a => enclosing?_eq_some_iff, fun part p => ofPart?_eq_some_iff,
    fun part => isSome_ofPart?, ?_⟩
  · rw [hparameters, parts_eq_splitOnP (p := fun t => s.enclosing? t.index == some o)]
    intro front t back hsplit hcomma
    rw [beq_iff_eq, Int.zero_add]
    exact hcut front t back hsplit hcomma
  · intro before sign value after qs hsplit hsign hvalue huncut
    rw [hparameters, hsplit]
    refine map_bare_eq hsign hvalue.depthOf_eq fun front t back heq hcomma hzero => ?_
    have hdepth := hcut (before ++ sign :: front) t (back ++ after) (by simp [hsplit, heq]) hcomma
    refine huncut t (by simp [heq]) hcomma (hdepth.2 ?_)
    have hneutral : depthChange sign.kind = 0 := by rw [hsign]; rfl
    rw [depthOf_append, depthOf_cons, hneutral, Int.zero_add, hzero]

/-- The comma between the parameters cuts, and the one in the call that is the default value does
not. -/
theorem parameters_topLevel_call :
    let ts := Token.place 0 Position.start [⟨.function, "function"⟩, ⟨.name, "f"⟩,
      ⟨.openParenthesis, "("⟩, ⟨.variable, "$a"⟩, ⟨.comma, ","⟩, ⟨.variable, "$b"⟩, ⟨.equal, "="⟩,
      ⟨.name, "g"⟩, ⟨.openParenthesis, "("⟩, ⟨.variable, "$c"⟩, ⟨.comma, ","⟩, ⟨.variable, "$d"⟩,
      ⟨.closeParenthesis, ")"⟩, ⟨.closeParenthesis, ")"⟩]
    let s := ofTokens ts
    Token.Numbered ts ∧ (s.scope 0).parenOpener = some 2 ∧ (s.scope 0).parenCloser = some 13 ∧
      Token.Balanced (s.between 3 13) [(8, 12)] ∧ s.partner? 2 = some 13 ∧
      s.parameters 0 = ((s.between 3 13).splitOnP fun t => t.kind == .comma &&
        s.enclosing? t.index == some 2).filterMap ofPart? ∧
      s.enclosing? 4 = some 2 ∧ s.enclosing? 10 = some 8 ∧
      (s.parameters 0).map bare = [⟨"$a", "", false, false, none⟩, ⟨"$b", "", false, false, none⟩] := by
  intro ts s
  have hnumbered : Token.Numbered ts := fun i t ht => (Token.index_place ht).trans (Nat.zero_add i)
  have hopener : (s.scope 0).parenOpener = some 2 := by rfl
  have hcloser : (s.scope 0).parenCloser = some 13 := by rfl
  have hcall : Token.Balanced (s.between 7 13) [(8, 12)] :=
    .skip rfl rfl (.pair rfl rfl (.skip rfl rfl (.skip rfl rfl (.skip rfl rfl .nil))) .nil)
  have hbalanced : Token.Balanced (s.between 3 13) [(8, 12)] :=
    .skip rfl rfl (.skip rfl rfl (.skip rfl rfl (.skip rfl rfl hcall)))
  obtain ⟨hpartner, hcut, -, -, -, hdefault⟩ :=
    parameters_topLevel hnumbered hopener hcloser hbalanced
  have hinner : ∀ t ∈ s.between 7 13, t.kind = .comma → s.enclosing? t.index ≠ some 2 := by
    decide
  have hdropped := hdefault (s.between 3 6) ⟨.equal, "=", 6, 1, 16⟩ (s.between 7 13) [] _ rfl rfl
    hcall hinner
  exact ⟨hnumbered, hopener, hcloser, hbalanced, hpartner, hcut, rfl, rfl, hdropped.symm⟩

end Stream

end PhpDoc
