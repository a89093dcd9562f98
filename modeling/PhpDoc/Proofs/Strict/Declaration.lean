import PhpDoc.Comment.Preceding
import PhpDoc.Declaration.Function
import PhpDoc.Declaration.Property
import PhpDoc.Proofs.Strict.Reading

/-!
# Declarations, read strictly

The comment in front of a declaration is looked for backwards, one index after the other, over
attribute groups by the partner of their bracket. A body is walked forwards to its first exit, over
nested declarations by the ends of their bodies. Both walks jump, and a jump that does not move on
is a fault too. In the stream of a source text all of them do: its brackets and scopes are linked.
-/

namespace PhpDoc.Strict

variable {s : Stream}

/-! ## Backwards to a comment -/

/-- The index of the mark of the attribute group that the token closes, if it closes one. -/
def attributeStart (s : Stream) (t : Token) : Except Fault (Option Nat) :=
  if t.kind == .closeSquare then
    match s.partner? t.index with
    | none => .ok none
    | some opener => do
        match ← fetchBefore s opener with
        | some mark => return if mark.kind == .attributeMark then some mark.index else none
        | none => return none
  else .ok none

/-- The partner of a bracket that ends an attribute is looked up without a fault. -/
theorem attributeStart_eq_ok (hs : s.Placed) (hl : s.Linked) (t : Token) :
    attributeStart s t = .ok (Preceding.attributeStart? s t) := by
  unfold attributeStart Preceding.attributeStart?
  split
  · cases hpartner : s.partner? t.index with
    | none => rfl
    | some opener =>
        simp only [fetchBefore_eq_ok hs (Nat.le_of_lt (hl.partner_lt hpartner)), ok_bind]
        cases s.before? opener <;> rfl
  · rfl

/-- An attribute group starts in front of the bracket that closes it. -/
theorem attributeStart_lt (hs : s.Placed) (hl : s.Linked) {t : Token} (ht : s.Has t) {mark : Nat}
    (h : Preceding.attributeStart? s t = some mark) : mark < t.index := by
  unfold Preceding.attributeStart? at h
  split at h
  · next hkind =>
      have hcloses : t.kind.closes?.isSome = true := by
        rw [eq_of_beq hkind]
        rfl
      split at h
      · next opener hpartner =>
          have hopener := hl.lt_of_closes ht hcloses hpartner
          split at h
          · next u hbefore =>
              have hu := (hs.before?.1 hbefore).2
              split at h
              · cases h
                omega
              · cases h
          · cases h
      · cases h
  · cases h

/-- The comment right before index `n`. Tokens with the property `skip` and attribute groups may
stand in between. -/
def preceding (s : Stream) (skip : Token → Bool) : Nat → Except Fault Preceding
  | 0 => .ok .none
  | n + 1 => do
      let t ← fetch s n
      if skip t then preceding s skip n
      else
        match ← attributeStart s t with
        | some mark => if mark ≤ n then preceding s skip mark else .error (.stuck n)
        | none => return .ofToken t
  termination_by n => n

/-- What stands in front of a declaration is found without a fault, and the walk moves on. -/
theorem preceding_eq_ok (hs : s.Placed) (hl : s.Linked) (skip : Token → Bool) {n : Nat}
    (h : n ≤ s.size) : preceding s skip n = .ok (Preceding.find s skip n) := by
  induction n using Nat.strong_induction_on with
  | h n ih =>
      cases n with
      | zero => rw [preceding, Preceding.find]
      | succ n =>
          obtain ⟨t, ht, rfl⟩ := exists_has hs (i := n) (by omega)
          have hget : s.get? t.index = some t := ht
          rw [preceding, Preceding.find, fetch_has ht, hget, ok_bind]
          simp only
          split
          · exact ih t.index (Nat.lt_succ_self _) (by omega)
          · rw [attributeStart_eq_ok hs hl, ok_bind]
            cases hmark : Preceding.attributeStart? s t with
            | none => rfl
            | some mark =>
                have hlt := attributeStart_lt hs hl ht hmark
                simp only [if_pos (Nat.le_of_lt hlt)]
                exact ih mark (by omega) (by omega)

/-! ## Functions -/

/-- The parameters of the function or closure at index `i`, in order. -/
def parameters (s : Stream) (i : Nat) : Except Fault (List Parameter) :=
  match (s.scope i).parenOpener, (s.scope i).parenCloser with
  | some opener, some closer => do
      let list ← fetchRange s (opener + 1) closer
      return (Parameter.parts 0 list).filterMap Parameter.ofPart?
  | _, _ => .ok []

/-- The parameters of a declaration are read without a fault. -/
theorem parameters_eq_ok (hs : s.Placed) (hl : s.Linked) (i : Nat) :
    parameters s i = .ok (s.parameters i) := by
  unfold parameters Stream.parameters
  cases (s.scope i).parenOpener with
  | none => rfl
  | some opener =>
      cases hcloser : (s.scope i).parenCloser with
      | none => rfl
      | some closer =>
          simp only [fetchRange_eq_ok hs (Nat.le_of_lt (hl.parenCloser_lt hcloser))]
          rfl

/-- The function declared by the keyword `token`. -/
def function (s : Stream) (token : Token) : Except Fault Function := do
  let scope := s.scope token.index
  let name ← fetchFirst s (· == .name) (token.index + 1) (scope.parenOpener.getD s.size)
  let parameters ← parameters s token.index
  return ⟨token, name.elim "" (·.text), parameters, scope.bodyOpener, scope.bodyCloser⟩

/-- A function is read without a fault. -/
theorem function_eq_ok (hs : s.Placed) (hl : s.Linked) (token : Token) :
    function s token = .ok (Function.ofToken s token) := by
  rw [function, fetchFirst_eq_ok hs, ok_bind, parameters_eq_ok hs hl]
  rfl

/-! ## Forwards to an exit -/

/-- The exit at a `return` or `yield`, which is bare when a semicolon follows. -/
def exitAt (s : Stream) (t : Token) : Except Fault Exit := do
  match ← fetchFirst s (!·.isTrivia) (t.index + 1) s.size with
  | some next => return if next.kind == .semicolon then .bare t else .value t
  | none => return .value t

/-- What follows an exit keyword is read without a fault. -/
theorem exitAt_eq_ok (hs : s.Placed) (t : Token) : exitAt s t = .ok (Exit.ofToken s t) := by
  rw [exitAt, fetchFirst_eq_ok hs, ok_bind, Exit.ofToken]
  cases s.firstBetween (!·.isTrivia) (t.index + 1) s.size with
  | none => rfl
  | some next =>
      simp only
      split <;> rfl

/-- The first exit from index `i` on, before index `stop`. The bodies of nested declarations are
passed over. -/
def exitFrom (s : Stream) (stop i : Nat) : Except Fault Exit :=
  if i < stop then do
    let t ← fetch s i
    if t.kind.isFunctionLike || t.kind.isClassLike then
      match (s.scope i).bodyCloser with
      | some closer => if i ≤ closer then exitFrom s stop (closer + 1) else .error (.stuck i)
      | none => exitFrom s stop (i + 1)
    else if t.kind == .returnWord || t.kind == .yieldWord then exitAt s t
    else exitFrom s stop (i + 1)
  else .ok .none
  termination_by stop - i

/-- Tokens in front of the index at which a walk goes on are passed over. -/
theorem find_append {resume : Nat} {ts us : List Token} (h : ∀ t ∈ ts, t.index < resume) :
    Exit.find s resume (ts ++ us) = Exit.find s resume us := by
  induction ts with
  | nil => rfl
  | cons t ts ih =>
      obtain ⟨ht, hts⟩ := List.forall_mem_cons.1 h
      rw [List.cons_append, Exit.find, if_pos ht, ih hts]

/-- The search for an exit passes over everything in front of the place where it resumes. -/
theorem find_between (hs : s.Placed) {i resume stop : Nat} (h : i ≤ resume) :
    Exit.find s resume (s.between i stop) = Exit.find s resume (s.between resume stop) := by
  rcases Nat.le_total resume stop with hle | hle
  · rw [Stream.between_append h hle]
    exact find_append fun t ht => (hs.mem_between.1 ht).2.2
  · rw [Stream.between_eq_nil hle, ← List.append_nil (s.between i stop)]
    exact find_append fun t ht => Nat.lt_of_lt_of_le (hs.mem_between.1 ht).2.2 hle

/-- The walk over a body comes to its first exit without a fault. -/
theorem exitFrom_eq_ok (hs : s.Placed) (hl : s.Linked) {stop : Nat} (h : stop ≤ s.size)
    {i resume : Nat} (hresume : resume ≤ i) :
    exitFrom s stop i = .ok (Exit.find s resume (s.between i stop)) := by
  induction hd : stop - i using Nat.strong_induction_on generalizing i resume with
  | h d ih =>
      rw [exitFrom]
      split
      · next hlt =>
          obtain ⟨t, ht, rfl⟩ := exists_has hs (i := i) (by omega)
          have hnext : exitFrom s stop (t.index + 1) =
              .ok (Exit.find s resume (s.between (t.index + 1) stop)) :=
            ih (stop - (t.index + 1)) (by omega) (by omega) rfl
          rw [fetch_has ht, ok_bind, Stream.between_cons ht hlt, Exit.find,
            if_neg (show ¬t.index < resume by omega)]
          split
          · cases hcloser : (s.scope t.index).bodyCloser with
            | none => exact hnext
            | some closer =>
                -- the walk goes on behind the body, which ends behind its declaration
                have hbehind := (hl.bodyCloser_lt hcloser).1
                simp only [if_pos (Nat.le_of_lt hbehind), Option.elim_some]
                rw [find_between hs (by omega)]
                exact ih (stop - (closer + 1)) (by omega) (Nat.le_refl _) rfl
          · split
            · exact exitAt_eq_ok hs t
            · exact hnext
      · next hle =>
          rw [Stream.between_eq_nil (by omega)]
          rfl

/-- The first exit of the body of a function. -/
def firstExit (s : Stream) (f : Function) : Except Fault Exit :=
  match f.bodyOpener, f.bodyCloser with
  | some opener, some closer => exitFrom s closer (opener + 1)
  | _, _ => .ok .none

/-- The first exit of a function is found without a fault. -/
theorem firstExit_eq_ok (hs : s.Placed) (hl : s.Linked) (token : Token) :
    firstExit s (Function.ofToken s token) = .ok ((Function.ofToken s token).firstExit s) := by
  unfold firstExit Function.firstExit
  cases (Function.ofToken s token).bodyOpener with
  | none => rfl
  | some opener =>
      cases hcloser : (Function.ofToken s token).bodyCloser with
      | none => rfl
      | some closer =>
          have hlt := (hl.bodyCloser_lt (i := token.index) hcloser).2
          exact exitFrom_eq_ok hs hl (Nat.le_of_lt hlt) (Nat.zero_le _)

/-! ## Member variables -/

/-- The nesting noted for the token at index `i`. -/
def nestingAt (s : Stream) (i : Nat) : Except Fault Nesting :=
  (s.nestings[i]?).elim (.error (.outside i)) .ok

/-- The nesting of a token of the stream is looked up without a fault. -/
theorem nestingAt_eq_ok (hl : s.Linked) {i : Nat} (h : i < s.size) :
    nestingAt s i = .ok (s.nesting i) := by
  have hlt : i < s.nestings.size := hl.size_nestings ▸ h
  have hget : s.nestings[i]? = some s.nestings[i] := Array.getElem?_eq_getElem hlt
  rw [nestingAt, Stream.nesting, hget]
  rfl

/-- Whether the token at index `i` stands directly in the braces of a class-like declaration. -/
def inClass (s : Stream) (i : Nat) : Except Fault Bool := do
  let nesting ← nestingAt s i
  match nesting.curly?.bind fun curly => (s.owners[curly]?).join with
  | some owner => return (← fetch s owner).kind.isClassLike
  | none => return false

/-- Whether a token stands in a class is found without a fault. -/
theorem inClass_eq_ok (hs : s.Placed) (hl : s.Linked) {i : Nat} (h : i < s.size) :
    inClass s i = .ok (s.inClass i) := by
  unfold inClass Stream.inClass
  rw [nestingAt_eq_ok hl h, ok_bind]
  change (match s.owner? i with
    | some owner => (fetch s owner).bind fun t => .ok t.kind.isClassLike
    | none => .ok false) = _
  cases howner : s.owner? i with
  | none => rfl
  | some owner =>
      obtain ⟨t, ht, rfl⟩ := exists_has hs (hl.owner_lt howner)
      have hget : s.get? t.index = some t := ht
      simp only [fetch_has ht, Option.bind_some, hget]
      rfl

/-- Whether the token declares a member variable. -/
def isProperty (s : Stream) (t : Token) : Except Fault Bool :=
  if t.kind == .variable then do
    let nesting ← nestingAt s t.index
    if 0 < nesting.parentheses then return false
    else if ← inClass s t.index then
      let front ← fetchRange s 0 t.index
      match front.reverse.find? (!isPropertyLead ·) with
      | some lead => return lead.kind == .modifier || lead.kind == .varWord
      | none => return false
    else return false
  else .ok false

/-- Whether a variable is a member is found without a fault. -/
theorem isProperty_eq_ok (hs : s.Placed) (hl : s.Linked) {t : Token} (ht : s.Has t) :
    isProperty s t = .ok (s.isProperty t) := by
  have hlt := ht.index_lt_size
  unfold isProperty Stream.isProperty Stream.inParentheses
  simp only [nestingAt_eq_ok hl hlt, inClass_eq_ok hs hl hlt,
    fetchRange_eq_ok hs (Nat.le_of_lt hlt), ok_bind, pure_eq_ok]
  cases t.kind == .variable with
  | false => rfl
  | true =>
      by_cases hopen : 0 < (s.nesting t.index).parentheses
      · simp [hopen]
      · cases s.inClass t.index with
        | false => simp [hopen]
        | true =>
            cases (s.between 0 t.index).reverse.find? (!isPropertyLead ·) <;> simp [hopen]

end PhpDoc.Strict
