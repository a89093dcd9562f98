import PhpDoc.Comment.Preceding
import PhpDoc.Proofs.Token.Place

/-!
# The comment found in front of a declaration

What is found in front of a token stands in front of it in the stream.
-/

namespace PhpDoc.Preceding

variable {s : Stream}

/-- A doc comment that is found in front of a token ends in front of it. -/
theorem find_eq_doc (hs : s.Placed) {skip : Token → Bool} {n : Nat} {closer : Token}
    (h : find s skip n = .doc closer) :
    s.Has closer ∧ closer.kind = .docClose ∧ closer.index < n := by
  fun_induction find s skip n with
  | case1 => cases h
  | case2 n hnone => cases h
  | case3 n t ht hskip ih =>
      obtain ⟨hhas, hkind, hlt⟩ := ih h
      exact ⟨hhas, hkind, by omega⟩
  | case4 n t ht hskip mark hmark hle ih =>
      obtain ⟨hhas, hkind, hlt⟩ := ih h
      exact ⟨hhas, hkind, by omega⟩
  | case5 n t ht hskip mark hmark hle => cases h
  | case6 n t ht hskip hmark =>
      unfold ofToken at h
      split at h
      · next hkind =>
          cases h
          exact ⟨hs.has_of_get? ht, hkind, by rw [hs.index ht]; exact Nat.lt_succ_self n⟩
      · cases h
      · cases h

end PhpDoc.Preceding
