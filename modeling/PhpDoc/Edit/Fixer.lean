import PhpDoc.Edit.Changeset
import PhpDoc.Token.Stream

/-!
# Applying edits

A fixer owns the texts of the tokens of one pass. Edits are proposed to it as a whole. It accepts
them only when every token still holds the text that the edit was computed against and none of them
was changed before; otherwise it changes nothing but the count of rejections.
-/

namespace PhpDoc

/-- The current texts of the tokens of a pass, the indices changed so far, and the numbers of
accepted and rejected proposals. -/
structure Fixer where
  texts : Array String
  touched : List Nat
  accepted : Nat
  rejected : Nat
  deriving DecidableEq, Repr, Inhabited

/-- What becomes of a proposal. A rejection names the token that stands in the way, unless there
was nothing to change; a token that does not exist leaves the fixer as it was. -/
inductive Verdict where
  | accepted
  | rejected (obstacle : Option Nat)
  | outOfRange (index : Nat)
  deriving DecidableEq, Repr, Inhabited

namespace Fixer

/-- The fixer at the beginning of a pass over the stream. -/
def ofStream (s : Stream) : Fixer :=
  ⟨s.tokens.map (·.text), [], 0, 0⟩

/-- The first of the edits that stands in the way of applying all of them. -/
def obstacle? (f : Fixer) : List Edit → Option Verdict
  | [] => none
  | e :: es =>
      if f.touched.contains e.index then some (.rejected (some e.index))
      else match f.texts[e.index]? with
        | none => some (.outOfRange e.index)
        | some text =>
            if text == e.oldText then f.obstacle? es else some (.rejected (some e.index))

/-- What becomes of the proposed edits. -/
def verdict (f : Fixer) (edits : List Edit) : Verdict :=
  if edits.isEmpty then .rejected none else (f.obstacle? edits).getD .accepted

/-- The fixer with the new texts of the edits written. -/
def apply (f : Fixer) (edits : List Edit) : Fixer :=
  { f with
    texts := edits.foldl (fun texts e => texts.setIfInBounds e.index e.newText) f.texts
    touched := edits.map (·.index) ++ f.touched
    accepted := f.accepted + 1 }

/-- Propose edits: the fixer after the proposal, and what became of it. -/
def propose (f : Fixer) (edits : List Edit) : Fixer × Verdict :=
  match f.verdict edits with
  | .accepted => (f.apply edits, .accepted)
  | .rejected obstacle => ({ f with rejected := f.rejected + 1 }, .rejected obstacle)
  | .outOfRange index => (f, .outOfRange index)

/-- Whether any proposal was accepted. -/
def changed (f : Fixer) : Bool :=
  0 < f.accepted

/-- The source text with the current texts of its tokens. -/
def text (f : Fixer) : String :=
  String.join f.texts.toList

end Fixer

end PhpDoc
