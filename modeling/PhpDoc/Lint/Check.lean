import PhpDoc.Config.Basic
import PhpDoc.Rule.Function
import PhpDoc.Rule.Layout
import PhpDoc.Rule.Property

/-!
# Checking a source text

A check walks the tokens in order. It checks the layout of every doc comment where the comment
opens, the comment of every named function at its keyword, and the comment of every member variable
at the variable. Checking only reads the stream.
-/

namespace PhpDoc

/-- Why a source text could not be checked: a construct in it never ends, or a marker of a doc
comment has no partner. -/
inductive LintError where
  | unterminated (error : SyntaxError)
  | unpaired (marker : Token)
  deriving DecidableEq, Repr, Inhabited

namespace Lint

/-- The findings at the open marker of a doc comment. -/
def checkBlock (s : Stream) (t : Token) : Except LintError (List Violation) :=
  match s.commentAt? t.index with
  | some span => .ok (Layout.check s (Block.ofSpan s span))
  | none => .error (.unpaired t)

/-- The findings at the keyword of a named function. -/
def checkFunction (config : Config) (s : Stream) (t : Token) : Except LintError (List Violation) :=
  let f := Function.ofToken s t
  match Preceding.find s FunctionRule.isLead t.index with
  | .other _ =>
      .ok [.error FunctionRule.family "WrongStyle"
        "You must use \"/**\" style comments for a function comment" t]
  | .none =>
      .ok [.error FunctionRule.family "Missing"
        ("Missing doc comment for function " ++ f.name ++ "()") t]
  | .doc closer =>
      match s.commentClosedAt? closer.index with
      | some span => .ok (FunctionRule.checkComment config.scalarHints s f closer span)
      | none => .error (.unpaired closer)

/-- The findings at a member variable. -/
def checkProperty (s : Stream) (t : Token) : Except LintError (List Violation) :=
  match Preceding.find s PropertyRule.isLead t.index with
  | .other _ =>
      .ok [.error PropertyRule.family "WrongStyle"
        "You must use \"/**\" style comments for a member variable comment" t]
  | .none => .ok [.error PropertyRule.family "Missing" "Missing member variable doc comment" t]
  | .doc closer =>
      match s.commentClosedAt? closer.index with
      | some span => .ok (PropertyRule.checkComment s span)
      | none => .error (.unpaired closer)

/-- The findings at a token. -/
def checkToken (config : Config) (s : Stream) (t : Token) : Except LintError (List Violation) :=
  match t.kind with
  | .docOpen => checkBlock s t
  | .function => checkFunction config s t
  | .variable => if s.isProperty t then checkProperty s t else .ok []
  | _ => .ok []

/-- The findings of a stream, in the order of its tokens. -/
def checkStream (config : Config) (s : Stream) : Except LintError (List Violation) :=
  (s.tokens.toList.mapM (checkToken config s)).map List.flatten

/-- The findings of a source text. -/
def check (config : Config) (text : String) : Except LintError (List Violation) := do
  let s ← (tokenize text).mapError .unterminated
  checkStream config s

end Lint

end PhpDoc
