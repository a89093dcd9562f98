import PhpDoc.Rule.Function
import PhpDoc.Rule.Layout
import PhpDoc.Rule.Property

/-!
# The catalog of rules

Every rule with the severity of its violations, whether they can be fixed, and a summary. A rule
whose violations can be fixed reports errors.
-/

namespace PhpDoc

/-- What is known about a rule before any source is checked. -/
structure CatalogEntry where
  source : String
  severity : Severity
  fixable : Bool
  summary : String
  deriving DecidableEq, Repr, Inhabited

namespace CatalogEntry

/-- A rule whose violations are errors that nobody can fix but the author. -/
def error (family code summary : String) : CatalogEntry :=
  ⟨family ++ "." ++ code, .error, false, summary⟩

/-- A rule whose violations are errors that come with a fix. -/
def repairable (family code summary : String) : CatalogEntry :=
  ⟨family ++ "." ++ code, .error, true, summary⟩

/-- A rule whose violations are warnings. -/
def warning (family code summary : String) : CatalogEntry :=
  ⟨family ++ "." ++ code, .warning, false, summary⟩

end CatalogEntry

namespace Catalog

/-- The rules for the layout of doc comments. -/
def layout : List CatalogEntry :=
  [.error Layout.family "Empty" "Doc comment is empty",
   .repairable Layout.family "ContentAfterOpen" "Content on the open marker line",
   .repairable Layout.family "ContentBeforeClose" "Content on the close marker line",
   .repairable Layout.family "SpacingAfter" "Blank lines before the close marker",
   .error Layout.family "MissingShort" "Missing short description",
   .repairable Layout.family "SpacingBeforeShort" "Short description not on the first line",
   .error Layout.family "ShortNotCapital" "Short description starts lower-case",
   .repairable Layout.family "SpacingBetween" "Not one blank line between descriptions",
   .error Layout.family "LongNotCapital" "Long description starts lower-case",
   .repairable Layout.family "SpacingBeforeTags" "Not one blank line before the tags",
   .error Layout.family "ParamGroup" "Parameter tags split across groups",
   .error Layout.family "ParamNotFirst" "Parameter group is not the first group",
   .repairable Layout.family "TagValueIndent" "Tag value not aligned within its group",
   .repairable Layout.family "SpacingAfterTagGroup" "Not one blank line after a tag group",
   .error Layout.family "TagsNotGrouped" "Same-name tags interrupted by another tag",
   .repairable Layout.family "SpaceBeforeStar" "Star not aligned with the block"]

/-- The rules for the comments of functions. -/
def functions : List CatalogEntry :=
  [.error FunctionRule.family "Missing" "Function has no doc comment",
   .error FunctionRule.family "WrongStyle" "Function comment is not a doc comment",
   .repairable FunctionRule.family "SpacingAfter" "Blank lines after the function comment",
   .error FunctionRule.family "EmptySees" "@see tag without content",
   .error FunctionRule.family "MissingParamType" "@param tag without type",
   .error FunctionRule.family "MissingParamName" "@param tag without variable name",
   .error FunctionRule.family "MissingParamComment" "@param tag without description",
   .repairable FunctionRule.family "IncorrectParamVarName" "@param type not normalized",
   .error FunctionRule.family "TypeHintMissing" "Parameter type declaration missing",
   .warning FunctionRule.family "ScalarTypeHintMissing" "Scalar parameter type declaration missing",
   .error FunctionRule.family "IncorrectTypeHint" "Parameter type declaration differs",
   .error FunctionRule.family "InvalidTypeHint" "Unexpected parameter type declaration",
   .repairable FunctionRule.family "SpacingAfterParamType" "Spacing after @param type",
   .error FunctionRule.family "ParamNameNoMatch" "@param name differs from the parameter",
   .error FunctionRule.family "ParamNameNoCaseMatch" "@param name differs only in case",
   .error FunctionRule.family "ExtraParamComment" "Superfluous @param tag",
   .repairable FunctionRule.family "SpacingAfterParamName" "Spacing after @param name",
   .error FunctionRule.family "ParamCommentNotCapital" "@param description starts lower-case",
   .error FunctionRule.family "ParamCommentFullStop" "@param description lacks a full stop",
   .error FunctionRule.family "MissingParamTag" "Parameter without @param tag",
   .error FunctionRule.family "DuplicateReturn" "More than one @return tag",
   .error FunctionRule.family "MissingReturn" "Missing @return tag",
   .error FunctionRule.family "MissingReturnType" "@return tag without type",
   .repairable FunctionRule.family "InvalidReturn" "@return type not normalized",
   .error FunctionRule.family "InvalidReturnVoid" "void function returns a value",
   .error FunctionRule.family "InvalidNoReturn" "Non-void function has no return",
   .error FunctionRule.family "InvalidReturnNotVoid" "Non-void function returns nothing",
   .error FunctionRule.family "InvalidThrows" "@throws tag without exception type",
   .error FunctionRule.family "EmptyThrows" "@throws tag without description",
   .error FunctionRule.family "ThrowsNotCapital" "@throws description starts lower-case",
   .error FunctionRule.family "ThrowsNoFullStop" "@throws description lacks a full stop"]

/-- The rules for the comments of member variables. -/
def properties : List CatalogEntry :=
  [.error PropertyRule.family "Missing" "Member variable has no doc comment",
   .error PropertyRule.family "WrongStyle" "Member variable comment is not a doc comment",
   .error PropertyRule.family "DuplicateVar" "More than one @var tag",
   .error PropertyRule.family "EmptySees" "@see tag without content",
   .warning PropertyRule.family "TagNotAllowed" "Tag not allowed on a member variable",
   .error PropertyRule.family "MissingVar" "Missing @var tag",
   .error PropertyRule.family "VarOrder" "@var is not the first tag",
   .error PropertyRule.family "EmptyVar" "@var tag without content",
   .repairable PropertyRule.family "IncorrectVarType" "@var type not normalized"]

/-- The whole catalog. -/
def entries : List CatalogEntry :=
  layout ++ functions ++ properties

/-- The text with spaces behind it, at least `width` characters long. -/
def padEnd (width : Nat) (text : String) : String :=
  text ++ Text.spaces (width - text.length)

/-- The line of an entry in the table of rules. -/
def line (e : CatalogEntry) : String :=
  padEnd 42 e.source ++ " " ++ padEnd 7 e.severity.label ++ " " ++
    padEnd 7 (if e.fixable then "fixable" else "") ++ "  " ++ e.summary ++ "\n"

/-- The table of rules. -/
def table (entries : List CatalogEntry) : String :=
  String.join (entries.map line)

end Catalog

end PhpDoc
