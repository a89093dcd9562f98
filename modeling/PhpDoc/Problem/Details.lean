import PhpDoc.Data.Value
import PhpDoc.Data.Json
import PhpDoc.Problem.Failure

/-!
# Problem details

A problem is the machine-readable form of a failure: a type, a title, a status, a detail, the
occurrence that it is about and further fields. A further field with the key of one of the five
takes its place.
-/

namespace PhpDoc

/-- A described problem. -/
structure Problem where
  type : String
  title : String
  status : Int
  detail : String
  occurrence : String
  extensions : Fields
  deriving Repr, Inhabited

namespace Problem

/-- The fields of a problem, in the order in which they are written. -/
def fields (p : Problem) : Fields :=
  Fields.update
    [("type", .text p.type), ("title", .text p.title), ("status", .int p.status),
     ("detail", .text p.detail), ("instance", .text p.occurrence)] p.extensions

/-- The problem with the name and, if it has no detail yet, the description of what raised it.
Further fields follow its own. -/
def raisedBy (p : Problem) (name description : String) (more : Fields) : Problem :=
  { p with
    detail := if p.detail.isEmpty then description else p.detail
    extensions :=
      Fields.update (Fields.update [("exception_type", .text name)] p.extensions) more }

/-- The JSON text of a problem, in one line. -/
def render (p : Problem) : String :=
  Json.render .line (.map p.fields)

end Problem

namespace Failure

/-- Where the types of problems are documented. -/
def typeBase : String := "https://docsniff.dev/problems/"

/-- The occurrence of a failure that belongs to nothing else. -/
def anonymous : String := "urn:docsniff:error"

/-- The problem that a failure is, at an occurrence. -/
def problemTitled (f : Failure) (title occurrence : String) : Problem :=
  let base : Problem := ⟨typeBase ++ f.code.label, title, f.status, f.message, occurrence, []⟩
  base.raisedBy f.kind.name f.text (Fields.update [("code", .text f.code.label)] f.context)

/-- The problem that a failure is, with the name of its kind as the title. -/
def problem (f : Failure) (occurrence : String) : Problem :=
  f.problemTitled f.kind.name occurrence

end Failure

end PhpDoc
