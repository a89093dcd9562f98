import PhpDoc.Data.Value
import PhpDoc.Toml.Scalar

/-!
# Tables of TOML

Keys and headers build a table, and none of them may change what an earlier one has settled. A value
is never overwritten. An array and an inline table are complete where they stand. A table has at
most one header, and none once a dotted key of an earlier section went through it.
-/

namespace PhpDoc.Toml

/-- A table that is being read: its fields, the tables with a header, the values that are complete,
and the tables that dotted keys of the current section went through. -/
structure Table where
  fields : Fields
  declared : List Key
  complete : List Key
  passed : List Key
  deriving Repr, Inhabited

namespace Table

/-- The table at the beginning. -/
def empty : Table := ⟨[], [], [], []⟩

/-- Change the table under a key, with the tables on the way to it. Nothing but tables may be on the
way. -/
def changeAt (change : Fields → Option Fields) : Key → Fields → Option Fields
  | [], fields => change fields
  | part :: parts, fields =>
      match fields.lookup part with
      | none => (changeAt change parts []).map fun inner => fields ++ [(part, .map inner)]
      | some (.map inner) =>
          (changeAt change parts inner).map fun inner => Fields.set part (.map inner) fields
      | some _ => none

/-- The fields with a new one. -/
def addField (name : String) (v : Value) (fields : Fields) : Option Fields :=
  if Fields.has fields name then none else some (fields ++ [(name, v)])

/-- Whether the key leads to a complete value or into one. -/
def isComplete (t : Table) (k : Key) : Bool :=
  t.complete.any (·.isPrefixOf k)

/-- Whether a value is complete where it stands. -/
def closes : Value → Bool
  | .list _ => true
  | .map _ => true
  | _ => false

/-- The table with a value under a key of the section with the given header. -/
def put (t : Table) (header k : Key) (v : Value) : Option Table := do
  let way := (List.range k.length).drop 1 |>.map fun n => header ++ k.take n
  if way.any t.declared.contains || t.isComplete (header ++ k.dropLast) then none
  let fields ← changeAt (addField (k.getLastD "") v) (header ++ k.dropLast) t.fields
  return { t with
    fields
    complete := if closes v then (header ++ k) :: t.complete else t.complete
    passed := way ++ t.passed }

/-- The table with a new section. -/
def declare (t : Table) (header : Key) : Option Table := do
  let declared := t.passed ++ t.declared
  if declared.contains header || t.isComplete header then none
  let fields ← changeAt some header t.fields
  return { t with fields, declared := header :: declared, passed := [] }

end Table

end PhpDoc.Toml
