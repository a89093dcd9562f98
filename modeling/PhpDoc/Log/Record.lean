import PhpDoc.Data.Json
import PhpDoc.Data.Value
import PhpDoc.Text.Cut

/-!
# Log records

A record has a level, the name of its logger, a message and further fields. Levels are ordered by
their numbers, and a log shows the records from its threshold on. A structured logger adds the fields
bound to it, the correlation id in force, and an operation and a status when they are still missing;
what the call itself gives always wins. A bare logger adds nothing.

A record is written as a line of plain text with level and message, or as a JSON object. The object
has the time, the level, the name and the message, then the structured fields in a fixed order, and
then all other fields of the record that have a value.
-/

namespace PhpDoc

/-! ## Levels -/

/-- How important a log record is. -/
inductive LogLevel where
  | debug
  | info
  | warning
  | error
  | critical
  deriving DecidableEq, Repr, Inhabited

namespace LogLevel

/-- All levels, from the least important one on. -/
def all : List LogLevel := [debug, info, warning, error, critical]

/-- The written name of a level. -/
def label : LogLevel → String
  | debug => "DEBUG"
  | info => "INFO"
  | warning => "WARNING"
  | error => "ERROR"
  | critical => "CRITICAL"

/-- The number of a level. -/
def number : LogLevel → Nat
  | debug => 10
  | info => 20
  | warning => 30
  | error => 40
  | critical => 50

/-- The level with the name `s`. -/
def ofLabel? (s : String) : Option LogLevel :=
  all.find? (·.label == s)

end LogLevel

/-! ## Records and loggers -/

/-- A logged message. -/
structure Record where
  level : LogLevel
  name : String
  message : String
  extras : Fields
  deriving Repr, Inhabited

/-- Why a call logs nothing: a field has a key that is reserved for the record itself, or the
arguments do not fit the places in the message. -/
inductive LogError where
  | reservedKey (key : String)
  | arguments
  deriving DecidableEq, Repr, Inhabited

/-- A named logger. A structured one has bound fields. -/
structure Logger where
  name : String
  bound : Option Fields
  deriving Repr, Inhabited

namespace Logger

/-- The structured logger with a name. -/
def named (name : String) : Logger := ⟨name, some []⟩

/-- The bare logger with a name. -/
def bare (name : String) : Logger := ⟨name, none⟩

/-- The structured logger with further bound fields. -/
def bind (l : Logger) (fields : Fields) : Logger :=
  { l with bound := some (Fields.update (l.bound.getD []) fields) }

/-- The field of a correlation id. -/
def correlationField (correlation : Option String) : Fields :=
  correlation.elim [] fun id => [("correlation_id", .text id)]

/-- The fields of structured records that have no other ones. -/
def defaults : Fields :=
  [("operation", .text "unknown"), ("status", .text "ok")]

/-- The fields of a record of the logger, for a call with the fields `extra`. -/
def extras (l : Logger) (correlation : Option String) (extra : Fields) : Fields :=
  match l.bound with
  | none => extra
  | some bound =>
      [bound, correlationField correlation, defaults].foldl Fields.complete extra

/-- The record of a call with a finished message. -/
def record (l : Logger) (correlation : Option String) (level : LogLevel) (message : String)
    (extra : Fields) : Record :=
  ⟨level, l.name, message, l.extras correlation extra⟩

/-- The keys that no field of a call may have. -/
def reserved : List String :=
  ["name", "msg", "args", "levelname", "levelno", "pathname", "filename", "module", "exc_info",
   "exc_text", "stack_info", "lineno", "funcName", "created", "msecs", "relativeCreated", "thread",
   "threadName", "processName", "process", "message", "asctime"]

/-- The text with the values in the places marked `%s`, of which there have to be as many. -/
def fill : List Char → List Value → Option (List Char)
  | '%' :: 's' :: rest, v :: vs => (fill rest vs).map (v.plain.toList ++ ·)
  | '%' :: '%' :: rest, vs => (fill rest vs).map ('%' :: ·)
  | '%' :: _, _ => none
  | c :: rest, vs => (fill rest vs).map (c :: ·)
  | [], [] => some []
  | [], _ :: _ => none

/-- The message of a call. Without arguments the text has no places. -/
def message (text : String) (args : List Value) : Except LogError String :=
  if args.isEmpty then .ok text
  else (fill text.toList args).elim (.error .arguments) (.ok ∘ String.ofList)

/-- The record of a call with a message text, its arguments and further fields. -/
def log (l : Logger) (correlation : Option String) (level : LogLevel) (text : String)
    (args : List Value) (extra : Fields) : Except LogError Record := do
  let fields := l.extras correlation extra
  if let some (key, _) := fields.find? fun (key, _) => reserved.contains key then
    throw (.reservedKey key)
  return ⟨level, l.name, ← message text args, fields⟩

end Logger

/-! ## Lines of a log -/

namespace Record

/-- The record as plain text. -/
def plain (r : Record) : String :=
  "[" ++ r.level.label ++ "] " ++ r.message

/-- The keys of the structured fields, in the order in which they are written. -/
def structuredKeys : List String :=
  ["correlation_id", "operation", "status", "duration_ms"]

/-- The structured fields that have a value. -/
def structured (r : Record) : Fields :=
  structuredKeys.filterMap fun key =>
    match r.extras.lookup key with
    | none => none
    | some .null => none
    | some v => some (key, v)

/-- The key of a field that is never written. -/
def taskKey : String := "taskName"

/-- Whether a further field is written: it has a value, and its key is not marked as private. -/
def isShown (key : String) (v : Value) : Bool :=
  !(v matches .null) && key != taskKey && !Logger.reserved.contains key &&
    !Text.startsWith "_" key.toList

/-- The fields of the JSON object of a record, where `correlation` is the id in force. -/
def fields (r : Record) (time : String) (correlation : Option String) : Fields :=
  let head : Fields :=
    [("ts", .text time), ("level", .text r.level.label), ("name", .text r.name),
     ("message", .text r.message)]
  [Logger.correlationField correlation, r.extras.filter fun (key, v) => isShown key v].foldl
    Fields.complete (head ++ r.structured)

/-- The record as a JSON object in one line. -/
def json (r : Record) (time : String) (correlation : Option String) : String :=
  Json.render .line (.map (r.fields time correlation))

end Record

/-!
## Correlation ids

All records of one run carry one id, which is written like a random UUID: thirty-two hexadecimal
digits in five groups, of which one tells the version and one the variant.
-/

namespace Correlation

/-- The sizes of the groups of digits. -/
def groupSizes : List Nat := [8, 4, 4, 4, 12]

/-- The digits in groups of the given sizes. -/
def groups : List Nat → List Char → List String
  | [], _ => []
  | size :: sizes, digits => String.ofList (digits.take size) :: groups sizes (digits.drop size)

/-- The id made of sixteen random bytes. -/
def ofBytes (bytes : List UInt8) : String :=
  let digits := bytes.flatMap fun b => Quoted.hex 2 b.toNat
  let variant := Quoted.hexDigit (8 + (bytes.getD 8 0).toNat % 4)
  Text.join "-" (groups groupSizes ((digits.set 12 '4').set 16 variant))

end Correlation

end PhpDoc
