import PhpDoc.Data.Value
import PhpDoc.Text.Cut
import PhpDoc.Text.Digit

/-!
# Words of a command line

Each argument of a command line is an operand or an option. An option starts with a dash. Its name
may be cut short as long as it is clear, and a value may be attached to it with an equals sign. A
negative number and a text with a space are operands even with a dash in front. Behind a pair of
dashes that stands alone everything is an operand.
-/

namespace PhpDoc

/-- An option: its spellings, and whether it has a value. -/
structure OptionSpec where
  names : List String
  hasValue : Bool
  deriving DecidableEq, Repr, Inhabited

/-- The written form of an option in messages. -/
def OptionSpec.label (o : OptionSpec) : String :=
  Text.join "/" o.names

/-- What an argument is. A value may be attached to an option, by an equals sign or right behind a
single letter. -/
inductive Word where
  | operand (text : String)
  | separator
  | option (spec : OptionSpec) (attached : Option String)
  | cluster (spec : OptionSpec) (tail : String)
  | unknown (text : String)
  deriving DecidableEq, Repr, Inhabited

/-- Why a command line is refused. -/
inductive UsageError where
  | ambiguous (text : String) (candidates : List String)
  | missingValue (spec : OptionSpec)
  | unexpectedValue (spec : OptionSpec) (value : String)
  | invalidChoice (subject value : String) (choices : List String)
  | unrecognized (texts : List String)
  deriving DecidableEq, Repr, Inhabited

/-- The message about a refused command line. -/
def UsageError.message : UsageError → String
  | ambiguous text candidates =>
      "ambiguous option: " ++ text ++ " could match " ++ Text.join ", " candidates
  | missingValue spec => "argument " ++ spec.label ++ ": expected one argument"
  | unexpectedValue spec value =>
      "argument " ++ spec.label ++ ": ignored explicit argument " ++ Quoted.text value
  | invalidChoice subject value choices =>
      "argument " ++ subject ++ ": invalid choice: " ++ Quoted.text value ++ " (choose from " ++
        Text.join ", " (choices.map Quoted.text) ++ ")"
  | unrecognized texts => "unrecognized arguments: " ++ Text.join " " texts

namespace Word

/-- Whether the text is a number behind a dash. -/
def isNegative (text : String) : Bool :=
  match text.toList with
  | '-' :: cs =>
      let cs := if cs.getLast? = some '\n' then cs.dropLast else cs
      match Text.splitOn '.' cs with
      | [whole] => !whole.isEmpty && whole.all Text.isDecimal
      | [whole, places] =>
          whole.all Text.isDecimal && !places.isEmpty && places.all Text.isDecimal
      | _ => false
  | _ => false

/-- The name of an option and what is attached to it with an equals sign. -/
def splitValue (text : String) : String × Option String :=
  let cs := text.toList
  (Text.before '=' text,
    if cs.contains '=' then some (String.ofList ((cs.dropWhile (· != '=')).drop 1)) else none)

/-- The option with a spelling. -/
def spelled? (options : List OptionSpec) (name : String) : Option OptionSpec :=
  options.find? (·.names.contains name)

/-- The spellings of options that begin with a text, each with its option. -/
def begun (options : List OptionSpec) (text : String) : List (String × OptionSpec) :=
  (options.flatMap fun o => o.names.map (·, o)).filter fun (name, _) =>
    Text.startsWith text name.toList

/-- What an argument is that starts with a dash and is no spelling of an option. -/
def ofUnspelled (options : List OptionSpec) (text : String) : Except UsageError Word :=
  let (name, attached) := splitValue text
  let other := if isNegative text || Text.contains " " text then .operand text else .unknown text
  if Text.startsWith "--" text.toList then
    match begun options name with
    | [] => .ok other
    | [(_, o)] => .ok (.option o attached)
    | many => .error (.ambiguous text (many.map (·.1)))
  else
    match spelled? options (String.ofList (text.toList.take 2)) with
    | some o => .ok (.cluster o (Text.dropChars 2 text))
    | none => .ok other

/-- What an argument is, before any pair of dashes. -/
def ofText (options : List OptionSpec) (text : String) : Except UsageError Word :=
  if !Text.startsWith "-" text.toList then .ok (.operand text)
  else match spelled? options text with
    | some o => .ok (.option o none)
    | none =>
        if text.length = 1 then .ok (.operand text)
        else
          let (name, attached) := splitValue text
          match attached.bind fun _ => spelled? options name with
          | some o => .ok (.option o attached)
          | none => ofUnspelled options text

/-- What the arguments of a command line are, each with its text. -/
def ofTexts (options : List OptionSpec) : List String → Except UsageError (List (Word × String))
  | [] => .ok []
  | text :: texts =>
      if text = "--" then .ok ((.separator, text) :: texts.map fun t => (.operand t, t))
      else do
        let word ← ofText options text
        return (word, text) :: (← ofTexts options texts)

end Word

end PhpDoc
