import PhpDoc.Text.Case
import PhpDoc.Text.Digit
import PhpDoc.Token.Doc

/-!
# Cutting source text into lexemes

Source text is inline HTML up to an open tag and code from there to a close tag. Code is cut by
fixed rules, tried in order at every place: close tag, white space, doc comment, comment, attribute,
string literal, heredoc, variable, name, number, operator, single character. Each rule gives the
width of what it takes, so that the lexemes concatenate to the text.

A comment, string literal or heredoc that never ends stops the lexer. `lex` then keeps the lexemes
before the unterminated construct, which starts right after them.
-/

namespace PhpDoc

/-- The constructs that have to be terminated. -/
inductive Construct where
  | docComment
  | blockComment
  | stringLiteral
  | heredoc
  deriving DecidableEq, Repr, Inhabited

/-- What is said of a construct that never ends. -/
def Construct.unterminated : Construct → String
  | .docComment => "Unterminated doc comment"
  | .blockComment => "Unterminated block comment"
  | .stringLiteral => "Unterminated string literal"
  | .heredoc => "Unterminated heredoc"

namespace Lexer

open Text

/-- Whether the lexer stands in inline HTML or in code. -/
inductive Mode where
  | html
  | code
  deriving DecidableEq, Repr, Inhabited

/-- The lexemes taken at one place, their total width and the mode after them. -/
structure Step where
  lexemes : List Lexeme
  width : Nat
  mode : Mode

/-- The step that takes the first `width` characters as one lexeme and stays in code. -/
def take (kind : Kind) (width : Nat) (cs : List Char) : Step :=
  ⟨[⟨kind, String.ofList (cs.take width)⟩], width, .code⟩

/-- The width of the open tag that starts the text, if one does. The long form needs a word
boundary after it and may be written in either case. -/
def openTagWidth? : List Char → Option Nat
  | '<' :: '?' :: cs =>
      match cs with
      | p :: h :: q :: rest =>
          if p.toLower = 'p' && h.toLower = 'h' && q.toLower = 'p' && startsNoWord rest then some 5
          else if p = '=' then some 3 else some 2
      | '=' :: _ => some 3
      | _ => some 2
  | _ => none

/-- The offset and the width of the first open tag of the text. -/
def openTag? : List Char → Option (Nat × Nat)
  | [] => none
  | c :: cs =>
      match openTagWidth? (c :: cs) with
      | some width => some (0, width)
      | none => (openTag? cs).map fun (offset, width) => (offset + 1, width)

/-- The white space of code. -/
def isCodeSpace (c : Char) : Bool :=
  c = ' ' || c = '\t' || c = '\r' || c = '\n' || c = '\x0c' || c = '\x0b'

/-- The width of a line comment: it runs to the next line break or close tag. -/
def lineCommentWidth : List Char → Nat
  | [] => 0
  | '?' :: '>' :: _ => 0
  | c :: cs => if isLineBreak c then 0 else lineCommentWidth cs + 1

/-- The number of characters up to and including the closing `quote` of a string literal. A
backslash takes the next character with it. -/
def closingQuote? (quote : Char) : List Char → Option Nat
  | [] => none
  | ['\\'] => none
  | '\\' :: _ :: cs => (closingQuote? quote cs).map (· + 2)
  | c :: cs => if c = quote then some 1 else (closingQuote? quote cs).map (· + 1)

/-- The ASCII letters and the underscore, which may start a label. -/
def isLabelStart (c : Char) : Bool :=
  c.isAlpha || c = '_'

/-- The characters from the end of ASCII to the end of the basic plane. All of them may stand in
names. -/
def isWide (c : Char) : Bool :=
  0x80 ≤ c.toNat && c.toNat ≤ 0xffff

/-- Whether `c` may start a name. -/
def isNameStart (c : Char) : Bool :=
  isLabelStart c || isWide c

/-- Whether `c` may stand in a variable name. -/
def isVariablePart (c : Char) : Bool :=
  isWord c || isWide c

/-- Whether `c` may stand in a name, which a backslash may divide into parts. -/
def isNamePart (c : Char) : Bool :=
  isVariablePart c || c = '\\'

/-- The width of the line break that starts the text, if one does. -/
def breakWidth? : List Char → Option Nat
  | '\r' :: '\n' :: _ => some 2
  | c :: _ => if isLineBreak c then some 1 else none
  | [] => none

/-- The label of a heredoc whose text goes on with `cs` after the opening quote `quote`, and the
number of characters from there to the end of the line. -/
def heredocLabel? (quote : List Char) (cs : List Char) : Option (List Char × Nat) :=
  match cs with
  | [] => none
  | c :: _ =>
      if isLabelStart c then
        let label := c :: (cs.drop 1).takeWhile isWord
        let rest := cs.drop label.length
        if quote.isPrefixOf rest then
          (breakWidth? (rest.drop quote.length)).map fun width =>
            (label, label.length + quote.length + width)
        else none
      else none

/-- The label of the heredoc that a text opens after its `<<<`, and the width of the opener after
the `<<<`. The label may be quoted, and the line must end after it. -/
def heredocOpener? (cs : List Char) : Option (List Char × Nat) :=
  let indent := cs.takeWhile isBlank
  let rest := cs.drop indent.length
  match rest with
  | c :: after =>
      if c = '\'' || c = '"' then
        (heredocLabel? [c] after).map fun (label, width) => (label, indent.length + 1 + width)
      else (heredocLabel? [] rest).map fun (label, width) => (label, indent.length + width)
  | [] => none

/-- The width of the closing label that starts the text after an optional indentation, if one
does. -/
def closingLabel? (label cs : List Char) : Option Nat :=
  let indent := cs.takeWhile isBlank
  let rest := cs.drop indent.length
  if label.isPrefixOf rest && startsNoWord (rest.drop label.length) then
    some (indent.length + label.length)
  else none

/-- The number of characters up to the end of the first closing label that starts a line. Lines
start after line feeds only; `lineStart` says whether one starts here. -/
def heredocEnd? (label : List Char) (lineStart : Bool) : List Char → Option Nat
  | [] => if lineStart then closingLabel? label [] else none
  | c :: cs =>
      match if lineStart then closingLabel? label (c :: cs) else none with
      | some width => some width
      | none => (heredocEnd? label (c = '\n') cs).map (· + 1)

/-- The step at a `<<<` that goes on with `rest`. Without a label it is an operator. -/
def heredoc (cs rest : List Char) : Except Construct Step :=
  match heredocOpener? rest with
  | none => .ok (take .other 3 cs)
  | some (label, width) =>
      let lineStart := (rest.take width).getLast? == some '\n'
      match heredocEnd? label lineStart (rest.drop width) with
      | some stop => .ok (take .literal (3 + width + stop) cs)
      | none => .error .heredoc

/-- The width of a variable: a dollar sign and a name. -/
def variableWidth? : List Char → Option Nat
  | '$' :: c :: cs =>
      if isNameStart c then some (2 + (cs.takeWhile isVariablePart).length) else none
  | _ => none

/-- The width of a name, which may start with a backslash. -/
def nameWidth? : List Char → Option Nat
  | '\\' :: c :: cs =>
      if isNameStart c then some (2 + (cs.takeWhile isNamePart).length) else none
  | c :: cs => if isNameStart c then some (1 + (cs.takeWhile isNamePart).length) else none
  | [] => none

/-- Decimal digits and the underscores between them. -/
def isDecimalPart (c : Char) : Bool :=
  isDecimal c || c = '_'

/-- The hexadecimal digits and the underscore. -/
def isHexPart (c : Char) : Bool :=
  c.isDigit || ('a' ≤ c && c ≤ 'f') || ('A' ≤ c && c ≤ 'F') || c = '_'

/-- The binary digits and the underscore. -/
def isBinaryPart (c : Char) : Bool :=
  c = '0' || c = '1' || c = '_'

/-- The width of a number in another base: a zero, a base letter and digits. -/
def basedWidth? : List Char → Option Nat
  | '0' :: base :: cs =>
      let part := if base = 'x' || base = 'X' then isHexPart
        else if base = 'b' || base = 'B' then isBinaryPart else fun _ => false
      match cs.takeWhile part with
      | [] => none
      | digits => some (2 + digits.length)
  | _ => none

/-- The width of an optional fraction: a point, a digit and more digits. -/
def fractionWidth : List Char → Nat
  | '.' :: d :: cs => if isDecimal d then 2 + (cs.takeWhile isDecimalPart).length else 0
  | _ => 0

/-- The width of an optional exponent: a letter, an optional sign and digits. -/
def exponentWidth : List Char → Nat
  | e :: cs =>
      if e = 'e' || e = 'E' then
        let sign := match cs with
          | '+' :: _ => 1
          | '-' :: _ => 1
          | _ => 0
        match (cs.drop sign).takeWhile isDecimal with
        | [] => 0
        | digits => 1 + sign + digits.length
      else 0
  | [] => 0

/-- The width of a decimal number that starts with a digit. -/
def decimalWidth? : List Char → Option Nat
  | d :: cs =>
      if isDecimal d then
        let whole := 1 + (cs.takeWhile isDecimalPart).length
        let fraction := fractionWidth ((d :: cs).drop whole)
        some (whole + fraction + exponentWidth ((d :: cs).drop (whole + fraction)))
      else none
  | [] => none

/-- The width of a number that starts with its decimal point. -/
def pointWidth? : List Char → Option Nat
  | '.' :: cs =>
      match cs.takeWhile isDecimal with
      | [] => none
      | digits => some (1 + digits.length)
  | _ => none

/-- The width of the number that starts the text, if one does. -/
def numberWidth? (cs : List Char) : Option Nat :=
  (basedWidth? cs).or ((decimalWidth? cs).or (pointWidth? cs))

/-- The operators of more than one character, the longer ones first. -/
def operators : List String :=
  ["?->", "??=", "...", "<=>", "===", "!==", "**=", "<<=", ">>=", "=>", "->", "::", "==", "!=",
   "<>", "<=", ">=", "&&", "||", "??", "++", "--", "+=", "-=", "*=", "/=", ".=", "%=", "&=", "|=",
   "^=", "<<", ">>", "**"]

/-- The kind of a punctuation character. -/
def punctuation (c : Char) : Kind :=
  match c with
  | '(' => .openParenthesis
  | ')' => .closeParenthesis
  | '\x7b' => .openCurly
  | '\x7d' => .closeCurly
  | '[' => .openSquare
  | ']' => .closeSquare
  | ';' => .semicolon
  | ',' => .comma
  | '&' => .ampersand
  | '?' => .questionMark
  | '=' => .equal
  | _ => .other

/-- The step at an operator or a single character. -/
def operator (c : Char) (cs : List Char) : Step :=
  match operators.find? (startsWith · cs) with
  | some op => take (if op = "..." then .ellipsis else .other) op.length cs
  | none => take (punctuation c) 1 cs

/-- The words with a kind of their own, in lower case. -/
def keyword (word : String) : Kind :=
  match word with
  | "return" => .returnWord
  | "yield" => .yieldWord
  | "class" => .classWord
  | "interface" => .interfaceWord
  | "trait" => .traitWord
  | "var" => .varWord
  | "public" | "protected" | "private" | "static" | "abstract" | "final" | "readonly" => .modifier
  | _ => .name

/-- White space that may stand between a function keyword and its parameter list. -/
def isPlainSpace (c : Char) : Bool :=
  c = ' ' || c = '\t' || c = '\r' || c = '\n'

/-- Whether the text after a function keyword goes straight on to a parameter list. -/
def opensParameters (after : List Char) : Bool :=
  match after.dropWhile isPlainSpace with
  | '(' :: _ => true
  | '&' :: rest => startsWith "(" (rest.dropWhile isPlainSpace)
  | _ => false

/-- The kind of the name `word` between the significant lexeme `previous` and the text `after`. A
word after a member operator is always a name, and so is the function word of an import. -/
def classify (previous : Option Lexeme) (word : String) (after : List Char) : Kind :=
  let lowered := lower word
  let text := previous.elim "" (·.text)
  if text = "->" || text = "?->" || text = "::" then .name
  else if lower text = "use" && lowered = "function" then .name
  else if lowered = "function" || lowered = "fn" then
    if opensParameters after then .closure
    else if lowered = "function" then .function else .name
  else keyword lowered

/-- The step at the name, number, operator or single character that starts the text `c :: rest`. -/
def word (previous : Option Lexeme) (c : Char) (rest : List Char) : Step :=
  let cs := c :: rest
  match variableWidth? cs, nameWidth? cs, numberWidth? cs with
  | some width, _, _ => take .variable width cs
  | none, some width, _ =>
      take (classify previous (String.ofList (cs.take width)) (cs.drop width)) width cs
  | none, none, some width => take .number width cs
  | none, none, none => operator c cs

/-- The step at a doc comment whose text goes on with `rest` after the open marker. -/
def docStep (rest : List Char) : Except Construct Step :=
  match offsetOf? ['*', '/'] rest with
  | some offset => .ok ⟨docComment (rest.take offset), offset + 5, .code⟩
  | none => .error .docComment

/-- The step at a block comment whose text goes on with `rest` after its `/*`. -/
def blockStep (cs rest : List Char) : Except Construct Step :=
  match offsetOf? ['*', '/'] rest with
  | some offset => .ok (take .comment (offset + 4) cs)
  | none => .error .blockComment

/-- The step at the first character of a stretch of code. -/
def step (previous : Option Lexeme) (c : Char) (rest : List Char) : Except Construct Step :=
  let cs := c :: rest
  if startsWith "?>" cs then .ok ⟨[⟨.closeTag, "?>"⟩], 2, .html⟩
  else if isCodeSpace c then
    let space := cs.takeWhile isCodeSpace
    .ok ⟨(cutLines isLineBreak space).map fun line => ⟨.whitespace, String.ofList line⟩,
      space.length, .code⟩
  else if startsWith "/**" cs && !startsWith "/**/" cs then docStep (rest.drop 2)
  else if startsWith "/*" cs then blockStep cs (rest.drop 1)
  else if startsWith "//" cs || (c = '#' && !startsWith "#[" cs) then
    .ok (take .comment (lineCommentWidth cs) cs)
  else if c = '#' then .ok (take .attributeMark 1 cs)
  else if c = '\'' || c = '"' || c = '\x60' then
    match closingQuote? c rest with
    | some width => .ok (take .literal (width + 1) cs)
    | none => .error .stringLiteral
  else if startsWith "<<<" cs then heredoc cs (rest.drop 2)
  else .ok (word previous c rest)

/-- The last lexeme that is neither white space nor a comment, or `previous` without one. -/
def lastSignificant (previous : Option Lexeme) (lexemes : List Lexeme) : Option Lexeme :=
  (lexemes.reverse.find? (!·.kind.isTrivia)).or previous

/-- The lexemes of a text and, if the lexer could not finish, the construct at which it stopped. -/
structure Lexing where
  lexemes : List Lexeme
  stopped : Option Construct
  deriving DecidableEq, Repr, Inhabited

/-- The lexing with more lexemes in front. -/
def Lexing.prepend (lexemes : List Lexeme) (l : Lexing) : Lexing :=
  ⟨lexemes ++ l.lexemes, l.stopped⟩

/-- The lexing of a text in the given mode after the significant lexeme `previous`. -/
def lexFrom (mode : Mode) (previous : Option Lexeme) : List Char → Lexing
  | [] => ⟨[], none⟩
  | c :: rest =>
      match mode with
      | .html =>
          match openTag? (c :: rest) with
          | none => ⟨lexeme? .inlineHtml (c :: rest), none⟩
          | some (offset, width) =>
              let tag := ⟨.openTag, String.ofList (((c :: rest).drop offset).take width)⟩
              (lexFrom .code (some tag) (rest.drop (offset + width - 1))).prepend
                (lexeme? .inlineHtml ((c :: rest).take offset) ++ [tag])
      | .code =>
          match step previous c rest with
          | .error construct => ⟨[], some construct⟩
          | .ok s =>
              let last := lastSignificant previous s.lexemes
              (lexFrom s.mode last (rest.drop (s.width - 1))).prepend s.lexemes
  termination_by cs => cs.length
  decreasing_by all_goals (simp only [List.length_drop, List.length_cons]; omega)

/-- The lexing of a whole source text, which starts as inline HTML. -/
def lex (text : String) : Lexing :=
  lexFrom .html none text.toList

end Lexer

end PhpDoc
