/-!
# Kinds of tokens

A source text is a sequence of tokens of these kinds. Doc comments are broken into their markers,
stars, tags, strings and blanks; of the code around them only what declarations, exits and brackets
need is told apart.
-/

namespace PhpDoc

/-- What a token is. -/
inductive Kind where
  | docOpen
  | docClose
  | docStar
  | docBlank
  | docTag
  | docString
  | openTag
  | closeTag
  | inlineHtml
  | whitespace
  | comment
  | function
  | closure
  | returnWord
  | yieldWord
  | classWord
  | interfaceWord
  | traitWord
  | modifier
  | varWord
  | name
  | variable
  | literal
  | number
  | openParenthesis
  | closeParenthesis
  | openCurly
  | closeCurly
  | openSquare
  | closeSquare
  | semicolon
  | comma
  | ellipsis
  | ampersand
  | questionMark
  | equal
  | attributeMark
  | other
  deriving DecidableEq, Repr, Inhabited

namespace Kind

/-- Every kind, in declaration order. -/
def all : List Kind :=
  [docOpen, docClose, docStar, docBlank, docTag, docString, openTag, closeTag, inlineHtml,
   whitespace, comment, function, closure, returnWord, yieldWord, classWord, interfaceWord,
   traitWord, modifier, varWord, name, .variable, literal, number, openParenthesis,
   closeParenthesis, openCurly, closeCurly, openSquare, closeSquare, semicolon, comma, ellipsis,
   ampersand, questionMark, equal, attributeMark, other]

/-- The written name of a kind. -/
def label : Kind → String
  | docOpen => "doc_comment_open"
  | docClose => "doc_comment_close"
  | docStar => "doc_comment_star"
  | docBlank => "doc_comment_whitespace"
  | docTag => "doc_comment_tag"
  | docString => "doc_comment_string"
  | openTag => "open_tag"
  | closeTag => "close_tag"
  | inlineHtml => "inline_html"
  | whitespace => "whitespace"
  | comment => "comment"
  | function => "function"
  | closure => "closure"
  | returnWord => "return"
  | yieldWord => "yield"
  | classWord => "class"
  | interfaceWord => "interface"
  | traitWord => "trait"
  | modifier => "modifier"
  | varWord => "var"
  | name => "string"
  | .variable => "variable"
  | literal => "constant_string"
  | number => "number"
  | openParenthesis => "open_parenthesis"
  | closeParenthesis => "close_parenthesis"
  | openCurly => "open_curly"
  | closeCurly => "close_curly"
  | openSquare => "open_square"
  | closeSquare => "close_square"
  | semicolon => "semicolon"
  | comma => "comma"
  | ellipsis => "ellipsis"
  | ampersand => "bitwise_and"
  | questionMark => "nullable"
  | equal => "equal"
  | attributeMark => "attribute"
  | other => "other"

/-- The kind with the written name `s`. -/
def ofLabel? (s : String) : Option Kind :=
  all.find? (·.label == s)

/-- Stars and blanks: what a doc comment holds around its content. -/
def isFiller (k : Kind) : Bool :=
  k == docBlank || k == docStar

/-- The tags and strings of a doc comment. -/
def isDocContent (k : Kind) : Bool :=
  k == docTag || k == docString

/-- Named functions and closures. -/
def isFunctionLike (k : Kind) : Bool :=
  k == function || k == closure

/-- Classes, interfaces and traits. -/
def isClassLike (k : Kind) : Bool :=
  k == classWord || k == interfaceWord || k == traitWord

/-- White space and ordinary comments of the code. -/
def isTrivia (k : Kind) : Bool :=
  k == whitespace || k == comment

end Kind

/-- The three shapes of bracket. -/
inductive Bracket where
  | parenthesis
  | curly
  | square
  deriving DecidableEq, Repr, Inhabited

/-- The bracket that a token of this kind opens. -/
def Kind.opens? : Kind → Option Bracket
  | .openParenthesis => some .parenthesis
  | .openCurly => some .curly
  | .openSquare => some .square
  | _ => none

/-- The bracket that a token of this kind closes. -/
def Kind.closes? : Kind → Option Bracket
  | .closeParenthesis => some .parenthesis
  | .closeCurly => some .curly
  | .closeSquare => some .square
  | _ => none

end PhpDoc
