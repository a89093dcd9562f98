import PhpDoc.Proofs.Comment.Carry
import PhpDoc.Proofs.Text.Join
import PhpDoc.Proofs.Token.Code
import PhpDoc.TypeName

/-!
# A documented function

The source text of a function whose comment documents every parameter in aligned columns, and how it
is read: the lines of the comment (`docBody_body`) and the pieces of the whole text
(`reads_pieces`).
-/

namespace PhpDoc

open Text Lexer

/-- What is documented of a parameter: its type, its name without the dollar sign, and a
description. -/
structure ParamDoc where
  type : String
  name : String
  description : String

namespace ParamDoc

/-- The variable of the parameter. -/
def var (d : ParamDoc) : String :=
  "$" ++ d.name

/-- The parameter as it is declared. -/
def declaration (d : ParamDoc) : String :=
  d.type ++ " " ++ d.var

/-- The value of the parameter tag in columns for types and variables of the given lengths. -/
def value (typeWidth varWidth : Nat) (d : ParamDoc) : String :=
  d.type ++ spaces (typeWidth - d.type.length + 1) ++ d.var ++
    spaces (varWidth - d.var.length + 1) ++ d.description

/-- The type is a word of letters that means something only as a type, and is spelled and declared
as it stands. The name is an identifier. The description is a sentence on one line. -/
structure Proper (d : ParamDoc) : Prop where
  type_ne_empty : d.type ≠ ""
  letters : ∀ c ∈ d.type.toList, c.isAlpha = true
  no_keyword : keyword (lower d.type) = .name
  no_function : lower d.type ≠ "function" ∧ lower d.type ≠ "fn"
  normalize : TypeName.normalize d.type = d.type
  hint : TypeName.hint true d.type = d.type
  name : IsLabel d.name.toList
  unbroken : Unbroken d.description.toList
  unclosed : Unclosed d.description.toList
  capital : ∀ c, d.description.toList.head? = some c → isSpace c = false ∧ isLower c = false
  stop : endsWith "." d.description = true

/-- A proper type is a single label. -/
theorem Proper.isLabel_type {d : ParamDoc} (h : d.Proper) : IsLabel d.type.toList := by
  obtain ⟨c, cs, hcs⟩ := List.exists_cons_of_ne_nil (l := d.type.toList)
    (by simpa using h.type_ne_empty)
  have hletters := h.letters
  rw [hcs] at hletters ⊢
  have hstart : ∀ x ∈ c :: cs, isLabelStart x = true := fun x hx => by
    rw [isLabelStart, hletters x hx, Bool.true_or]
  exact ⟨c, cs, rfl, hstart c List.mem_cons_self,
    fun x hx => isLabelPart_of_isLabelStart (hstart x (List.mem_cons_of_mem c hx))⟩

/-- The characters of a proper type are those of labels. -/
theorem Proper.isLabelPart_type {d : ParamDoc} (h : d.Proper) :
    ∀ c ∈ d.type.toList, isLabelPart c = true := fun c hc => by
  rw [isLabelPart, isLabelStart, h.letters c hc, Bool.true_or, Bool.true_or]

/-- The characters of a proper name are those of labels. -/
theorem Proper.isLabelPart_name {d : ParamDoc} (h : d.Proper) :
    ∀ c ∈ d.name.toList, isLabelPart c = true := by
  obtain ⟨c, part, heq, hc, hpart⟩ := h.name
  rw [heq]
  exact List.forall_mem_cons.2 ⟨isLabelPart_of_isLabelStart hc, hpart⟩

/-- What stands in front of the description in the value of the tag. -/
theorem Proper.not_mem_lead {d : ParamDoc} (h : d.Proper) (n m : Nat) {c : Char}
    (hc : isLabelPart c = false) (hspace : c ≠ ' ') (hdollar : c ≠ '$') :
    c ∉ (d.type ++ spaces n ++ d.var ++ spaces m).toList := by
  have hpart : ∀ cs : List Char, (∀ x ∈ cs, isLabelPart x = true) → c ∉ cs := by
    intro cs hcs hmem
    rw [hcs c hmem] at hc
    cases hc
  simp [spaces, var, hspace, hdollar, hpart _ h.isLabelPart_type, hpart _ h.isLabelPart_name]

/-- A proper description ends with a full stop. -/
theorem Proper.exists_description {d : ParamDoc} (h : d.Proper) :
    ∃ front, d.description.toList = front ++ ['.'] := by
  obtain ⟨front, hfront⟩ := List.isSuffixOf_iff_suffix.1 h.stop
  exact ⟨front, hfront.symm⟩

/-- The value of the tag is a string. -/
theorem Proper.isString_value {d : ParamDoc} (h : d.Proper) (n m : Nat) :
    IsString (d.value n m).toList := by
  obtain ⟨front, hfront⟩ := h.exists_description
  obtain ⟨c, part, htype, hc, -⟩ := h.isLabel_type
  refine ⟨by simp [value, htype], ?_, ?_, ?_⟩
  · rw [value, String.toList_append]
    refine unbroken_append.2 ⟨fun x hx => Bool.eq_false_iff.2 fun hbreak => ?_, h.unbroken⟩
    simp only [isLineBreak, Bool.or_eq_true, decide_eq_true_eq] at hbreak
    rcases hbreak with rfl | rfl <;>
      exact h.not_mem_lead _ _ (by decide) (by decide) (by decide) hx
  · simp only [value, String.toList_append, htype, List.cons_append, List.head?_cons]
    rintro _ ⟨⟩
    refine Bool.eq_false_iff.2 fun hblank => ?_
    simp only [isBlank, Bool.or_eq_true, decide_eq_true_eq] at hblank
    rcases hblank with rfl | rfl <;> cases hc
  · simp only [value, String.toList_append, hfront]
    rw [← List.append_assoc, List.getLast?_concat]
    rintro _ ⟨⟩
    rfl

/-- No close marker stands in the value of the tag. -/
theorem Proper.unclosed_value {d : ParamDoc} (h : d.Proper) (n m : Nat) :
    Unclosed (d.value n m).toList := by
  rw [value, String.toList_append]
  refine unclosed_append_right (h.not_mem_lead _ _ (by decide) (by decide) (by decide)) ?_
    h.unclosed
  intro hlast
  exact h.not_mem_lead _ _ (by decide) (by decide) (by decide) (List.mem_of_getLast? hlast)

end ParamDoc

namespace Documented

/-- The length of the longest type. -/
def longestType (ds : List ParamDoc) : Nat :=
  (ds.map (·.type.length)).foldl max 0

/-- The length of the longest variable. -/
def longestVar (ds : List ParamDoc) : Nat :=
  (ds.map (·.var.length)).foldl max 0

/-- The values of the parameter tags, in columns. -/
def values (ds : List ParamDoc) : List String :=
  ds.map (ParamDoc.value (longestType ds) (longestVar ds))

/-- The source text of a function that returns nothing, with a comment that documents its
parameters. -/
def text (ds : List ParamDoc) : String :=
  "<?php\n/**\n * Does things.\n *\n" ++
    String.join ((values ds).map fun value => " * @param " ++ value ++ "\n") ++
    " *\n * @return void\n */\nfunction f(" ++ join ", " (ds.map ParamDoc.declaration) ++
    ")\n\x7b\n\x7d\n"

/-! ## The lines of the comment -/

/-- A line with a star and content. -/
def starLine (content : Content) : DocLine :=
  ⟨[' '], some [' '], some (content, [])⟩

/-- The line with nothing but a star. -/
def blankLine : DocLine :=
  ⟨[' '], some [], none⟩

/-- The content of the line of a parameter. -/
def paramContent (value : String) : Content :=
  .valued "@param".toList [' '] value.toList

/-- The lines behind those of the parameters. -/
def lastLines : DocLines :=
  .next blankLine ['\n'] (.next (starLine (.valued "@return".toList [' '] "void".toList)) ['\n']
    (.last ⟨[' '], none, none⟩))

/-- The lines of the parameters and those behind them. -/
def paramLines : List String → DocLines
  | [] => lastLines
  | v :: vs => .next (starLine (paramContent v)) ['\n'] (paramLines vs)

/-- The lines of the comment. -/
def lines (values : List String) : DocLines :=
  .next .empty ['\n'] (.next (starLine (.plain "Does things.".toList)) ['\n']
    (.next blankLine ['\n'] (paramLines values)))

/-- The lexemes of the line of a parameter. -/
def row (value : String) : List Lexeme :=
  [⟨.docBlank, " "⟩, ⟨.docStar, "*"⟩, ⟨.docBlank, " "⟩, ⟨.docTag, "@param"⟩, ⟨.docBlank, " "⟩,
    ⟨.docString, value⟩, ⟨.docBlank, "\n"⟩]

/-- The lexemes in front of the lines of the parameters. -/
def front : List Lexeme :=
  [⟨.docBlank, "\n"⟩, ⟨.docBlank, " "⟩, ⟨.docStar, "*"⟩, ⟨.docBlank, " "⟩,
    ⟨.docString, "Does things."⟩, ⟨.docBlank, "\n"⟩, ⟨.docBlank, " "⟩, ⟨.docStar, "*"⟩,
    ⟨.docBlank, "\n"⟩]

/-- The lexemes behind the lines of the parameters. -/
def back : List Lexeme :=
  [⟨.docBlank, " "⟩, ⟨.docStar, "*"⟩, ⟨.docBlank, "\n"⟩, ⟨.docBlank, " "⟩, ⟨.docStar, "*"⟩,
    ⟨.docBlank, " "⟩, ⟨.docTag, "@return"⟩, ⟨.docBlank, " "⟩, ⟨.docString, "void"⟩,
    ⟨.docBlank, "\n"⟩, ⟨.docBlank, " "⟩]

/-- The lexemes between the markers of the comment. -/
def inside (values : List String) : List Lexeme :=
  front ++ (values.flatMap row ++ back)

/-- The text between the markers of the comment. -/
def body (values : List String) : List Char :=
  charsOf (inside values)

/-- The lexemes of the lines with parameters are those of each line and of the last lines. -/
theorem lexemes_paramLines (vs : List String) :
    (paramLines vs).lexemes = vs.flatMap row ++ lastLines.lexemes := by
  induction vs with
  | nil => rfl
  | cons v vs ih =>
      rw [paramLines, DocLines.lexemes, ih]
      simp [starLine, DocLine.lexemes, DocLine.starLexemes, DocLine.contentLexemes, paramContent,
        Content.lexemes, lexeme?, row]

/-- The lexemes of the lines of the body are those between the markers. -/
theorem lexemes_lines (vs : List String) : (lines vs).lexemes = inside vs := by
  simp only [lines, DocLines.lexemes, lexemes_paramLines]
  rfl

/-- A line with a star is proper when its content is. -/
theorem proper_starLine {content : Content} (h : content.Proper false) :
    (starLine content).Proper false := by
  refine ⟨by simp [starLine, IsBlanks, isBlank], by simp, ?_, ?_⟩
  · rintro _ ⟨⟩
    simp [IsBlanks, isBlank]
  · rintro _ _ ⟨⟩
    exact ⟨h, by simp [IsBlanks]⟩

/-- A line with nothing but a star is proper. -/
theorem proper_blankLine : blankLine.Proper false := by
  refine ⟨by simp [blankLine, IsBlanks, isBlank], by simp, ?_, by simp [blankLine]⟩
  rintro _ ⟨⟩
  simp [IsBlanks]

/-- The lines with the return tag are proper. -/
theorem proper_lastLines : lastLines.Proper false := by
  have hreturn : (Content.valued "@return".toList [' '] "void".toList).Proper false := by
    refine ⟨⟨"return".toList, rfl, by decide, by decide⟩, by simp [IsBlanks, isBlank], ?_, by simp⟩
    exact ⟨by decide, by decide, by rintro _ ⟨⟩; rfl, by rintro _ ⟨⟩; rfl⟩
  have hend : (DocLine.mk [' '] none none).Proper false :=
    ⟨by simp [IsBlanks, isBlank], fun _ => rfl, by simp, by simp⟩
  exact ⟨proper_blankLine, by decide, by simp [Separate], proper_starLine hreturn, by decide,
    by simp [Separate], hend⟩

variable {vs : List String}

/-- The lines with parameters are proper when their values are strings. -/
theorem proper_paramLines (h : ∀ v ∈ vs, IsString v.toList) : (paramLines vs).Proper false := by
  induction vs with
  | nil => exact proper_lastLines
  | cons v vs ih =>
      obtain ⟨hv, hvs⟩ := List.forall_mem_cons.1 h
      have hparam : (paramContent v).Proper false :=
        ⟨⟨"param".toList, rfl, by decide, by decide⟩, by simp [IsBlanks, isBlank], hv, by simp⟩
      exact ⟨proper_starLine hparam, by decide, by simp [Separate], ih hvs⟩

/-- The lexer reads the comment line by line. -/
theorem docBody_body (h : ∀ v ∈ vs, IsString v.toList) : docBody (body vs) = inside vs := by
  have hshort : (Content.plain "Does things.".toList).Proper false := by
    refine ⟨⟨by decide, by decide, by rintro _ ⟨⟩; rfl, by rintro _ ⟨⟩; rfl⟩, ?_, by simp⟩
    rintro name rest ⟨part, rfl, -, -⟩ heq
    cases heq
  have hproper : (lines vs).Proper true :=
    ⟨DocLine.proper_empty true, by decide, by simp [Separate], proper_starLine hshort, by decide,
      by simp [Separate], proper_blankLine, by decide, by simp [Separate], proper_paramLines h⟩
  rw [body, ← lexemes_lines, DocLines.docBody_charsOf hproper]

/-- The body of the comment is its description, the parameter lines and the return tag. -/
theorem body_eq (vs : List String) : body vs = "\n * Does things.\n *\n".toList ++
    charsOf (vs.flatMap row) ++ " *\n * @return void\n ".toList := by
  simp [body, inside, front, back]

/-- No close marker stands in the comment. -/
theorem closed_body (h : ∀ v ∈ vs, Unclosed v.toList) : Closed (body vs) := by
  have hrows : ∀ vs : List String, (∀ v ∈ vs, Unclosed v.toList) →
      Unclosed (charsOf (vs.flatMap row)) := by
    intro vs h
    induction vs with
    | nil => exact unclosed_nil
    | cons v vs ih =>
        obtain ⟨hv, hvs⟩ := List.forall_mem_cons.1 h
        have hfront : Unclosed (" * @param ".toList ++ v.toList) :=
          unclosed_append_right (by decide) (by decide) hv
        have hrow : Unclosed (" * @param ".toList ++ v.toList ++ ['\n']) :=
          unclosed_append_left hfront (by decide)
        have happend : Unclosed ((" * @param ".toList ++ v.toList ++ ['\n']) ++
            charsOf (vs.flatMap row)) := by
          refine unclosed_append.2 ⟨hrow, ih hvs, ?_⟩
          rintro ⟨hlast, -⟩
          rw [List.getLast?_concat] at hlast
          cases hlast
        simpa [row] using happend
  rw [body_eq]
  refine ⟨unclosed_append_left (unclosed_append_right (by decide) (by decide) (hrows vs h))
    (by decide), by simp⟩

/-! ## The pieces of the text -/

/-- The pieces of a declared parameter. -/
def paramPieces (d : ParamDoc) : List Piece :=
  [.code ⟨.name, d.type⟩, .space [' '], .code ⟨.variable, d.var⟩]

/-- The pieces of a parameter list. -/
def listPieces : List ParamDoc → List Piece
  | [] => []
  | [d] => paramPieces d
  | d :: ds => paramPieces d ++ .code ⟨.comma, ","⟩ :: .space [' '] :: listPieces ds

/-- The pieces behind the parameter list. -/
def endPieces : List Piece :=
  [.code ⟨.closeParenthesis, ")"⟩, .space ['\n'], .code ⟨.openCurly, "\x7b"⟩, .space ['\n'],
    .code ⟨.closeCurly, "\x7d"⟩, .space ['\n']]

/-- The pieces of the declaration. -/
def declarationPieces (ds : List ParamDoc) : List Piece :=
  [.space ['\n'], .code ⟨.function, "function"⟩, .space [' '], .code ⟨.name, "f"⟩,
    .code ⟨.openParenthesis, "("⟩] ++ listPieces ds ++ endPieces

/-- The pieces of the source text. -/
def pieces (ds : List ParamDoc) : List Piece :=
  .code ⟨.openTag, "<?php"⟩ :: .space ['\n'] :: .doc (body (values ds)) :: declarationPieces ds

variable {ds : List ParamDoc} {previous : Option Lexeme} {ps : List Piece}

/-- What follows the parameters is read piece by piece to its end. -/
theorem reads_endPieces : Reads .code previous endPieces := by
  have hline : (Piece.space ['\n']).Valid := ⟨by simp, by decide⟩
  have hcurly : Reads .code (some ⟨.openCurly, "\x7b"⟩)
      [.space ['\n'], .code ⟨.closeCurly, "\x7d"⟩, .space ['\n']] :=
    .spaceCons hline rfl (reads_delimiter (c := '\x7d') rfl (.spaceCons hline rfl .nil))
  exact reads_delimiter (c := ')') rfl
    (.spaceCons hline rfl (reads_delimiter (c := '\x7b') rfl hcurly))

/-- What stands in front of a parameter. -/
def Leads (l : Lexeme) : Prop :=
  l = ⟨.openParenthesis, "("⟩ ∨ l = ⟨.comma, ","⟩

/-- In front of a parameter its type is read as a name. -/
theorem classify_type {d : ParamDoc} (h : d.Proper) {l : Lexeme} (hl : Leads l)
    (after : List Char) : classify (some l) d.type after = .name := by
  obtain ⟨hfunction, hfn⟩ := h.no_function
  have hone : lower "(" ≠ "use" := by decide
  have htwo : lower "," ≠ "use" := by decide
  rcases hl with rfl | rfl <;> simp [classify, hone, htwo, hfunction, hfn, h.no_keyword]

/-- A parameter is read as its type, a blank and its variable. -/
theorem reads_paramPieces {d : ParamDoc} (h : d.Proper) {l : Lexeme} (hl : Leads l)
    (hstop : ∀ x, (textOf ps).head? = some x → isVariablePart x = false)
    (hrest : Reads .code (some ⟨.variable, d.var⟩) ps) :
    Reads .code (some l) (paramPieces d ++ ps) := by
  have hspace : (Piece.space [' ']).Valid := ⟨by simp, by decide⟩
  have hdollar : ∀ p : Char → Bool, p '$' = false →
      (textOf (.code ⟨.variable, d.var⟩ :: ps)).takeWhile p = [] := by
    intro p hp
    simp [Piece.chars, ParamDoc.var, hp]
  refine reads_word h.isLabel_type ?_ (classify_type h hl _) rfl
    (.spaceCons hspace (hdollar _ rfl) (reads_variable h.name hstop hrest))
  simp [Piece.chars, isNamePart, isVariablePart]
  decide

/-- A parameter list starts with the type of its first parameter. -/
theorem textOf_listPieces (d : ParamDoc) (ds : List ParamDoc) (ps : List Piece) :
    ∃ cs, textOf (listPieces (d :: ds) ++ ps) = d.type.toList ++ cs := by
  cases ds with
  | nil => exact ⟨_, rfl⟩
  | cons e ds => exact ⟨_, rfl⟩

/-- A parameter list and what follows it are read piece by piece. -/
theorem reads_listPieces (hne : ds ≠ []) (h : ∀ d ∈ ds, d.Proper) {l : Lexeme} (hl : Leads l) :
    Reads .code (some l) (listPieces ds ++ endPieces) := by
  induction ds generalizing l with
  | nil => exact absurd rfl hne
  | cons d ds ih =>
      obtain ⟨hd, hds⟩ := List.forall_mem_cons.1 h
      cases ds with
      | nil =>
          refine reads_paramPieces hd hl ?_ reads_endPieces
          simp [endPieces, Piece.chars]
          decide
      | cons e ds =>
          have hspace : (Piece.space [' ']).Valid := ⟨by simp, by decide⟩
          have hstart :
              (textOf (listPieces (e :: ds) ++ endPieces)).takeWhile isCodeSpace = [] := by
            obtain ⟨cs, hcs⟩ := textOf_listPieces e ds endPieces
            obtain ⟨c, part, htype, hc, -⟩ := (hds e List.mem_cons_self).isLabel_type
            simp [hcs, htype, isCodeSpace_of_isLabelStart hc]
          have hcomma : Reads .code (some ⟨.variable, d.var⟩)
              (.code ⟨.comma, ","⟩ :: .space [' '] :: (listPieces (e :: ds) ++ endPieces)) :=
            reads_delimiter (c := ',') rfl
              (.spaceCons hspace hstart (ih (by simp) hds (.inr rfl)))
          refine reads_paramPieces hd hl ?_ hcomma
          simp [Piece.chars]
          decide

/-- The text of a parameter list is that of its parameters with commas between them. -/
theorem textOf_listPieces_eq (ds : List ParamDoc) :
    textOf (listPieces ds) = (join ", " (ds.map ParamDoc.declaration)).toList := by
  fun_induction listPieces ds with
  | case1 => rfl
  | case2 d => simp [paramPieces, Piece.chars, ParamDoc.declaration]
  | case3 d ds hne ih =>
      obtain ⟨e, ds, rfl⟩ := List.exists_cons_of_ne_nil hne
      rw [List.map_cons, List.map_cons, toList_join_cons_cons, ← List.map_cons, ← ih]
      simp [paramPieces, Piece.chars, ParamDoc.declaration]

/-- The text of the parameter lines is that of their values behind the tags. -/
theorem charsOf_rows (vs : List String) : charsOf (vs.flatMap row) =
    (String.join (vs.map fun value => " * @param " ++ value ++ "\n")).toList := by
  induction vs with
  | nil => rfl
  | cons v vs ih => simp [ih, row]

/-- The pieces make up the text. -/
theorem textOf_pieces (ds : List ParamDoc) : textOf (pieces ds) = (text ds).toList := by
  delta text
  simp only [pieces, declarationPieces, endPieces, textOf_cons, textOf_append, textOf_nil, body_eq,
    Piece.chars, textOf_listPieces_eq, charsOf_rows, String.toList_append, List.append_assoc]
  rfl

/-- The source text with two parameters. -/
example : text [⟨"int", "size", "The size."⟩, ⟨"Shape", "x", "A shape."⟩] =
    "<?php\n/**\n * Does things.\n *\n * @param int   $size The size.\n" ++
      " * @param Shape $x    A shape.\n *\n * @return void\n */\n" ++
      "function f(int $size, Shape $x)\n\x7b\n\x7d\n" := by
  decide +kernel

/-- The declaration is read piece by piece behind the comment. -/
theorem reads_declarationPieces (hne : ds ≠ []) (h : ∀ d ∈ ds, d.Proper) :
    Reads .code (some ⟨.docClose, "*/"⟩) (declarationPieces ds) := by
  have hline : (Piece.space ['\n']).Valid := ⟨by simp, by decide⟩
  have hspace : (Piece.space [' ']).Valid := ⟨by simp, by decide⟩
  have hparams := reads_listPieces hne h (.inl rfl)
  have hname : Reads .code (some ⟨.function, "function"⟩)
      (.code ⟨.name, "f"⟩ :: .code ⟨.openParenthesis, "("⟩ :: (listPieces ds ++ endPieces)) := by
    refine reads_word ⟨'f', [], rfl, rfl, by simp⟩ ?_ rfl rfl
      (reads_delimiter (c := '(') rfl hparams)
    rintro _ ⟨⟩
    decide
  refine .spaceCons hline rfl (reads_word ⟨'f', "unction".toList, rfl, rfl, by decide⟩ ?_ rfl rfl
    (.spaceCons hspace rfl hname))
  rintro _ ⟨⟩
  decide

/-- The lexer reads the source text piece by piece. -/
theorem reads_pieces (hne : ds ≠ []) (h : ∀ d ∈ ds, d.Proper)
    (hbody : Closed (body (values ds))) : Reads .html none (pieces ds) := by
  have hline : (Piece.space ['\n']).Valid := ⟨by simp, by decide⟩
  have hstop : (textOf (.doc (body (values ds)) :: declarationPieces ds)).takeWhile isCodeSpace =
      [] := by
    rw [textOf_doc]
    rfl
  have hfound : openTag? ([] ++ "<?php".toList ++
      textOf (.space ['\n'] :: .doc (body (values ds)) :: declarationPieces ds)) = some (0, 5) :=
    rfl
  exact .openTag hfound (.spaceCons hline hstop (.doc hbody (reads_declarationPieces hne h)))

end Documented

end PhpDoc
