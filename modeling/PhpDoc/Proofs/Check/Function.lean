import PhpDoc.Check.Function
import PhpDoc.Proofs.Check.Reports

/-!
# What the check of a function reports

The walk over the comment of a function reports the findings of the function and nothing else. Three
of its parts carry something on: the table of the parameter tags, the names that were found in them,
and the names that were reported as missing. Each is first brought to the closed form in which the
rules state it (`foldl_add`, `paramName?`, `missingNames_cons`).
-/

namespace PhpDoc.Check

open Text FunctionRule

variable {s : Stream} {config : Config} {b : Block} {f : Function}

/-! ## Parameter tags -/

/-- What a parameter tag lacks is reported by the rule for it. -/
theorem reports_missingParts (p : ParamTag) :
    Reports s config (missingParts p) () (FunctionRule.missingParts p) := by
  unfold missingParts FunctionRule.missingParts
  cases p.value with
  | none => exact .report _
  | some value =>
      dsimp only
      cases value.var with
      | none => exact .report _
      | some var =>
          cases value.description with
          | none => exact .report _
          | some description => exact .pure ()

/-- A table to which tags were added holds them at its end and knows their longest parts. -/
theorem foldl_add (table : ParamTable) (ps : List ParamTag) :
    ps.foldl ParamTable.add table =
      ⟨table.tags ++ ps, (ps.map (·.type.length)).foldl max table.longestType,
        (ps.map (·.var.length)).foldl max table.longestVar⟩ := by
  induction ps generalizing table with
  | nil =>
      show table = ⟨table.tags ++ [], table.longestType, table.longestVar⟩
      rw [List.append_nil]
  | cons p ps ih =>
      rw [List.foldl_cons, ih (table.add p), ParamTable.add, List.append_assoc]
      rfl

/-- Reading the tags fills the table, and reports what each tag lacks. -/
theorem reports_readParams (table : ParamTable) (ts : List Tag) :
    Reports s config (readParams table ts) ((ts.map (ParamTag.ofTag s)).foldl ParamTable.add table)
      ((ts.map (ParamTag.ofTag s)).flatMap FunctionRule.missingParts) := by
  induction ts generalizing table with
  | nil => exact .pure table
  | cons t ts ih =>
      exact .readStream ((reports_missingParts _).bind (ih (table.add (ParamTag.ofTag s t))))

/-- The change of a value is computed from the stream, without a report. -/
theorem reports_respace (p : ParamTag) (content : String) (required found : Int) :
    Reports s config (respace p content required found)
      (FunctionRule.respace s p content required found) [] := by
  refine .readStream ?_
  unfold FunctionRule.respace
  cases p.tag.value with
  | none => exact .pure _
  | some value => exact .pure _

/-- The declared type of a parameter is reported by the rule for it. -/
theorem reports_hint (f : Function) (p : ParamTag) (declared : Parameter) :
    Reports s config (hint f p declared) () (checkHint config.scalarHints f p declared) := by
  refine .readConfig ?_
  unfold checkHint
  dsimp only
  split
  · split
    · exact .report _
    · exact .report _
  · split
    · exact .report _
    · split
      · exact .report _
      · exact .pure ()

/-- The type of a parameter tag is reported by the rule for it. -/
theorem reports_paramType (f : Function) (p : ParamTag) (declared : Option Parameter) :
    Reports s config (paramType f p declared) ()
      (checkType config.scalarHints f p declared) := by
  unfold paramType checkType
  cases p.tag.value with
  | none => exact .pure ()
  | some value =>
      dsimp only
      split
      · exact .report _
      · split
        · exact .pure ()
        · cases declared with
          | none => exact .pure ()
          | some declared =>
              rw [Option.elim_some]
              exact reports_hint f p declared

/-- The padding behind a type is reported by the rule for it. -/
theorem reports_spacingAfterType (longest : Nat) (p : ParamTag) :
    Reports s config (spacingAfterType longest p) ()
      (FunctionRule.spacingAfterType s longest p) :=
  (reports_respace p _ _ _).computed (.reportWhen _ _)

/-- The name in a parameter tag is reported by the rule for it. -/
theorem reports_name (p : ParamTag) (declared : Parameter) :
    Reports s config (name p declared) () (checkName p declared) := by
  unfold name checkName
  dsimp only
  split
  · exact .pure ()
  · split
    · exact .report _
    · exact .report _

/-- A tag without a declared parameter is reported by the rule for it. -/
theorem reports_counterpart (p : ParamTag) (declared : Option Parameter) :
    Reports s config (counterpart p declared) () (checkCounterpart p declared) := by
  unfold counterpart checkCounterpart
  cases declared with
  | none => exact .reportWhen _ _
  | some parameter => exact reports_name p parameter

/-- The padding behind a name is reported by the rule for it. -/
theorem reports_spacingAfterName (longest : Nat) (p : ParamTag) :
    Reports s config (spacingAfterName longest p) ()
      (FunctionRule.spacingAfterName s longest p) :=
  (reports_respace p _ _ _).computed (.reportWhen _ _)

/-- The description in a parameter tag is reported by the rules for it. -/
theorem reports_paramDescription (longest : Nat) (p : ParamTag) :
    Reports s config (paramDescription longest p) () (checkDescription s longest p) := by
  unfold paramDescription checkDescription
  split
  · exact .pure ()
  · rw [List.append_assoc]
    exact (reports_spacingAfterName longest p).bind
      ((Reports.reportWhen _ _).bind (.reportWhen _ _))

/-! ## Parameters and their names -/

/-- The name in a parameter tag, if it has a type and a name. -/
def paramName? (p : ParamTag) : Option String :=
  if p.type.isEmpty || p.var.isEmpty then none else some p.var

/-- The names in tags, as the rule for missing tags collects them. -/
theorem filterMap_paramName? (ps : List ParamTag) :
    ps.filterMap paramName? =
      ((ps.filter (!·.type.isEmpty)).map (·.var)).filter (!·.isEmpty) := by
  induction ps with
  | nil => rfl
  | cons p ps ih =>
      rw [List.filterMap_cons, paramName?, ih]
      cases htype : p.type.isEmpty with
      | true => simp [htype]
      | false => cases hvar : p.var.isEmpty <;> simp [htype, hvar]

/-- A parameter tag is reported by the rules for it, and answers with its name. -/
theorem reports_param (f : Function) (ps : List ParamTag) (p : ParamTag)
    (declared : Option Parameter) :
    Reports s config
      (param f ⟨ps, ParamTag.longestType ps, ParamTag.longestVar ps⟩ p declared) (paramName? p)
      (checkParam config.scalarHints s f ps p declared) := by
  unfold param checkParam paramName?
  cases htype : p.type.isEmpty with
  | true => exact .pure none
  | false =>
      cases hvar : p.var.isEmpty with
      | true =>
          simp only [Bool.or_true, if_true, List.append_nil]
          exact (reports_paramType f p declared).answer none
      | false =>
          simp only [List.append_assoc]
          exact (reports_paramType f p declared).bind
            ((reports_spacingAfterType (ParamTag.longestType ps) p).bind
              ((reports_counterpart p declared).bind
                ((reports_paramDescription (ParamTag.longestVar ps) p).answer (some p.var))))

/-- The walk over the parameter tags reports tag by tag, and answers with the names. -/
theorem reports_params (f : Function) (ps : List ParamTag) (found : List String)
    (places : List (ParamTag × Nat)) :
    Reports s config
      (params f ⟨ps, ParamTag.longestType ps, ParamTag.longestVar ps⟩ found places)
      (found ++ (places.map (·.1)).filterMap paramName?)
      (places.flatMap fun (p, i) =>
        checkParam config.scalarHints s f ps p f.parameters[i]?) := by
  induction places generalizing found with
  | nil =>
      rw [List.map_nil, List.filterMap_nil, List.append_nil]
      exact .pure found
  | cons place places ih =>
      obtain ⟨p, i⟩ := place
      have hrest := ih (found ++ (paramName? p).toList)
      have hnames : found ++ (((p, i) :: places).map (·.1)).filterMap paramName? =
          found ++ (paramName? p).toList ++ (places.map (·.1)).filterMap paramName? := by
        rw [List.map_cons, List.filterMap_cons, List.append_assoc]
        cases paramName? p <;> rfl
      rw [hnames]
      exact (reports_param f ps p f.parameters[i]?).bind hrest

/-- The names of parameters that are not among those found, each once. -/
def missingNames (found : List String) (parameters : List Parameter) : List String :=
  ((parameters.map (·.documentedName)).filter (!found.contains ·)).eraseDups

/-- A name that is missing is named once: for the parameters behind it, it counts as found. -/
theorem missingNames_cons (found : List String) (parameter : Parameter)
    (rest : List Parameter) :
    missingNames found (parameter :: rest) =
      if found.contains parameter.documentedName then missingNames found rest
      else parameter.documentedName :: missingNames (parameter.documentedName :: found) rest := by
  unfold missingNames
  rw [List.map_cons]
  by_cases hfound : found.contains parameter.documentedName = true
  · rw [if_pos hfound, List.filter_cons_of_neg (by simpa using hfound)]
  · rw [if_neg hfound, List.filter_cons_of_pos (by simpa using hfound), List.eraseDups_cons,
      List.filter_filter]
    have hagree : ∀ name : String,
        (!name == parameter.documentedName && !found.contains name) =
          !(parameter.documentedName :: found).contains name := by
      intro name
      rw [List.contains_cons, Bool.not_or]
    simp only [hagree]

/-- The walk over the declared parameters reports the names that are missing. -/
theorem reports_missingTags (b : Block) (found : List String) (parameters : List Parameter) :
    Reports s config (missingTags b found parameters) ()
      ((missingNames found parameters).map fun name =>
        .error family "MissingParamTag" ("Doc comment for parameter \"" ++ name ++ "\" missing")
          b.opener) := by
  induction parameters generalizing found with
  | nil => exact .pure ()
  | cons parameter rest ih =>
      rw [missingNames_cons]
      unfold missingTags
      dsimp only
      split
      · exact ih found
      · exact (Reports.report _).bind (ih (parameter.documentedName :: found))

/-- The check of the parameters reports what the rules for parameters find. -/
theorem reports_parameters (b : Block) (f : Function) :
    Reports s config (parameters b f) () (checkParams config.scalarHints s b f) := by
  have hread := @reports_readParams s config ⟨[], 0, 0⟩ (b.tagsNamed "@param")
  rw [foldl_add] at hread
  have hmissing := @reports_missingTags s config b ((b.paramTags s).filterMap paramName?) f.parameters
  have hparams := @reports_params s config f (b.paramTags s) [] (b.paramTags s).zipIdx
  rw [List.zipIdx_map_fst, List.nil_append] at hparams
  have hrest := hparams.bind (f := fun found => missingTags b found f.parameters) hmissing
  rw [missingNames, filterMap_paramName?] at hrest
  unfold checkParams
  simp only [List.append_assoc]
  exact hread.bind hrest

/-! ## What a function returns and throws -/

/-- Cross references are reported by the rule for them. -/
theorem reports_sees (b : Block) : Reports s config (sees b) () (checkSees b) :=
  .forM fun _ _ => .reportWhen _ _

/-- The exit of a function is reported by the rule for it. -/
theorem reports_exit (f : Function) (t : Tag) (type : String) :
    Reports s config (exit f t type) () (checkExit s f t type) := by
  refine .readStream ?_
  unfold checkExit
  split
  · exact .pure ()
  · cases f.firstExit s with
    | value exit => exact .reportWhen _ _
    | none => exact .reportWhen _ _
    | bare exit => exact .reportWhen _ _

/-- The value of a return tag is reported by the rules for it. -/
theorem reports_returnType (f : Function) (t : Tag) (value : Token) :
    Reports s config (returnType f t value) () (checkReturnType s f t value) :=
  (Reports.reportWhen _ _).bind (reports_exit f t _)

/-- The return tags are reported by the rules for them. -/
theorem reports_returns (b : Block) (f : Function) :
    Reports s config (returns b f) () (checkReturn s b f) := by
  unfold returns checkReturn
  match b.tagsNamed "@return" with
  | _ :: second :: _ => exact .report _
  | [] =>
      dsimp only
      split
      · exact .pure ()
      · exact .report _
  | [t] =>
      dsimp only
      split
      · exact .pure ()
      · cases t.value with
        | none => exact .report _
        | some value => exact reports_returnType f t value

/-- The value of a throws tag is reported by the rules for it. -/
theorem reports_thrown (t : Tag) (value : Token) :
    Reports s config (thrown t value) () (checkThrown s t value) := by
  refine .readStream ?_
  unfold checkThrown
  cases thrownText? value.text with
  | none => exact .report _
  | some text =>
      by_cases htext : text = ""
      · subst htext
        exact .report _
      · simp only []
        exact (Reports.reportWhen _ _).bind (.reportWhen _ _)

/-- The throws tags are reported by the rules for them. -/
theorem reports_throws (b : Block) : Reports s config (throws b) () (checkThrows s b) := by
  refine .forM fun t _ => ?_
  cases t.value with
  | none => exact .report _
  | some value => exact reports_thrown t value

/-! ## The whole comment -/

/-- The lines behind the comment are reported by the rule for them. -/
theorem reports_spacingAfterComment (closer : Token) (f : Function) :
    Reports s config (spacingAfterComment closer f) ()
      (FunctionRule.spacingAfterComment s closer f) :=
  .readStream (.reportWhen _ _)

/-- The comment of a function is reported by the rules for it. -/
theorem reports_functionComment {closer : Token} {span : CommentSpan}
    (h : s.commentClosedAt? closer.index = some span) (f : Function) :
    Reports s config (functionComment f closer) ()
      (checkComment config.scalarHints s f closer span) := by
  unfold checkComment
  simp only [List.append_assoc]
  refine (reports_spacingAfterComment closer f).bind (.readStream ?_)
  rw [h]
  exact (reports_sees _).bind
    ((reports_parameters _ f).bind ((reports_returns _ f).bind (reports_throws _)))

end PhpDoc.Check
