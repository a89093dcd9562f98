import PhpDoc.Lint.Check
import PhpDoc.Proofs.Strict.Comment
import PhpDoc.Proofs.Strict.Declaration

/-!
# Documented declarations, checked strictly

The comment of a function or of a member variable is found by strict reads, and so are the signature
and the first exit that a function's comment is compared with. The padding of a column has to be a
space at least, and the version of the configuration has to be one that can be read. For a
declaration of a source text nothing of this fails, and the findings are those of the rules of the
model.
-/

namespace PhpDoc

namespace Strict

variable {s : Stream} {c : CommentSpan} {b : Block} {p : ParamTag} {config : Config}

/-! ## Parameters -/

/-- Whether scalar types of parameters are to be declared, by the version as it is written. -/
def scalarHints (config : Config) : Except Fault Bool := do
  let version ← (Version.parse config.version.text).mapError .version
  return version.atLeast 7 0

/-- The version of a configuration is read again without a fault. -/
theorem scalarHints_eq_ok (h : Version.parse config.version.text = .ok config.version) :
    scalarHints config = .ok config.scalarHints := by
  rw [scalarHints, h]
  rfl

/-- The change that gives a parameter tag a new value and moves the given blanks, those in front of
the continuation lines, with the padding. -/
def respace (p : ParamTag) (blanks : List Token) (content : String) (required found : Int) :
    Changeset :=
  match p.tag.value with
  | none => Changeset.empty
  | some value =>
      blanks.foldl
        (fun change blank =>
          change.replace blank
            (Text.spaces (shiftedIndent blank.text.length required found).toNat))
        (Changeset.empty.replace value content)

/-- A new value for a parameter tag moves the blanks that were read with the tag. -/
theorem respace_blanks (p : ParamTag) (content : String) (required found : Int) :
    respace p (blanks s p) content required found =
      FunctionRule.respace s p content required found :=
  rfl

/-- The type of a parameter tag is padded to the longest type. -/
def spacingAfterType (s : Stream) (longest : Nat) (p : ParamTag) (blanks : List Token) :
    Except Fault (List Violation) := do
  let required ← padding longest p.type.length
  let content := p.render p.type required.toNat p.varSpace
  fixing (FunctionRule.spacingAfterType s longest p)
    (.ok (respace p blanks content required p.typeSpace))

/-- The type column is checked without a fault, since no type is longer than the longest one. -/
theorem spacingAfterType_eq_ok {longest : Nat} (h : p.type.length ≤ longest) :
    spacingAfterType s longest p (blanks s p) =
      .ok (FunctionRule.spacingAfterType s longest p) := by
  rw [spacingAfterType, padding_eq_ok h, ok_bind]
  exact fixing_report fun _ => congrArg Except.ok (respace_blanks p _ _ _)

/-- The description in a parameter tag is a sentence in its column. -/
def checkDescription (s : Stream) (longest : Nat) (p : ParamTag) (blanks : List Token) :
    Except Fault (List Violation) :=
  if p.comment.isEmpty then .ok []
  else do
    let required ← padding longest p.var.length
    let content := p.render p.type p.typeSpace required.toNat
    fixing (FunctionRule.checkDescription s longest p)
      (.ok (respace p blanks content required p.varSpace))

/-- A description is checked without a fault, since no name is longer than the longest one. -/
theorem checkDescription_eq_ok {longest : Nat} (h : p.var.length ≤ longest) :
    checkDescription s longest p (blanks s p) =
      .ok (FunctionRule.checkDescription s longest p) := by
  unfold checkDescription
  split
  · next hempty => rw [FunctionRule.checkDescription, if_pos hempty]
  · next hcomment =>
      rw [padding_eq_ok h, ok_bind]
      refine fixing_eq_ok fun v hv => ?_
      rw [FunctionRule.checkDescription, if_neg hcomment] at hv
      simp only [List.mem_append] at hv
      rcases hv with (hv | hv) | hv
      · exact Violation.fixedBy_of_mem_report_fixed hv fun _ =>
          congrArg Except.ok (respace_blanks p _ _ _)
      · exact Violation.fixedBy_of_mem_report hv
      · exact Violation.fixedBy_of_mem_report hv

/-- The findings at one parameter tag with its counterpart among the declared parameters. -/
def checkParam (hints : Bool) (s : Stream) (f : Function) (ps : List ParamTag) (p : ParamTag)
    (blanks : List Token) (declared : Option Parameter) : Except Fault (List Violation) :=
  if p.type.isEmpty then .ok []
  else if p.var.isEmpty then .ok (FunctionRule.checkType hints f p declared)
  else do
    let spacing ← spacingAfterType s (ParamTag.longestType ps) p blanks
    let description ← checkDescription s (ParamTag.longestVar ps) p blanks
    return FunctionRule.checkType hints f p declared ++
      (spacing ++ FunctionRule.checkCounterpart p declared ++ description)

/-- A parameter tag is checked without a fault. -/
theorem checkParam_eq_ok {hints : Bool} {f : Function} {ps : List ParamTag}
    {declared : Option Parameter} (hp : p ∈ ps) :
    checkParam hints s f ps p (blanks s p) declared =
      .ok (FunctionRule.checkParam hints s f ps p declared) := by
  unfold checkParam FunctionRule.checkParam
  rw [spacingAfterType_eq_ok (ParamTag.length_type_le_longest hp), ok_bind,
    checkDescription_eq_ok (ParamTag.length_var_le_longest hp), ok_bind]
  split
  · rfl
  · split
    · rw [List.append_nil]
    · rfl

/-- The findings about the parameters of a documented function. -/
def checkParams (hints : Bool) (s : Stream) (b : Block) (f : Function) :
    Except Fault (List Violation) := do
  let tags ← paramTags s b
  let ps := tags.map (·.1)
  let found ← tags.zipIdx |> collect fun t =>
    checkParam hints s f ps t.1.1 t.1.2 f.parameters[t.2]?
  return ps.flatMap FunctionRule.missingParts ++ found ++ FunctionRule.missingTags b f ps

/-- The parameters of a function are checked without a fault. -/
theorem checkParams_eq_ok (hs : s.Placed) (hc : s.Frames c) (hb : ∀ t ∈ b.tags, t.Fits s c)
    (hints : Bool) (f : Function) :
    checkParams hints s b f = .ok (FunctionRule.checkParams hints s b f) := by
  have hps : ((b.paramTags s).map fun p => (p, blanks s p)).map (·.1) = b.paramTags s := by
    rw [List.map_map]
    exact List.map_id _
  have hfound : (((b.paramTags s).map fun p => (p, blanks s p)).zipIdx |> collect fun t =>
      checkParam hints s f (b.paramTags s) t.1.1 t.1.2 f.parameters[t.2]?) =
      .ok ((b.paramTags s).zipIdx.flatMap fun t =>
        FunctionRule.checkParam hints s f (b.paramTags s) t.1 f.parameters[t.2]?) := by
    rw [List.zipIdx_map, collect, List.mapM_map, ← collect]
    exact collect_eq_ok fun t ht => checkParam_eq_ok (List.fst_mem_of_mem_zipIdx ht)
  unfold checkParams FunctionRule.checkParams
  rw [paramTags_eq_ok hs hc hb, ok_bind, hps]
  simp only [hfound]
  rfl

/-! ## Returns and exceptions -/

/-- The findings about the first exit of a function with the documented return type. -/
def checkExit (s : Stream) (f : Function) (t : Tag) (type : String) :
    Except Fault (List Violation) :=
  if !f.hasBody || type == "mixed" then .ok []
  else do
    match ← firstExit s f with
    | .value _ =>
        return report (type == "void") <|
          .error FunctionRule.family "InvalidReturnVoid"
            "Function return type is void, but function contains return statement" t.token
    | .none =>
        return report (type != "void") <|
          .error FunctionRule.family "InvalidNoReturn"
            "Function return type is not void, but function has no return statement" t.token
    | .bare exit =>
        return report (type != "void") <|
          .error FunctionRule.family "InvalidReturnNotVoid"
            "Function return type is not void, but function is returning void here" exit

/-- The exit of a function is checked without a fault. -/
theorem checkExit_eq_ok (hs : s.Placed) (hl : s.Linked) (token : Token) (t : Tag)
    (type : String) : checkExit s (Function.ofToken s token) t type =
      .ok (FunctionRule.checkExit s (Function.ofToken s token) t type) := by
  unfold checkExit FunctionRule.checkExit
  rw [firstExit_eq_ok hs hl, ok_bind]
  split
  · rfl
  · cases (Function.ofToken s token).firstExit s <;> rfl

/-- The spelling of the type in the value of a return tag. -/
def returnSpelling (t : Tag) (value : Token) : List Violation :=
  let type := Text.before ' ' value.text
  let suggested := TypeName.normalize type
  report (suggested != type && suggested != "bool") <|
    .fixed FunctionRule.family "InvalidReturn"
      ("Expected \"" ++ suggested ++ "\" but found \"" ++ type ++ "\" for function return type")
      t.token (FunctionRule.retype value type suggested)

/-- The findings about the return tag with the value `value`. -/
def checkReturnType (s : Stream) (f : Function) (t : Tag) (value : Token) :
    Except Fault (List Violation) := do
  let exits ← checkExit s f t (Text.before ' ' value.text)
  return returnSpelling t value ++ exits

/-- The type in a return tag is checked without a fault. -/
theorem checkReturnType_eq_ok (hs : s.Placed) (hl : s.Linked) (token : Token) (t : Tag)
    (value : Token) : checkReturnType s (Function.ofToken s token) t value =
      .ok (FunctionRule.checkReturnType s (Function.ofToken s token) t value) := by
  rw [checkReturnType, checkExit_eq_ok hs hl]
  rfl

/-- The findings about the return tag of a documented function. Only a single tag with a value is
compared with the body. -/
def checkReturn (s : Stream) (b : Block) (f : Function) : Except Fault (List Violation) :=
  match b.tagsNamed "@return" with
  | [t] =>
      match t.value with
      | some value => if f.isSpecial then .ok [] else checkReturnType s f t value
      | none => .ok (FunctionRule.checkReturn s b f)
  | _ => .ok (FunctionRule.checkReturn s b f)

/-- The return tags of a function are checked without a fault. -/
theorem checkReturn_eq_ok (hs : s.Placed) (hl : s.Linked) (b : Block) (token : Token) :
    checkReturn s b (Function.ofToken s token) =
      .ok (FunctionRule.checkReturn s b (Function.ofToken s token)) := by
  unfold checkReturn
  split
  · next t htags =>
      cases hvalue : t.value with
      | none => rfl
      | some value =>
          simp only [FunctionRule.checkReturn, htags, hvalue, checkReturnType_eq_ok hs hl]
          split <;> rfl
  · rfl

/-- The findings about a throws tag with the value `value`. -/
def checkThrown (s : Stream) (t : Tag) (value : Token) : Except Fault (List Violation) :=
  match FunctionRule.thrownText? value.text with
  | none => .ok (FunctionRule.checkThrown s t value)
  | some "" => .ok (FunctionRule.checkThrown s t value)
  | some text => do
      let more ← continuation s t
      let comment := Text.join " " (text :: more.map (·.text))
      return (report (Text.startsLower comment) <|
          .error FunctionRule.family "ThrowsNotCapital"
            "@throws tag comment must start with a capital letter" value) ++
        (report (!Text.endsWith "." comment) <|
          .error FunctionRule.family "ThrowsNoFullStop"
            "@throws tag comment must end with a full stop" value)

/-- The value of a throws tag is checked without a fault. -/
theorem checkThrown_eq_ok (hs : s.Placed) {t : Tag} (h : t.stop ≤ s.size) (value : Token) :
    checkThrown s t value = .ok (FunctionRule.checkThrown s t value) := by
  unfold checkThrown
  split
  · rfl
  · rfl
  · next text hne htext =>
      rw [continuation_eq_ok hs h, ok_bind, FunctionRule.checkThrown, htext]
      split
      · next hnone => cases hnone
      · next hempty => exact absurd (Option.some.inj hempty) hne
      · next found _ hfound =>
          obtain rfl : text = found := Option.some.inj hfound
          rfl

/-- The findings about the throws tags of a documented function. -/
def checkThrows (s : Stream) (b : Block) : Except Fault (List Violation) :=
  b.tagsNamed "@throws" |> collect fun t =>
    match t.value with
    | none =>
        .ok [.error FunctionRule.family "InvalidThrows"
          "Exception type and comment missing for @throws tag in function comment" t.token]
    | some value => checkThrown s t value

/-- The throws tags of a function are checked without a fault. -/
theorem checkThrows_eq_ok (hs : s.Placed) (hb : ∀ t ∈ b.tags, t.stop ≤ s.size) :
    checkThrows s b = .ok (FunctionRule.checkThrows s b) := by
  refine collect_eq_ok fun t ht => ?_
  cases t.value with
  | none => rfl
  | some value => exact checkThrown_eq_ok hs (hb t (List.mem_filter.1 ht).1) value

/-! ## Comments of functions -/

/-- No blank line stands between the comment and what follows it. -/
def spacingAfterComment (s : Stream) (closer : Token) (f : Function) :
    Except Fault (List Violation) := do
  let found ← fetchFirst s (· != .whitespace) (closer.index + 1) f.token.index
  let following := found.getD f.token
  fixing (FunctionRule.spacingAfterComment s closer f) do
    let gap ← fetchRange s (closer.index + 1) f.token.index
    return Changeset.empty.blank (gap.filter fun t =>
      t.kind == .whitespace && closer.line < t.line && t.line < following.line)

/-- The lines behind the comment of a function are checked without a fault. -/
theorem spacingAfterComment_eq_ok (hs : s.Placed) {f : Function} (hf : s.Has f.token)
    (closer : Token) : spacingAfterComment s closer f =
      .ok (FunctionRule.spacingAfterComment s closer f) := by
  rw [spacingAfterComment, fetchFirst_eq_ok hs, ok_bind]
  refine fixing_report fun _ => ?_
  rw [fetchRange_eq_ok hs (Nat.le_of_lt hf.index_lt_size)]
  rfl

/-- The findings about the comment of a function that ends with the marker `closer`. -/
def checkFunctionComment (config : Config) (s : Stream) (f : Function) (closer : Token) :
    Except Fault (List Violation) := do
  let spacing ← spacingAfterComment s closer f
  let i ← opener s closer.index
  let b ← block s i
  let hints ← scalarHints config
  let params ← checkParams hints s b f
  let returns ← checkReturn s b f
  let throws ← checkThrows s b
  return spacing ++ FunctionRule.checkSees b ++ params ++ returns ++ throws

/-- The comment of a function is checked without a fault. -/
theorem checkFunctionComment_eq_ok (hs : s.Sound) (hl : s.Linked) (hc : c ∈ s.comments)
    (hfound : s.commentClosedAt? c.closer.index = some c)
    (hversion : Version.parse config.version.text = .ok config.version) {token : Token}
    (ht : s.Has token) :
    checkFunctionComment config s (Function.ofToken s token) c.closer =
      .ok (FunctionRule.checkComment config.scalarHints s (Function.ofToken s token) c.closer
        c) := by
  have hframes := hs.frames hc
  have hopener : opener s c.closer.index = .ok c.opener.index := by
    rw [opener, hfound]
    rfl
  have hfits := fun t ht => Block.fits_of_mem_tags hs.toPlaced hframes (t := t) ht
  have hstops : ∀ t ∈ (Block.ofSpan s c).tags, t.stop ≤ s.size := fun t ht =>
    Nat.le_trans (hfits t ht).stop_le (Nat.le_of_lt hframes.closer.index_lt_size)
  unfold checkFunctionComment FunctionRule.checkComment
  simp only [spacingAfterComment_eq_ok hs.toPlaced (f := Function.ofToken s token) ht, hopener,
    block_eq_ok hs hc, scalarHints_eq_ok hversion, checkParams_eq_ok hs.toPlaced hframes hfits,
    checkReturn_eq_ok hs.toPlaced hl, checkThrows_eq_ok hs.toPlaced hstops, ok_bind, pure_eq_ok]

/-- The findings at the keyword of a named function. -/
def checkFunction (config : Config) (s : Stream) (t : Token) : Except Fault (List Violation) := do
  let f ← function s t
  match ← preceding s FunctionRule.isLead t.index with
  | .other _ =>
      return [.error FunctionRule.family "WrongStyle"
        "You must use \"/**\" style comments for a function comment" t]
  | .none =>
      return [.error FunctionRule.family "Missing"
        ("Missing doc comment for function " ++ f.name ++ "()") t]
  | .doc closer => checkFunctionComment config s f closer

/-- A function is checked without a fault. -/
theorem checkFunction_eq_ok (hs : s.Sound) (hl : s.Linked)
    (hversion : Version.parse config.version.text = .ok config.version) {t : Token}
    (ht : s.Has t) {vs : List Violation} (h : Lint.checkFunction config s t = .ok vs) :
    checkFunction config s t = .ok vs := by
  unfold Lint.checkFunction at h
  unfold checkFunction
  rw [function_eq_ok hs.toPlaced hl, ok_bind,
    preceding_eq_ok hs.toPlaced hl _ (Nat.le_of_lt ht.index_lt_size), ok_bind]
  cases hfind : Preceding.find s FunctionRule.isLead t.index with
  | other comment =>
      rw [hfind] at h
      cases h
      rfl
  | none =>
      rw [hfind] at h
      cases h
      rfl
  | doc closer =>
      obtain ⟨hhas, hkind, -⟩ := Preceding.find_eq_doc hs.toPlaced hfind
      obtain ⟨c, hc, rfl, hfound⟩ := Lint.exists_commentClosedAt hs hhas hkind
      simp only [hfind, hfound, Except.ok.injEq] at h
      rw [← h]
      exact checkFunctionComment_eq_ok hs hl hc hfound hversion ht

/-! ## Comments of member variables -/

/-- The findings about the first `@var` tag. -/
def checkVar (b : Block) (t : Tag) : Except Fault (List Violation) := do
  let first ← element b.tags 0
  return (report (first.name != PropertyRule.varTag) <|
      .error PropertyRule.family "VarOrder"
        "The @var tag must be the first tag in a member variable comment" t.token) ++
    match t.value with
    | none =>
        [.error PropertyRule.family "EmptyVar"
          "Content missing for @var tag in member variable comment" t.token]
    | some value => PropertyRule.checkVarType value

/-- The `@var` tag of a block is checked without a fault, since the block has a tag. -/
theorem checkVar_eq_ok {t : Tag} (ht : t ∈ b.tags) :
    checkVar b t = .ok (PropertyRule.checkVar b t) := by
  obtain ⟨first, rest, htags⟩ := List.exists_cons_of_ne_nil (List.ne_nil_of_mem ht)
  have hfirst : b.tags[0]? = some first := by rw [htags, List.getElem?_cons_zero]
  have hhead : b.tags.head?.map (·.name) = some first.name := by rw [htags]; rfl
  have hne : (some first.name != some PropertyRule.varTag) =
      (first.name != PropertyRule.varTag) := by
    simp [bne]
  rw [checkVar, element_eq_ok hfirst, ok_bind, PropertyRule.checkVar, hhead, hne]
  rfl

/-- The findings about the comment of a member variable that ends with the marker `closer`. -/
def checkPropertyComment (s : Stream) (closer : Token) : Except Fault (List Violation) := do
  let i ← opener s closer.index
  let b ← block s i
  let others := (PropertyRule.otherTags b.tags).flatMap PropertyRule.checkTag
  match b.tags.find? (·.name == PropertyRule.varTag) with
  | none =>
      return others ++ [.error PropertyRule.family "MissingVar"
        "Missing @var tag in member variable comment" b.closer]
  | some t => return others ++ (← checkVar b t)

/-- The comment of a member variable is checked without a fault. -/
theorem checkPropertyComment_eq_ok (hs : s.Sound) (hc : c ∈ s.comments)
    (hfound : s.commentClosedAt? c.closer.index = some c) :
    checkPropertyComment s c.closer = .ok (PropertyRule.checkComment s c) := by
  have hopener : opener s c.closer.index = .ok c.opener.index := by
    rw [opener, hfound]
    rfl
  unfold checkPropertyComment PropertyRule.checkComment
  rw [hopener, ok_bind, block_eq_ok hs hc, ok_bind]
  cases hvar : (Block.ofSpan s c).tags.find? (·.name == PropertyRule.varTag) with
  | none =>
      simp only [hvar]
      rfl
  | some t =>
      simp only [hvar, checkVar_eq_ok (List.mem_of_find?_eq_some hvar)]
      rfl

/-- The findings at a member variable. -/
def checkProperty (s : Stream) (t : Token) : Except Fault (List Violation) := do
  match ← preceding s PropertyRule.isLead t.index with
  | .other _ =>
      return [.error PropertyRule.family "WrongStyle"
        "You must use \"/**\" style comments for a member variable comment" t]
  | .none =>
      return [.error PropertyRule.family "Missing" "Missing member variable doc comment" t]
  | .doc closer => checkPropertyComment s closer

/-- A member variable is checked without a fault. -/
theorem checkProperty_eq_ok (hs : s.Sound) (hl : s.Linked) {t : Token} (ht : s.Has t)
    {vs : List Violation} (h : Lint.checkProperty s t = .ok vs) : checkProperty s t = .ok vs := by
  unfold Lint.checkProperty at h
  unfold checkProperty
  rw [preceding_eq_ok hs.toPlaced hl _ (Nat.le_of_lt ht.index_lt_size), ok_bind]
  cases hfind : Preceding.find s PropertyRule.isLead t.index with
  | other comment =>
      rw [hfind] at h
      cases h
      rfl
  | none =>
      rw [hfind] at h
      cases h
      rfl
  | doc closer =>
      obtain ⟨hhas, hkind, -⟩ := Preceding.find_eq_doc hs.toPlaced hfind
      obtain ⟨c, hc, rfl, hfound⟩ := Lint.exists_commentClosedAt hs hhas hkind
      simp only [hfind, hfound, Except.ok.injEq] at h
      rw [← h]
      exact checkPropertyComment_eq_ok hs hc hfound

end Strict

end PhpDoc
