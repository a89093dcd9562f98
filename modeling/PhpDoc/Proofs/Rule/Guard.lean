import PhpDoc.Proofs.Comment.Guard
import PhpDoc.Proofs.Comment.ParamValue
import PhpDoc.Proofs.Rule.Breaks
import PhpDoc.Proofs.Rule.Rewording

/-!
# Repairs and the slashes of comments

A comment whose slashes are guarded may be rewritten token by token, when every token gets a text
that guards them (`Stream.Frames.exists_guarded`). A slash at the start of a line is one of the text
that stood there before, and in front of every other one there is the tag of its line. The texts
that repairs write guard the slashes of every comment (`Repair.guards`).
-/

namespace PhpDoc

open Text Lexer

/-! ## Rewritten comments -/

namespace Stream

variable {s : Stream} {c : CommentSpan} {t : Token} {w : Token → String}

/-- A character that is written for a row of tokens is written for one of them. -/
theorem Placed.exists_of_writes (hs : s.Placed) {u : Token} (hu : s.Has u)
    {i j : Nat} (hj : j ≤ u.index) {front back : List Char} {d : Char}
    (h : s.writes w i j = front ++ d :: back) :
    ∃ t lead tail, s.Has t ∧ i ≤ t.index ∧ t.index < j ∧ (w t).toList = lead ++ d :: tail ∧
      front = s.writes w i t.index ++ lead := by
  induction hn : j - i generalizing i front with
  | zero =>
      rw [writes, between_eq_nil (by omega)] at h
      simp at h
  | succ n ih =>
      obtain ⟨t, ht, rfl⟩ := hs.has_of_le (i := i) hu (by omega)
      rw [writes_cons ht (by omega)] at h
      rcases List.append_eq_append_iff.1 h with ⟨rest, rfl, hrest⟩ | ⟨rest, hfirst, hrest⟩
      · obtain ⟨v, lead, tail, hv, hfrom, hto, hwritten, rfl⟩ := ih hrest (by omega)
        refine ⟨v, lead, tail, hv, by omega, hto, hwritten, ?_⟩
        rw [writes_cons ht (by omega), List.append_assoc]
      · cases rest with
        | nil =>
            have hnext : s.writes w (t.index + 1) j = [] ++ d :: back := hrest.symm
            obtain ⟨v, lead, tail, hv, hfrom, hto, hwritten, hfront⟩ := ih hnext (by omega)
            refine ⟨v, lead, tail, hv, by omega, hto, hwritten, ?_⟩
            rw [writes_cons ht (by omega), List.append_assoc, ← hfront, hfirst, List.append_nil,
              List.append_nil]
        | cons e rest =>
            obtain ⟨rfl, -⟩ := List.cons.inj hrest
            refine ⟨t, front, rest, ht, Nat.le_refl _, by omega, hfirst, ?_⟩
            rw [writes, between_eq_nil (Nat.le_refl _)]
            rfl

namespace Frames

/-- In front of a value that is written anew stands a tag, and no star and no line break stands
behind the tag. -/
theorem exists_written_tag (hs : s.Placed) (hc : s.Frames c)
    (hw : ∀ t, s.Has t → c.Covers t → s.Guards c t (w t).toList) (ht : c.Contains s t) {p : Spot}
    (hp : c.SpotAt s t.index p) (htakes : p.takesTag = false) :
    ∃ front name, s.writes w (c.opener.index + 1) t.index = front ++ '@' :: name ∧
      Unbroken name ∧ '*' ∉ name := by
  obtain ⟨tag, q, htag, hkind, hlt, hsame, hq, htakesTag, hbetween⟩ :=
    hc.exists_tag_of_value hs ht hp htakes
  have hopener := htag.opener_lt
  have hcloser := ht.lt_closer
  -- the tag is written with nothing behind it, because the value follows on its line
  obtain ⟨pre, post, htext, -, -, hbehind⟩ :=
    (hw tag htag.has ⟨by omega, by omega⟩).first htag.content q hq htakesTag
  obtain rfl : post = [] := hbehind.resolve_right fun hlater => by
    have := hlater t ht hlt
    omega
  obtain ⟨r, hmove, -⟩ := hc.move_of_spotAt htag.has hopener htag.lt_closer hq
  obtain ⟨name, hname, hnameLine, hnameStar⟩ := hmove.exists_name hkind
  rw [Token.lexeme_text] at hname
  obtain ⟨pad, hpad, hpadLine, hpadStar⟩ : ∃ pad,
      s.writes w (tag.index + 1) t.index = pad ∧ Unbroken pad ∧ '*' ∉ pad := by
    rcases hbetween with hnext | ⟨blank, hblank, hblankKind, hindex, hindex', hpadded⟩
    · refine ⟨[], ?_, unbroken_nil, by simp⟩
      rw [writes, between_eq_nil (by omega)]
      rfl
    · have hpadding := (hw blank hblank ⟨by omega, by omega⟩).padding hblankKind hpadded
      refine ⟨_, ?_, fun d hd => (hpadding d hd).1, fun hd => (hpadding _ hd).2 rfl⟩
      rw [hindex, ← hindex', writes_single hblank]
  refine ⟨s.writes w (c.opener.index + 1) tag.index ++ pre, name ++ pad, ?_,
    unbroken_append.2 ⟨hnameLine, hpadLine⟩, ?_⟩
  · rw [writes_append (j := tag.index) hopener (by omega), writes_cons htag.has hlt, hpad, htext,
      hname]
    simp
  · rw [List.mem_append, not_or]
    exact ⟨hnameStar, hpadStar⟩

/-- What is written for the tokens between the markers of a comment whose slashes are guarded is
guarded. -/
theorem guarded_writes (hs : s.Placed) (hc : s.Frames c) (h : Guarded (s.innerText c))
    (hw : ∀ t, s.Has t → c.Covers t → s.Guards c t (w t).toList) :
    Guarded (s.writes w (c.opener.index + 1) c.closer.index) := by
  intro front back heq
  obtain ⟨t, lead, tail, ht, hfrom, hto, hwritten, rfl⟩ :=
    hs.exists_of_writes hc.closer (Nat.le_refl _) heq
  have hguards := hw t ht ⟨by omega, by omega⟩
  have hcontent : c.Contains s t := by
    refine ⟨ht, hfrom, hto, (hc.isFiller_eq_false ht hfrom hto).1 ?_⟩
    by_contra hfiller
    refine hguards.filler (by simpa using hfiller) ?_
    rw [hwritten]
    simp
  obtain ⟨p, hp⟩ := hc.exists_spotAt (i := t.index) hfrom (Nat.le_of_lt hto)
  cases htakes : p.takesTag with
  | true =>
      -- the slash is one of the token, which shields it by itself
      obtain ⟨pre, post, hsplit, hpre, hpost, -⟩ := hguards.first hcontent.content p hp htakes
      obtain ⟨rest, hfront⟩ := exists_of_append_right (hwritten.symm.trans hsplit) hpost
      obtain ⟨inner, htext, rfl⟩ := exists_of_append_left hfront.symm hpre
      have hshields := hc.guarded_text h hcontent hp htakes inner rest htext
      exact (hshields.append_left pre).append_left _
  | false =>
      -- the tag of the line stands in front of the slash
      obtain ⟨line, post, hsplit, hline, hunclosed, hpost⟩ :=
        hguards.value hcontent.content p hp htakes
      obtain ⟨rest, rfl⟩ := exists_of_append_right (hwritten.symm.trans hsplit) hpost
      obtain ⟨front, name, hfront, hnameLine, hnameStar⟩ :=
        hc.exists_written_tag hs hw hcontent hp htakes
      have hshields : Shields ('@' :: (name ++ lead)) := by
        refine shields_cons (by decide) (by decide) ?_ ?_
        · simp only [unbroken_cons, unbroken_append]
          exact ⟨by decide, hnameLine, (unbroken_append.1 hline).1⟩
        · intro hlast
          cases lead with
          | nil =>
              rw [List.append_nil] at hlast
              exact hnameStar (List.mem_of_getLast? hlast)
          | cons d lead =>
              rw [List.getLast?_append_of_ne_nil _ (by simp)] at hlast
              exact (unclosed_append.1 hunclosed).2.2 ⟨hlast, rfl⟩
      rw [hfront, List.append_assoc]
      exact hshields.append_left front

/-- A comment with guarded slashes that is written anew is such a comment. -/
theorem exists_guarded (hs : s.Placed) (hc : s.Frames c) (h : Guarded (s.innerText c))
    (hw : ∀ t, s.Has t → c.Covers t → s.Guards c t (w t).toList) :
    ∃ body, Guarded body ∧
      s.writes w c.opener.index (c.closer.index + 1) = ['/', '*', '*'] ++ body ++ ['*', '/'] := by
  have hlt := hc.lt
  obtain ⟨tail, hopener, htail⟩ :=
    (hw _ hc.opener ⟨Nat.le_refl _, Nat.le_of_lt hlt⟩).opener hc.openerKind
  obtain ⟨lead, hcloser, hlead⟩ :=
    (hw _ hc.closer ⟨Nat.le_of_lt hlt, Nat.le_refl _⟩).closer hc.closerKind
  refine ⟨tail ++ s.writes w (c.opener.index + 1) c.closer.index ++ lead,
    ((guarded_of_not_mem htail).append (hc.guarded_writes hs h hw)).append
      (guarded_of_not_mem hlead), ?_⟩
  rw [writes_cons hc.opener (by omega), writes_append (j := c.closer.index) hlt (Nat.le_succ _),
    writes_single hc.closer, hopener, hcloser, hc.openerText, hc.closerText]
  simp

end Frames

end Stream

variable {s : Stream} {c d : CommentSpan} {change : Changeset} {t : Token}

/-! ## Values of tags -/

/-- The value of a tag is content of the comment. -/
theorem Tag.Fits.contains_value {tag : Tag} (h : tag.Fits s c) {v : Token}
    (hv : tag.value = some v) : c.Contains s v := by
  obtain ⟨hhas, hkind, -, hstop⟩ := h.value v hv
  have hlt := h.lt_value hv
  have hopener := h.opener_lt
  have hclose := h.stop_le
  exact ⟨hhas, by omega, by omega, by rw [hkind]; rfl⟩

/-- The value of a tag may be written anew without close markers, on one line. -/
theorem Tag.Fits.guards_value (hs : s.Sound) (hc : s.Frames c) {tag : Tag} (htag : tag.Fits s c)
    (hvalue : tag.value = some t) {cs : List Char} (hline : Unbroken cs)
    (hunclosed : Unclosed cs) : s.Guards c t cs := by
  have hcontent := (htag.contains_value hvalue).content
  have htagged := Layout.spotAt_tagged hc htag
  cases hpadding : tag.padding with
  | none =>
      rw [← htag.unpadded t hvalue hpadding] at htagged
      exact Stream.guards_value hcontent htagged rfl hline hunclosed
  | some blank =>
      obtain ⟨hblank, hkind, hindex, v, hv, hvindex⟩ := htag.padding blank hpadding
      obtain rfl : t = v := Option.some.inj (hvalue.symm.trans hv)
      obtain ⟨hopener, hcloser⟩ := htag.covers_padding hpadding
      have hlt := (htag.contains_value hvalue).lt_closer
      rw [← hindex] at htagged
      obtain ⟨q, hmove, hq⟩ := hc.move_of_spotAt hblank
        (by have := htag.opener_lt; omega) (by omega) htagged
      have hunbroken := htag.unbroken_padding hs hpadding
      rcases hmove.blank_or_ending hkind with ⟨hending, -⟩ | ⟨-, hnext⟩
      · exact absurd hunbroken hending.not_unbroken
      · cases hnext
        exact Stream.guards_value hcontent (hvindex ▸ hq) rfl hline hunclosed

namespace ParamTag

variable {p : ParamTag} {v : Token}

/-- Spaces between two texts join no close marker, and without spaces none is joined in front of a
text that starts with no slash. -/
theorem unclosed_spaced {cs ds : List Char} {n : Nat} (hcs : Unclosed cs) (hds : Unclosed ds)
    (hn : n = 0 → ds.head? ≠ some '/') : Unclosed (cs ++ ((spaces n).toList ++ ds)) := by
  have hslash : '/' ∉ (spaces n).toList := IsBlanks.not_mem (isBlank_spaces n) (by decide)
  have hstar : '*' ∉ (spaces n).toList := IsBlanks.not_mem (isBlank_spaces n) (by decide)
  refine unclosed_append.2 ⟨hcs, unclosed_append_right hslash
    (fun hlast => hstar (List.mem_of_getLast? hlast)) hds, fun hjoin => ?_⟩
  cases n with
  | zero => exact hn rfl hjoin.2
  | succ n =>
      rw [ParamValue.toList_spaces_succ] at hjoin
      exact absurd hjoin.2 (by simp)

/-- The value of a parameter tag holds no close marker. -/
theorem unclosed_value (hs : s.Placed) (hc : s.Frames c)
    (hp : p ∈ (Block.ofSpan s c).paramTags s) (hv : p.tag.value = some v) :
    Unclosed v.text.toList := by
  obtain ⟨t, ht, -, htag⟩ := exists_of_mem_paramTags hp
  exact hc.unclosed_text ((Block.fits_of_mem_tags hs hc ht).contains_value (htag ▸ hv))

/-- A value that is written anew holds no close marker when it held none before and the description
is kept apart from the name. -/
theorem unclosed_render (hp : p ∈ (Block.ofSpan s c).paramTags s) (hv : p.tag.value = some v)
    (hunclosed : Unclosed v.text.toList) (hvar : p.var.isEmpty = false) {m n : Nat}
    (hn : n = 0 → p.varSpace = 0) : Unclosed (p.render p.type m n).toList := by
  obtain ⟨t, -, rfl, htag⟩ := exists_of_mem_paramTags hp
  rw [htag] at hv
  obtain ⟨x, hx⟩ : ∃ x, ((ofTag s t).value.bind (·.var)) = some x := by
    cases hx : (ofTag s t).value.bind (·.var) with
    | none => simp [var, hx] at hvar
    | some x => exact ⟨x, rfl⟩
  obtain ⟨pv, hpv, hx⟩ := Option.bind_eq_some_iff.1 hx
  have hparse := (value_ofTag s t).symm.trans hpv
  rw [hv, Option.bind_some] at hparse
  obtain ⟨htype, hname, hline⟩ := ParamValue.infix_parse? hparse
  have hhead := ParamValue.head?_var hparse hx
  simp only [var, hpv, Option.bind_some, hx, Option.getD_some, String.isEmpty_eq_false_iff] at hvar
  simp only [render, type, var, firstLine, varSpace, description, hpv, Option.elim_some,
    Option.bind_some, hx, Option.getD_some, String.toList_append, List.append_assoc] at hn ⊢
  refine unclosed_spaced (hunclosed.of_isInfix htype) (unclosed_spaced
    (hunclosed.of_isInfix (hname x hx)) ?_ fun hzero => ?_) fun _ => ?_
  · cases hd : pv.description with
    | none => simp
    | some d => exact hunclosed.of_isInfix (hline d hd)
  · cases hd : pv.description with
    | none => simp
    | some d =>
        simp only [hd, Option.elim_some] at hn
        exact absurd (hn hzero) (ParamValue.space_ne_zero hparse hd)
  · rwa [List.head?_append_of_ne_nil _ (by simpa using hvar)]

end ParamTag

/-! ## Changes -/

namespace Changeset

/-- What the change writes for the tokens of the comment guards its slashes. -/
def Guards (s : Stream) (c : CommentSpan) (change : Changeset) : Prop :=
  ∀ t, s.Has t → c.Covers t → s.Guards c t (change.current t).toList

/-- Without a change the comment is guarded, because it ends at its close marker only. -/
theorem guards_empty (hc : s.Frames c) : empty.Guards s c :=
  fun _ ht hcovers => hc.guards_text ht hcovers.1 hcovers.2

/-- A replacement that is guarded at its token leaves the comment guarded. -/
theorem Guards.replace (h : change.Guards s c) (ht : s.Has t) {text : String}
    (htext : s.Guards c t text.toList) : (change.replace t text).Guards s c := by
  intro u hu hcovers
  rw [current_replace]
  split
  · next hindex =>
      obtain rfl := hu.eq ht hindex
      exact htext
  · exact h u hu hcovers

/-- A text that is guarded in front of its token leaves the comment guarded. -/
theorem guards_prepend (hc : s.Frames c) (ht : s.Has t) {text : String}
    (htext : s.Guards c t (text.toList ++ t.text.toList)) :
    (empty.prepend t text).Guards s c := by
  refine (guards_empty hc).replace ht ?_
  rwa [current_empty, String.toList_append]

/-- Fillers may be dropped. -/
theorem guards_blank (hc : s.Frames c) {ts : List Token}
    (hts : ∀ u ∈ ts, s.Has u ∧ u.kind.isFiller = true) : (empty.blank ts).Guards s c :=
  List.foldlRecOn ts _ (guards_empty hc) fun _ hchange u hu =>
    hchange.replace (hts u hu).1 (Stream.guards_filler (hts u hu).2 (by simp) (by simp))

/-- A change that rewrites one comment writes nothing in the others. -/
theorem Guards.of_frames (hd : s.Frames d) (hwithin : change.Within s d.Covers)
    (h : change.Guards s d) (hc : s.Frames c) : change.Guards s c := by
  intro t ht hcovers
  by_cases hkept : change.current t = t.text
  · rw [hkept]
    exact hc.guards_text ht hcovers.1 hcovers.2
  · obtain ⟨hfrom, hto⟩ := hwithin t ht hkept
    obtain rfl := hc.eq_of_mem hd hcovers.1 hcovers.2 hfrom hto
    exact h t ht hcovers

end Changeset

/-! ## Fixes of the layout -/

/-- White space that leads a token is white space of code. -/
theorem Stream.Sound.isCodeSpace_leadingWhitespace (hs : s.Sound) {i : Nat}
    {leading : String} (h : s.leadingWhitespace? i = some leading) :
    ∀ d ∈ leading.toList, isCodeSpace d = true := by
  rcases hs.leadingWhitespace?_eq_some h with ⟨rfl, -⟩ | ⟨t, ht, -, rfl, hkind | hkind, hled⟩
  · simp
  · exact hs.spaced ht hkind
  · rcases hs.blank ht hkind with hending | hblank
    · have hends := hled.1
      rw [Stream.Frames.endsLine_of_isEnding hending] at hends
      cases hends
    · exact fun d hd => isCodeSpace_of_isBlank (hblank d hd)

/-- The indentation of the stars of a block is white space. -/
theorem Block.isCodeSpace_starIndent (hs : s.Sound) (b : Block) :
    ∀ d ∈ (b.starIndent s).toList, isCodeSpace d = true := by
  have hspaces : ∀ n, ∀ d ∈ (spaces n).toList, isCodeSpace d = true :=
    fun n d hd => isCodeSpace_of_isBlank (isBlank_spaces n d hd)
  unfold starIndent
  split
  · next star hstar =>
      cases hleading : s.leadingWhitespace? star.index with
      | none => exact hspaces _
      | some leading => exact hs.isCodeSpace_leadingWhitespace hleading
  · split
    · next leading hleading =>
        rw [String.toList_append]
        intro d hd
        rcases List.mem_append.1 hd with hd | hd
        · exact hs.isCodeSpace_leadingWhitespace hleading d hd
        · obtain rfl : d = ' ' := by simpa using hd
          rfl
    · exact hspaces _

/-- The indent of the stars holds no slash. -/
theorem Block.not_mem_starIndent (hs : s.Sound) (b : Block) : '/' ∉ (b.starIndent s).toList :=
  fun hmem => absurd (b.isCodeSpace_starIndent hs _ hmem) (by decide)

/-- Nothing but its open marker stands on a line of a comment in front of the first content. -/
theorem Stream.Frames.takesTag_of_vacant (hs : s.Placed) {p : Spot} (hp : c.SpotAt s t.index p)
    (hvacant : s.Vacant (c.opener.index + 1) t.index) : p.takesTag = true := by
  refine hp.takesTag rfl fun l hl => ?_
  obtain ⟨u, hu, rfl⟩ := List.mem_map.1 hl
  obtain ⟨hhas, hfrom, hto⟩ := hs.mem_between.1 hu
  exact hvacant u hhas hfrom hto

namespace Layout

/-- Moving the content off the open line leaves the comment guarded. -/
theorem guards_openLine (hs : s.Sound) (hc : s.Frames c) {first : Token}
    (hfirst : (Block.ofSpan s c).first = some first) :
    (openLine s (Block.ofSpan s c) first).Guards s c := by
  obtain ⟨hcontent, hvacant⟩ := contains_first hs.toPlaced hc hfirst
  intro t ht hcovers
  rw [current_openLine hs hc hfirst ht]
  split
  · next hindex =>
      obtain rfl := ht.eq hc.opener hindex
      rw [String.toList_append]
      exact Stream.guards_opener hc.openerKind (s.isEnding_eol.not_mem (by decide))
  split
  · next hindex =>
      obtain rfl := ht.eq hcontent.has hindex
      obtain ⟨p, hp⟩ := hc.exists_spotAt hcontent.opener_lt (Nat.le_of_lt hcontent.lt_closer)
      rw [String.toList_append]
      refine Stream.guards_before hcontent.content hp
        (Stream.Frames.takesTag_of_vacant hs.toPlaced hp hvacant) ?_
      rw [String.toList_append, List.mem_append, not_or]
      exact ⟨Block.not_mem_starIndent hs _, by decide⟩
  split
  · next hrange =>
      exact Stream.guards_filler (hvacant t ht hrange.1 hrange.2) (by simp) (by simp)
  · exact hc.guards_text ht hcovers.1 hcovers.2

/-- Moving the close marker to its own line leaves the comment guarded. -/
theorem guards_closeLine (hs : s.Sound) (hc : s.Frames c) {last : Token}
    (hlast : s.Vacant (last.index + 1) c.closer.index) :
    (closeLine s (Block.ofSpan s c) last).Guards s c := by
  intro t ht hcovers
  rw [current_closeLine hs hc last ht]
  split
  · next hindex =>
      obtain rfl := ht.eq hc.closer hindex
      rw [String.toList_append, String.toList_append]
      refine Stream.guards_closer hc.closerKind ?_
      rw [List.mem_append, not_or]
      exact ⟨s.isEnding_eol.not_mem (by decide), Block.not_mem_starIndent hs _⟩
  split
  · next hrange => exact Stream.guards_filler (hlast t ht hrange.1 hrange.2) (by simp) (by simp)
  · exact hc.guards_text ht hcovers.1 hcovers.2

/-- Dropping the lines in front of the close marker leaves the comment guarded. -/
theorem guards_blankBeforeClose (hs : s.Placed) (hc : s.Frames c) {last : Token}
    (hlast : s.lastBetween (!·.isFiller) c.opener.index c.closer.index = some last)
    (hline : last.line + 1 < c.closer.line) :
    (blankBeforeClose s (Block.ofSpan s c) last).Guards s c := by
  obtain ⟨hhas, hfrom, hto, -, hvacant⟩ := hs.lastBetween.1 hlast
  obtain ⟨bottom, hbottom, hlt, hle, -⟩ := hc.exists_firstOn hs hhas hc.closer hfrom
    (Nat.le_refl _) c.closer.line (by omega) (Nat.le_refl _)
  intro t ht hcovers
  rw [drops_blankBeforeClose hs hc hbottom hlt t ht]
  split
  · next hrange =>
      have hfiller : t.kind.isFiller = true := by
        simpa using hvacant t ht (by omega) (by omega)
      exact Stream.guards_filler hfiller (by simp) (by simp)
  · exact hc.guards_text ht hcovers.1 hcovers.2

/-- Dropping the lines in front of the short description leaves the comment guarded. -/
theorem guards_blankBeforeShort (hs : s.Placed) (hc : s.Frames c) {short : Description}
    (hshort : (Block.ofSpan s c).short = some short) :
    (blankBeforeShort s (Block.ofSpan s c) short).Guards s c := by
  obtain ⟨-, hvacant⟩ := contains_first hs hc (Block.short_first hs hc hshort).1
  refine Changeset.guards_blank hc fun u hu => ?_
  obtain ⟨hbetween, hline⟩ := List.mem_filter.1 hu
  obtain ⟨hhas, -, hto⟩ := hs.mem_between.1 hbetween
  simp only [Block.ofSpan_opener, Bool.and_eq_true, decide_eq_true_eq] at hline
  refine ⟨hhas, hvacant u hhas ?_ hto⟩
  by_contra hnot
  have := hs.line_le hhas hc.opener (by omega)
  omega

/-- Dropping the lines between the descriptions leaves the comment guarded. -/
theorem guards_blankBetween (hs : s.Placed) (hc : s.Frames c) {short long : Description}
    (hshort : (Block.ofSpan s c).short = some short)
    (hlong : (Block.ofSpan s c).long = some long) : (blankBetween s short long).Guards s c := by
  obtain ⟨-, -, -, -, hfiller⟩ := Block.long_first hs hc hshort hlong
  refine Changeset.guards_blank hc fun u hu => ?_
  obtain ⟨hbetween, -⟩ := List.mem_filter.1 hu
  obtain ⟨hhas, hfrom, hto⟩ := hs.mem_between.1 hbetween
  exact ⟨hhas, hfiller u hhas hfrom hto⟩

/-- Leaving one blank line in front of a tag leaves the comment guarded. -/
theorem guards_singleBlankLine (hs : s.Sound) (hc : s.Frames c) {previous : Token} {tag : Tag}
    (htag : tag ∈ (Block.ofSpan s c).tags)
    (hprevious :
      s.lastBetween Kind.isDocContent (c.opener.index + 1) tag.token.index = some previous)
    {indent : String} (hindent : '/' ∉ indent.toList) :
    (singleBlankLine s previous tag.token indent).Guards s c := by
  have hfits := Block.fits_of_mem_tags hs.toPlaced hc htag
  obtain ⟨hhas, hopener, hlt, hkind, hlast⟩ := hs.lastBetween.1 hprevious
  have hstop := hfits.lt_stop
  have hclose := hfits.stop_le
  have hline := hc.line_lt_of_tag hs.toPlaced hhas hfits.token hopener (by omega) hkind hfits.kind
    hlt
  obtain ⟨bottom, hbottom, hle⟩ := hs.toPlaced.exists_firstOn hfits.token
  intro t ht hcovers
  rw [current_singleBlankLine hs.toPlaced hhas hfits.token hbottom indent ht]
  split
  · next hindex =>
      obtain rfl := ht.eq hhas hindex
      rw [String.toList_append]
      refine hc.guards_behind ⟨hhas, hopener, by omega, hkind⟩ ?_ fun u hu hbehind => ?_
      · have heol : '/' ∉ s.eol.toList := s.isEnding_eol.not_mem (by decide)
        simp only [String.toList_append, List.mem_append, not_or]
        exact ⟨⟨⟨heol, hindent⟩, by decide⟩, heol⟩
      · -- the next content is the tag, which stands on a later line
        have hnext : tag.token.index ≤ u.index := by
          by_contra hnot
          have hnone := hlast u hu.has hbehind (by omega)
          rw [hu.content] at hnone
          cases hnone
        have := hs.line_le hfits.token hu.has hnext
        omega
  split
  · next hrange =>
      refine Stream.guards_filler ?_ (by simp) (by simp)
      by_contra hfiller
      have hcontent := (hc.isFiller_eq_false ht (by omega) (by omega)).1 (by simpa using hfiller)
      rw [hlast t ht hrange.1 (by omega)] at hcontent
      cases hcontent
  · exact hc.guards_text ht hcovers.1 hcovers.2

/-- Padding the value of a tag leaves the comment guarded. -/
theorem guards_pad (hs : s.Sound) (hc : s.Frames c) {m : Misalignment} (hfits : m.tag.Fits s c)
    (hvalue : m.tag.value = some m.value) : (pad m).Guards s c := by
  have hspaces := isBlank_spaces m.expected.toNat
  unfold pad
  split
  · next blank hblank =>
      obtain ⟨hhas, hkind, -⟩ := hfits.padding blank hblank
      exact (Changeset.guards_empty hc).replace hhas <| Stream.guards_blanks hkind
        (fun d hd => isCodeSpace_of_isBlank (hspaces d hd)) (unbroken_of_blank hspaces)
  · have hcontent := hfits.contains_value hvalue
    refine Changeset.guards_prepend hc hcontent.has (hfits.guards_value hs hc hvalue
      (unbroken_append.2 ⟨unbroken_of_blank hspaces, hc.unbroken_content hcontent⟩)
      (unclosed_append_right (IsBlanks.not_mem hspaces (by decide)) ?_
        (hc.unclosed_text hcontent)))
    exact fun hlast => IsBlanks.not_mem hspaces (by decide) (List.mem_of_getLast? hlast)

/-- Moving a star to its column leaves the comment guarded. -/
theorem guards_indent (hs : s.Sound) (hc : s.Frames c) (b : Block) {blank : Option Token}
    (ht : s.Has t) (hline : s.lineIndent? t.index = some blank)
    (hkind : t.kind = .docStar ∨ t.kind = .docClose) (hfrom : c.opener.index < t.index)
    (hto : t.index ≤ c.closer.index) : (indent s b t blank).Guards s c := by
  have hslash := b.not_mem_starIndent hs
  unfold indent
  cases blank with
  | some blank =>
      obtain ⟨hblank, -, hblankKind, -⟩ := hs.toPlaced.lineIndent?_some_some hline
      exact (Changeset.guards_empty hc).replace hblank <|
        Stream.guards_blanks hblankKind (b.isCodeSpace_starIndent hs) (b.unbroken_starIndent hs)
  | none =>
      refine Changeset.guards_prepend hc ht ?_
      rcases hkind with hstar | hclose
      · have hfiller : t.kind.isFiller = true := by
          rw [hstar]
          rfl
        have hguards := hc.guards_text ht (Nat.le_of_lt hfrom) hto
        refine Stream.guards_filler hfiller ?_ fun hblank => ?_
        · rw [List.mem_append, not_or]
          exact ⟨hslash, hguards.filler hfiller⟩
        · rw [hstar] at hblank
          cases hblank
      · exact Stream.guards_closer hclose hslash

/-- What a fix of the layout writes in its comment guards the slashes of the comment. -/
theorem Repair.guards (hs : s.Sound) (hc : s.Frames c) (h : Repair s c change) :
    change.Guards s c := by
  have hplaced := hs.toPlaced
  cases h with
  | openLine first_eq line => exact guards_openLine hs hc first_eq
  | closeLine last_eq line =>
      obtain ⟨-, -, -, -, hlast⟩ := hplaced.lastBetween.1 last_eq
      exact guards_closeLine hs hc fun u hu hfrom hto => by simpa using hlast u hu hfrom hto
  | blankBeforeClose last_eq line => exact guards_blankBeforeClose hplaced hc last_eq line
  | blankBeforeShort short_eq line => exact guards_blankBeforeShort hplaced hc short_eq
  | blankBetween short_eq long_eq line => exact guards_blankBetween hplaced hc short_eq long_eq
  | blankBeforeTag tag previous_eq line =>
      exact guards_singleBlankLine hs hc tag previous_eq (Block.not_mem_starIndent hs _)
  | @pad g m group misaligned =>
      obtain ⟨t, htag, hmis⟩ := TagGroup.mem_misaligned.1 misaligned
      obtain ⟨value, hvalue, -, rfl⟩ := TagGroup.misalignment?_eq_some.1 hmis
      have hfits := Block.fits_of_mem_tags hplaced hc (Block.mem_tags_of_groups group htag)
      exact guards_pad hs hc hfits hvalue
  | indent has opener_lt le_closer kind indent_eq column =>
      exact guards_indent hs hc _ has indent_eq kind opener_lt le_closer

end Layout

/-! ## Fixes of values -/

namespace FunctionRule

/-- Another type in front of the rest of a value holds no close marker when the value held none and
no slash starts the rest. -/
theorem unclosed_retype {value : Token} {old : String} {rest : List Char}
    (htext : value.text.toList = old.toList ++ rest) (hbound : rest.head? ≠ some '/')
    (hunclosed : Unclosed value.text.toList) :
    Unclosed (TypeName.normalize old ++ dropChars old.length value.text).toList := by
  rw [String.toList_append, toList_dropChars htext]
  rw [htext, unclosed_append] at hunclosed
  obtain ⟨hold, hrest, -⟩ := hunclosed
  exact unclosed_append.2 ⟨TypeName.unclosed_normalize hold, hrest, fun hjoin => hbound hjoin.2⟩

/-- Another spelling of a type leaves the comment guarded, unless a slash follows the type. -/
theorem guards_retype (hs : s.Sound) (hc : s.Frames c) {tag : Tag} (htag : tag.Fits s c)
    {value : Token} (hvalue : tag.value = some value) {old : String} {rest : List Char}
    (htext : value.text.toList = old.toList ++ rest) (hbound : rest.head? ≠ some '/') :
    (retype value old (TypeName.normalize old)).Guards s c := by
  have hcontent := htag.contains_value hvalue
  have hline := hc.unbroken_content hcontent
  refine (Changeset.guards_empty hc).replace hcontent.has (htag.guards_value hs hc hvalue ?_
    (unclosed_retype htext hbound (hc.unclosed_text hcontent)))
  rw [String.toList_append, toList_dropChars htext]
  rw [htext, unbroken_append] at hline
  exact unbroken_append.2 ⟨TypeName.unbroken_normalize hline.1, hline.2⟩

/-- Another padding in a parameter tag leaves the comment guarded, unless its value closes it. -/
theorem guards_respace (hs : s.Sound) (hc : s.Frames c) {p : ParamTag}
    (hp : p ∈ (Block.ofSpan s c).paramTags s) {content : String} (hline : Unbroken content.toList)
    (hunclosed : ∀ v, p.tag.value = some v → Unclosed content.toList) (required found : Int) :
    (respace s p content required found).Guards s c := by
  refine respace_induction (fun _ => Changeset.guards_empty hc) (fun v hv => ?_)
    fun line _ blank hblank change n hchange => ?_
  · obtain ⟨t, ht, -, htag⟩ := ParamTag.exists_of_mem_paramTags hp
    have hfits := Block.fits_of_mem_tags hs.toPlaced hc ht
    rw [htag] at hv hunclosed
    exact (Changeset.guards_empty hc).replace (hfits.contains_value hv).has
      (hfits.guards_value hs hc hv hline (hunclosed v hv))
  · obtain ⟨hhas, -, hkind, -⟩ := ParamTag.has_of_indentToken? hs.toPlaced hblank
    have hspaces := isBlank_spaces n
    exact hchange.replace hhas <| Stream.guards_blanks hkind
      (fun d hd => isCodeSpace_of_isBlank (hspaces d hd)) (unbroken_of_blank hspaces)

/-- What is dropped behind a comment is no token of a comment. -/
theorem guards_blankAfterComment (hs : s.Placed) (hc : s.Frames c)
    {closer keyword following : Token} :
    (blankAfterComment s closer keyword following).Guards s c := by
  intro t ht hcovers
  by_cases hkept : (blankAfterComment s closer keyword following).current t = t.text
  · rw [hkept]
    exact hc.guards_text ht hcovers.1 hcovers.2
  · have hspace := (current_blankAfterComment hs ht hkept).1
    have hdoc := hc.isDoc_of_mem ht hcovers.1 hcovers.2
    rw [hspace] at hdoc
    cases hdoc

end FunctionRule

/-- What a repair writes guards the slashes of every comment. -/
theorem Repair.guards (hs : s.Sound) (hc : s.Frames c) (h : Repair s change) :
    change.Guards s c := by
  have hplaced := hs.toPlaced
  cases h with
  | layout frames repair =>
      exact (repair.guards hs frames).of_frames frames (repair.within hs frames) hc
  | @paramType d p value frames param type value_eq change =>
      obtain ⟨t, ht, -, htag⟩ := ParamTag.exists_of_mem_paramTags param
      obtain ⟨v, pv, space, tail, hv, hhas, -, hpv, hparts⟩ :=
        FunctionRule.exists_value hplaced frames param type
      obtain rfl : v = value := Option.some.inj (hv.symm.trans value_eq)
      have htext : v.text.toList = p.type.toList ++ (space ++ tail) := by
        rw [hparts.text, show p.type = pv.type by simp [ParamTag.type, hpv], List.append_assoc]
      have hfits := Block.fits_of_mem_tags hplaced frames ht
      have hguards := FunctionRule.guards_retype hs frames hfits (htag ▸ hv) htext hparts.bound
      exact hguards.of_frames frames ((Changeset.within_empty s _).replace hhas
        (ParamTag.covers_value hplaced frames param hv).2 _) hc
  | @firstWord d t value frames tag value_eq change =>
      have hfits := Block.fits_of_mem_tags hplaced frames tag
      have htext : value.text.toList = (before ' ' value.text).toList ++
          value.text.toList.dropWhile (· != ' ') := by
        rw [before, String.toList_ofList, List.takeWhile_append_dropWhile]
      have hbound : (value.text.toList.dropWhile (· != ' ')).head? ≠ some '/' :=
        fun hhead => absurd (head?_dropWhile_eq hhead) (by decide)
      exact (FunctionRule.guards_retype hs frames hfits value_eq htext hbound).of_frames frames
        ((Changeset.within_empty s _).replace (hfits.value _ value_eq).1
          (hfits.covers_value value_eq) _) hc
  | @padType d p frames param type var space =>
      refine (FunctionRule.guards_respace hs frames param
        (ParamTag.unbroken_render hplaced frames param _ _) (fun v hv => ?_) _ _).of_frames frames
        (FunctionRule.within_respace hplaced frames param _ _ _) hc
      exact ParamTag.unclosed_render param hv
        (ParamTag.unclosed_value hplaced frames param hv) var id
  | @padName d p frames param type var comment space =>
      refine (FunctionRule.guards_respace hs frames param
        (ParamTag.unbroken_render hplaced frames param _ _) (fun v hv => ?_) _ _).of_frames frames
        (FunctionRule.within_respace hplaced frames param _ _ _) hc
      refine ParamTag.unclosed_render param hv
        (ParamTag.unclosed_value hplaced frames param hv) var fun hzero => ?_
      have hrequired := one_le_requiredPadding (ParamTag.length_var_le_longest param)
      omega
  | blankAfterComment frames has kind documents lt following_eq line =>
      exact FunctionRule.guards_blankAfterComment hplaced hc

end PhpDoc
