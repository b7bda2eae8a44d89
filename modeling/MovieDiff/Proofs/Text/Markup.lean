import MovieDiff.Proofs.Results
import MovieDiff.Proofs.Text.Characters
import MovieDiff.Text.Markup

/-!
Markup that comes out as the text it was made from. The characters that never reach the screen are
in no text that markup gives. Main statement: a text with neither those nor a backslash, escaped and
put between the tags of a style, gives that text again, brackets and all.
-/
namespace MovieDiff.Text

open List

variable {cs : List Char} {c : Char} {text name : String}

/-! ### Characters that are dropped -/

theorem filter_isDropped_eq_self (h : ∀ c ∈ cs, isDropped c = false) :
    cs.filter (fun c => !isDropped c) = cs :=
  filter_eq_self.2 fun c hc => by rw [h c hc, Bool.not_false]

theorem dropControls_eq_self {s : String} (h : ∀ c ∈ s.toList, isDropped c = false) :
    dropControls s = s := by
  rw [dropControls, filter_isDropped_eq_self h, String.ofList_toList]

namespace Markup

variable (s : State)

namespace State

variable {s s' : State}

/-- No character that is dropped is in the text so far. -/
def Shown (s : State) : Prop :=
  ∀ c ∈ s.plain, isDropped c = false

theorem Shown.addText (h : s.Shown) (cs : List Char) : (s.addText cs).Shown := by
  intro c hc
  obtain hc | hc := mem_append.1 hc
  · exact h c hc
  · simpa using (mem_filter.1 hc).2

theorem plain_of_close {style : OpenStyle} (h : s.close style = .ok s') : s'.plain = s.plain := by
  obtain ⟨text, -, hs⟩ := exists_of_bind_eq_ok h
  rw [← Except.ok.inj hs]

theorem plain_of_closeTag {inner : List Char} (h : s.closeTag inner = .ok s') :
    s'.plain = s.plain := by
  unfold closeTag at h
  split at h
  · split at h
    · exact plain_of_close h
    · cases h
  · obtain ⟨name, -, h⟩ := exists_of_bind_eq_ok h
    split at h
    · exact plain_of_close h
    · cases h

/-- Tags change the styles only. -/
theorem plain_of_addTag {inner : List Char} (h : s.addTag inner = .ok s') : s'.plain = s.plain := by
  unfold addTag at h
  split at h
  · exact plain_of_closeTag h
  · obtain ⟨name, -, hs⟩ := exists_of_bind_eq_ok h
    rw [← Except.ok.inj hs]

theorem Shown.addPiece (h : s.Shown) {piece : Piece} (hpiece : s.addPiece piece = .ok s') :
    s'.Shown := by
  cases piece with
  | literal cs =>
    rw [← Except.ok.inj hpiece]
    exact h.addText _
  | tag slashes inner =>
    simp only [State.addPiece] at hpiece
    split at hpiece
    · rw [← Except.ok.inj hpiece]
      exact (h.addText _).addText _
    · intro c hc
      rw [plain_of_addTag hpiece] at hc
      exact h.addText _ c hc

theorem Shown.foldlM_addPiece {pieces : List Piece} (h : s.Shown)
    (hpieces : pieces.foldlM State.addPiece s = .ok s') : s'.Shown := by
  induction pieces generalizing s with
  | nil => rwa [← Except.ok.inj hpieces]
  | cons piece pieces ih =>
    obtain ⟨next, hnext, hrest⟩ := exists_of_bind_eq_ok hpieces
    exact ih (h.addPiece hnext) hrest

end State

/-- No text that markup gives has a character that is dropped. -/
theorem isDropped_of_mem_ofMarkup {markup : String} {line : StyledText}
    (h : StyledText.ofMarkup markup = .ok line) (hc : c ∈ line.plain.toList) :
    isDropped c = false := by
  unfold StyledText.ofMarkup at h
  split at h
  · rw [← Except.ok.inj h, StyledText.ofPlain, dropControls, String.toList_ofList] at hc
    simpa using (mem_filter.1 hc).2
  · obtain ⟨state, hstate, hline⟩ := exists_of_bind_eq_ok h
    rw [← Except.ok.inj hline, State.finish, String.toList_ofList] at hc
    have hnone : State.Shown ⟨[], [], []⟩ := forall_mem_nil _
    exact hnone.foldlM_addPiece hstate c hc

/-! ### Scanning -/

def isInner (c : Char) : Bool :=
  c ≠ '[' && c ≠ ']'

/-- What stands between the brackets of a tag. -/
structure IsTag (inner : List Char) : Prop where
  head : ∃ c word, inner = c :: word ∧ opensTag c ∧ ∀ d ∈ word, isInner d

/-- A tag is read back. -/
theorem tagAt?_bracketed {inner : List Char} (h : IsTag inner) (rest : List Char) :
    tagAt? (bracketed inner ++ rest) = some (inner, rest) := by
  obtain ⟨c, word, rfl, hopens, hword⟩ := h.head
  have hstop : ∀ d ∈ (']' :: rest).head?, isInner d = false := by
    rintro d ⟨⟩
    rfl
  have htake : (word ++ ']' :: rest).takeWhile isInner = word :=
    takeWhile_append_of_head hword hstop
  have hdrop : (word ++ ']' :: rest).dropWhile isInner = ']' :: rest :=
    dropWhile_append_of_head hword hstop
  have hcs : bracketed (c :: word) ++ rest = '[' :: c :: (word ++ ']' :: rest) := by
    simp [bracketed]
  rw [hcs]
  unfold isInner at htake hdrop
  simp only [tagAt?, hopens, if_true, htake, hdrop]

theorem isTag_of_tagAt? {inner after : List Char} (h : tagAt? cs = some (inner, after)) :
    IsTag inner ∧ cs = bracketed inner ++ after := by
  unfold tagAt? at h
  split at h
  next c tail =>
    split at h
    next hopens =>
      split at h
      next later hdrop =>
        obtain ⟨rfl, rfl⟩ := Prod.mk.inj (Option.some.inj h)
        have hcut := takeWhile_append_dropWhile
          (p := fun d => decide (d ≠ '[') && decide (d ≠ ']')) (l := tail)
        rw [hdrop] at hcut
        refine ⟨⟨c, _, rfl, hopens, fun d hd => mem_takeWhile_imp hd⟩, ?_⟩
        simp only [bracketed, cons_append, append_assoc, nil_append]
        rw [hcut]
      · cases h
    · cases h
  · cases h

theorem tagAt?_of_ne (h : c ≠ '[') (cs : List Char) : tagAt? (c :: cs) = none := by
  unfold tagAt?
  split
  next heq => exact absurd (List.cons.inj heq).1 h
  · rfl

theorem takeWhile_isSlash_backslashes (n : Nat) {rest : List Char}
    (h : ∀ c ∈ rest.head?, isSlash c = false) :
    (backslashes n ++ rest).takeWhile isSlash = backslashes n ∧
      (backslashes n ++ rest).dropWhile isSlash = rest := by
  have hall : ∀ c ∈ backslashes n, isSlash c := by
    intro c hc
    rw [eq_of_mem_replicate hc]
    rfl
  exact ⟨takeWhile_append_of_head hall h, dropWhile_append_of_head hall h⟩

theorem scan_tag (n : Nat) {inner : List Char} (h : IsTag inner) (rest : List Char) :
    scan (backslashes n ++ (bracketed inner ++ rest)) = .tag n inner :: scan rest := by
  have hhead : ∀ c ∈ (bracketed inner ++ rest).head?, isSlash c = false := by
    rintro c ⟨⟩
    rfl
  obtain ⟨htake, hdrop⟩ := takeWhile_isSlash_backslashes n hhead
  obtain ⟨c, cs, hcs⟩ : ∃ c cs, backslashes n ++ (bracketed inner ++ rest) = c :: cs := by
    cases hn : backslashes n with
    | nil => exact ⟨'[', _, rfl⟩
    | cons c cs => exact ⟨c, _, rfl⟩
  have htag := tagAt?_bracketed h rest
  rw [hcs] at htake hdrop ⊢
  rw [← hdrop] at htag
  rw [scan]
  split
  next found after heq =>
    obtain ⟨rfl, rfl⟩ := Prod.mk.inj (Option.some.inj (htag.symm.trans heq))
    rw [htake, backslashes, length_replicate]
  next heq => cases htag.symm.trans heq

theorem scan_literal (hc : c ≠ '\\') (h : tagAt? (c :: cs) = none) :
    scan (c :: cs) = .literal [c] :: scan cs := by
  have hslash : isSlash c = false := beq_eq_false_iff_ne.2 hc
  have htake : (c :: cs).takeWhile isSlash = [] :=
    takeWhile_cons_of_neg (by simp [hslash])
  have hdrop : (c :: cs).dropWhile isSlash = c :: cs :=
    dropWhile_cons_of_neg (by simp [hslash])
  rw [scan]
  split
  next heq =>
    rw [hdrop, h] at heq
    cases heq
  · split
    next heq _ =>
      rw [hdrop] at heq
      cases heq
    next d after _ _ heq _ =>
      rw [hdrop] at heq
      obtain ⟨rfl, rfl⟩ := List.cons.inj heq
      rw [htake, nil_append]

/-! ### Escaped text -/

def escaped (cs : List Char) : List Char :=
  (scan cs).flatMap escapePiece

@[simp] theorem escaped_nil : escaped [] = [] := by
  rw [escaped, scan, flatMap_nil]

/-- A tag is escaped by a backslash. -/
theorem escaped_tag {inner : List Char} (h : IsTag inner) (rest : List Char) :
    escaped (bracketed inner ++ rest) = '\\' :: (bracketed inner ++ escaped rest) := by
  have hscan := scan_tag 0 h rest
  rw [backslashes, replicate_zero, nil_append] at hscan
  rw [escaped, hscan, flatMap_cons, escapePiece, ← escaped]
  rfl

theorem escaped_literal (hc : c ≠ '\\') (h : tagAt? (c :: cs) = none) :
    escaped (c :: cs) = c :: escaped cs := by
  rw [escaped, scan_literal hc h, flatMap_cons, ← escaped]
  rfl

theorem escaped_eq_self (h : ∀ c ∈ cs, c ≠ '[' ∧ c ≠ '\\') : escaped cs = cs := by
  induction cs with
  | nil => exact escaped_nil
  | cons c cs ih =>
    obtain ⟨hbracket, hslash⟩ := h c mem_cons_self
    rw [escaped_literal hslash (tagAt?_of_ne hbracket cs),
      ih fun d hd => h d (mem_cons_of_mem c hd)]

/-- A text without backslashes is empty, or starts with a tag, or with a character that starts
none. -/
theorem text_induction {motive : List Char → Prop} (nil : motive [])
    (tag : ∀ inner rest, IsTag inner → motive rest → motive (bracketed inner ++ rest))
    (literal : ∀ c cs, c ≠ '\\' → '\\' ∉ cs → tagAt? (c :: cs) = none → motive cs →
      motive (c :: cs))
    (cs : List Char) (h : '\\' ∉ cs) : motive cs := by
  match cs with
  | [] => exact nil
  | c :: cs =>
    match htag : tagAt? (c :: cs) with
    | none =>
      rw [mem_cons, not_or] at h
      exact literal c cs (Ne.symm h.1) h.2 htag (text_induction nil tag literal cs h.2)
    | some (inner, rest) =>
      have hshorter : rest.length < cs.length + 1 := tagAt?_shorter htag
      obtain ⟨hinner, hcs⟩ := isTag_of_tagAt? htag
      rw [hcs] at h ⊢
      have hrest : '\\' ∉ rest := fun hmem => h (mem_append_right _ hmem)
      exact tag inner rest hinner (text_induction nil tag literal rest hrest)
termination_by cs.length
decreasing_by
  all_goals
    rw [length_cons]
    omega

def Closes (cs : List Char) : Prop :=
  (cs.dropWhile isInner).head? = some ']'

theorem closes_cons (h : isInner c) (cs : List Char) : Closes (c :: cs) ↔ Closes cs := by
  rw [Closes, dropWhile_cons_of_pos h, ← Closes]

theorem tagAt?_cons_cons :
    tagAt? ('[' :: c :: cs) = none ↔ ¬ (opensTag c ∧ Closes cs) := by
  unfold Closes isInner
  simp only [tagAt?]
  cases opensTag c with
  | false => simp
  | true =>
    cases hdrop : cs.dropWhile fun d => decide (d ≠ '[') && decide (d ≠ ']') with
    | nil => simp
    | cons d after =>
      by_cases hd : d = ']'
      · simp [hd]
      · simp [hd]

/-- Where an opening bracket follows, escaping does not change which bracket comes first. -/
theorem closes_escaped_append (cs rest : List Char) (h : '\\' ∉ cs) :
    Closes (escaped cs ++ '[' :: rest) ↔ Closes cs := by
  refine text_induction (motive := fun cs => Closes (escaped cs ++ '[' :: rest) ↔ Closes cs)
    ?_ ?_ ?_ cs h
  · simp [Closes, isInner]
  · intro inner cs hinner _
    rw [escaped_tag hinner, cons_append, closes_cons (by decide)]
    simp [bracketed, Closes, isInner]
  · intro c cs hc _ htag ih
    rw [escaped_literal hc htag, cons_append]
    by_cases hinner : isInner c
    · rw [closes_cons hinner, closes_cons hinner, ih]
    · simp only [Closes, dropWhile_cons_of_neg hinner, head?_cons]

/-- Escaping makes no new tag. -/
theorem tagAt?_escaped (hcs : '\\' ∉ cs) (h : tagAt? (c :: cs) = none) (rest : List Char) :
    tagAt? (c :: (escaped cs ++ '[' :: rest)) = none := by
  by_cases hc : c = '['
  · -- After the bracket stands the same character as before, or a backslash.
    subst hc
    cases cs with
    | nil =>
      rw [escaped_nil, nil_append]
      exact tagAt?_cons_cons.2 fun hopens => absurd hopens.1 (by decide)
    | cons d ds =>
      rw [mem_cons, not_or] at hcs
      cases htag : tagAt? (d :: ds) with
      | some found =>
        obtain ⟨hinner, heq⟩ := isTag_of_tagAt? htag
        rw [heq, escaped_tag hinner]
        exact tagAt?_cons_cons.2 fun hopens => absurd hopens.1 (by decide)
      | none =>
        rw [escaped_literal (Ne.symm hcs.1) htag, cons_append, tagAt?_cons_cons,
          closes_escaped_append ds rest hcs.2]
        exact tagAt?_cons_cons.1 h
  · exact tagAt?_of_ne hc _

theorem endsInSlash_escaped (h : '\\' ∉ cs) : endsInSlash (escaped cs) = false := by
  have hlast : (escaped cs).getLast? ≠ some '\\' := by
    refine text_induction (motive := fun cs => (escaped cs).getLast? ≠ some '\\') ?_ ?_ ?_ cs h
    · simp
    · intro inner rest hinner ih
      rw [escaped_tag hinner, bracketed]
      cases hrest : (escaped rest).getLast? with
      | none => simp [getLast?_append, getLast?_cons, hrest]
      | some c =>
        rw [hrest] at ih
        simpa [getLast?_append, getLast?_cons, hrest] using ih
    · intro c cs hc _ htag ih
      rw [escaped_literal hc htag, getLast?_cons]
      cases hcs : (escaped cs).getLast? with
      | none => simpa using hc
      | some d => simpa [hcs] using ih
  rw [← head?_reverse] at hlast
  unfold endsInSlash
  split
  · rfl
  next heq =>
    rw [heq] at hlast
    exact absurd rfl hlast
  · rfl

theorem toList_escape (h : '\\' ∉ text.toList) : (escape text).toList = escaped text.toList := by
  rw [escape, ← escaped, endsInSlash_escaped h, String.toList_ofList]
  rfl

/-- Text without brackets and backslashes is markup already. -/
theorem escape_eq_self (h : ∀ c ∈ text.toList, c ≠ '[' ∧ c ≠ '\\') :
    escape text = text := by
  rw [← String.toList_inj, toList_escape fun hmem => (h _ hmem).2 rfl, escaped_eq_self h]

/-! ### Reading -/

theorem addText_append (cs ds : List Char) : s.addText (cs ++ ds) = (s.addText cs).addText ds := by
  simp [State.addText]

theorem addPiece_tag (inner : List Char) : s.addPiece (.tag 0 inner) = s.addTag inner := by
  simp [State.addPiece, State.addText, backslashes]

theorem addPiece_escapedTag (inner : List Char) :
    s.addPiece (.tag 1 inner) = .ok (s.addText (bracketed inner)) := by
  simp [State.addPiece, State.addText, backslashes]

theorem addPiece_character (c : Char) : s.addPiece (.literal [c]) = .ok (s.addText [c]) := by
  rw [State.addPiece]
  simp [unescapeBrackets]

/-- Reading an escaped text adds that text. -/
theorem foldlM_scan_escaped (cs rest : List Char) (h : '\\' ∉ cs) (s : State) :
    (scan (escaped cs ++ '[' :: rest)).foldlM State.addPiece s =
      (scan ('[' :: rest)).foldlM State.addPiece (s.addText cs) := by
  refine text_induction (motive := fun cs => ∀ s : State,
    (scan (escaped cs ++ '[' :: rest)).foldlM State.addPiece s =
      (scan ('[' :: rest)).foldlM State.addPiece (s.addText cs)) ?_ ?_ ?_ cs h s
  · intro s
    simp [State.addText]
  · intro inner cs hinner ih s
    have hscan : scan ('\\' :: (bracketed inner ++ (escaped cs ++ '[' :: rest))) = _ :=
      scan_tag 1 hinner (escaped cs ++ '[' :: rest)
    rw [escaped_tag hinner, addText_append, ← ih, cons_append, append_assoc, hscan,
      foldlM_cons, addPiece_escapedTag]
    rfl
  · intro c cs hc hcs htag ih s
    rw [escaped_literal hc htag, cons_append, scan_literal hc (tagAt?_escaped hcs htag rest),
      foldlM_cons, addPiece_character]
    exact (ih _).trans (by rw [← addText_append, singleton_append])

/-! ### Styled text -/

/-- A word that names a style, in a tag of its own. -/
structure IsStyleWord (style name : String) : Prop where
  first : ∃ c word, style.toList = c :: word ∧ opensTag c ∧ c ≠ '/'
  all_inner : style.toList.all fun c => isInner c && c != '='
  blank : isBlankText style.toList = false
  strip_eq : strip style.toList = style.toList
  normalText_eq : Style.normalText style = .ok name
  no_action : name.toList.head? ≠ some '@'

namespace IsStyleWord

variable {style : String} (h : IsStyleWord style name)

include h

theorem inner (hc : c ∈ style.toList) : isInner c ∧ c ≠ '=' := by
  simpa using all_eq_true.1 h.all_inner c hc

theorem isTag : IsTag style.toList := by
  obtain ⟨c, word, heq, hopens, -⟩ := h.first
  refine ⟨c, word, heq, hopens, fun _ hd => (h.inner ?_).1⟩
  rw [heq]
  exact mem_cons_of_mem _ hd

theorem isTag_close : IsTag ('/' :: style.toList) :=
  ⟨'/', style.toList, rfl, rfl, fun _ hd => (h.inner hd).1⟩

theorem takeWhile_eq : style.toList.takeWhile (fun c => c ≠ '=') = style.toList ∧
    style.toList.dropWhile (fun c => c ≠ '=') = [] := by
  have hall : ∀ c ∈ style.toList, decide (c ≠ '=') = true := fun c hc =>
    decide_eq_true (h.inner hc).2
  exact ⟨takeWhile_eq_self_iff.2 hall, dropWhile_eq_nil_iff.2 hall⟩

theorem addTag_open (s : State) : s.addTag style.toList =
    .ok { s with opened := ⟨s.plain.length, name, none⟩ :: s.opened } := by
  obtain ⟨htake, hdrop⟩ := h.takeWhile_eq
  obtain ⟨c, word, heq, -, hc⟩ := h.first
  have hopen : s.addTag style.toList = s.openTag style.toList := by
    rw [heq]
    unfold State.addTag
    split
    next hslash => exact absurd (List.cons.inj hslash).1 hc
    · rfl
  rw [hopen, State.openTag, htake, hdrop, String.ofList_toList, h.normalText_eq]
  rfl

/-- Closing the style that is open leaves the text as it is. -/
theorem addTag_close (s : State) {start : Nat} (hs : s.opened = [⟨start, name, none⟩]) :
    ∃ s', s.addTag ('/' :: style.toList) = .ok s' ∧ s'.plain = s.plain := by
  have hclosed : OpenStyle.closedText ⟨start, name, none⟩ = .ok name := by
    have haction : OpenStyle.isAction ⟨start, name, none⟩ = false :=
      beq_eq_false_iff_ne.2 h.no_action
    rw [OpenStyle.closedText, haction]
    rfl
  refine ⟨{ s with opened := [], closed := ⟨start, s.plain.length, name⟩ :: s.closed }, ?_, rfl⟩
  rw [State.addTag, State.closeTag, h.takeWhile_eq.1, h.blank, h.strip_eq, String.ofList_toList,
    h.normalText_eq, hs]
  have hfind : [OpenStyle.mk start name none].find? (fun style => style.name == name) =
      some ⟨start, name, none⟩ := by
    simp
  have herase : [OpenStyle.mk start name none].erase ⟨start, name, none⟩ = [] := by
    simp
  simp only [Bool.false_eq_true, if_false, bind, Except.bind, hfind, State.close, hs, herase,
    hclosed]
  rfl

end IsStyleWord

/-- Escaped text between the tags of a style. -/
theorem ofMarkup_styled {style : String} (hstyle : IsStyleWord style name)
    (hslash : '\\' ∉ text.toList) (hshown : ∀ c ∈ text.toList, isDropped c = false) :
    ∃ line, StyledText.ofMarkup s!"[{style}]{escape text}[/{style}]" = .ok line ∧
      line.plain = text := by
  have hmarkup : (s!"[{style}]{escape text}[/{style}]").toList = backslashes 0 ++
      (bracketed style.toList ++ (escaped text.toList ++ bracketed ('/' :: style.toList))) := by
    rw [← toList_escape hslash]
    simp [bracketed, backslashes, toString]
  have hstart := scan_tag 0 hstyle.isTag (escaped text.toList ++ bracketed ('/' :: style.toList))
  have hend : scan (bracketed ('/' :: style.toList)) = [.tag 0 ('/' :: style.toList)] := by
    have hscan := scan_tag 0 hstyle.isTag_close []
    rwa [append_nil, backslashes, replicate_zero, nil_append, scan] at hscan
  have hopen : State.addPiece ⟨[], [], []⟩ (.tag 0 style.toList) =
      .ok ⟨[], [⟨0, name, none⟩], []⟩ := by
    rw [addPiece_tag, hstyle.addTag_open]
    rfl
  obtain ⟨closed, hclose, hplain⟩ := hstyle.addTag_close
    (State.addText ⟨[], [⟨0, name, none⟩], []⟩ text.toList) rfl
  have hread : (scan (s!"[{style}]{escape text}[/{style}]").toList).foldlM State.addPiece
      ⟨[], [], []⟩ = .ok closed := by
    rw [hmarkup, hstart, foldlM_cons, hopen]
    refine (foldlM_scan_escaped text.toList _ hslash _).trans ?_
    change (scan (bracketed ('/' :: style.toList))).foldlM _ _ = _
    rw [hend, foldlM_cons, addPiece_tag, hclose]
    rfl
  have hcontains : (s!"[{style}]{escape text}[/{style}]").toList.contains '[' = true := by
    rw [hmarkup]
    rfl
  refine ⟨closed.finish, ?_, ?_⟩
  · rw [StyledText.ofMarkup, hcontains, hread]
    rfl
  change String.ofList closed.plain = text
  rw [hplain, State.addText, filter_isDropped_eq_self hshown, nil_append,
    String.ofList_toList]

end Markup

end MovieDiff.Text
