import MovieDiff.Pcode.Label
import MovieDiff.Proofs.Text.Characters

/-!
Reading back a label or a jump that was written. A label word before a colon is read as the
label of its line, and an opcode before a target word is read as a jump; a word that is only fit
as a target is not read as a label.
-/
namespace MovieDiff.Pcode

open List
open Text (isBlank stripLeft StartsClear takeWhile_append_of_head dropWhile_append_of_head)

variable {cs body word rest opcode target : List Char} {c : Char}

/-- A first character of one class and further characters of another. -/
def isWordOf (first next : Char → Bool) : List Char → Bool
  | [] => false
  | c :: tail => first c && tail.all next

def isLabelWord : List Char → Bool :=
  isWordOf isLabelStart isLabelChar

def isTargetWord : List Char → Bool :=
  isWordOf isTargetStart isTargetChar

theorem isWordOf_iff {first next : Char → Bool} :
    isWordOf first next cs ↔ ∃ c tail, cs = c :: tail ∧ first c ∧ ∀ d ∈ tail, next d := by
  cases cs with
  | nil => simp [isWordOf]
  | cons c tail =>
    simp only [isWordOf, Bool.and_eq_true, all_eq_true]
    constructor
    · rintro ⟨hc, htail⟩
      exact ⟨c, tail, rfl, hc, htail⟩
    · rintro ⟨d, rest, heq, hd, hrest⟩
      cases heq
      exact ⟨hd, hrest⟩

theorem isLabelChar_of_isBlank : isBlank c → isLabelChar c = false :=
  Text.eq_false_of_isBlank (by decide +kernel)

theorem isTargetChar_of_isTargetStart (h : isTargetStart c) : isTargetChar c := by
  simp [isTargetChar, h]

theorem isLabelChar_of_isLabelStart (h : isLabelStart c) : isLabelChar c := by
  simp [isLabelChar, h]

theorem isTargetChar_of_isLabelChar (h : isLabelChar c) : isTargetChar c := by
  simp only [isLabelChar, Bool.or_eq_true] at h
  simp only [isTargetChar, isTargetStart, Bool.or_eq_true]
  exact h.imp_left Or.inl

theorem isBlank_of_isTargetChar : isTargetChar c → isBlank c = false :=
  Text.isBlank_eq_false (by decide +kernel)

theorem isBlank_of_isLabelChar (h : isLabelChar c) : isBlank c = false :=
  isBlank_of_isTargetChar (isTargetChar_of_isLabelChar h)

theorem isTargetChar_colon : isTargetChar ':' = false := by decide +kernel

theorem isLabelChar_colon : isLabelChar ':' = false := by decide +kernel

theorem ne_colon_of_isTargetChar (h : isTargetChar c) : c ≠ ':' := by
  rintro rfl
  rw [isTargetChar_colon] at h
  cases h

/-- Every label can be a target. -/
theorem isTargetWord_of_isLabelWord (h : isLabelWord cs) : isTargetWord cs := by
  obtain ⟨c, tail, rfl, hc, htail⟩ := isWordOf_iff.1 h
  refine isWordOf_iff.2 ⟨c, tail, rfl, ?_, fun d hd => isTargetChar_of_isLabelChar (htail d hd)⟩
  simp [isTargetStart, hc]

theorem isTargetChar_of_mem (h : isTargetWord cs) (hc : c ∈ cs) : isTargetChar c := by
  obtain ⟨d, tail, rfl, hd, htail⟩ := isWordOf_iff.1 h
  rcases mem_cons.1 hc with rfl | hc
  · exact isTargetChar_of_isTargetStart hd
  · exact htail c hc

/-! ### Single lines -/

/-- A text is refused when a line feed stands before its last character. -/
theorem singleLine?_eq_none_iff : singleLine? cs = none ↔ '\n' ∈ cs.dropLast := by
  rcases eq_nil_or_concat cs with rfl | ⟨front, last, rfl⟩
  · simp [singleLine?]
  · by_cases hlast : last = '\n'
    · simp [singleLine?, hlast]
    · simp [singleLine?, hlast, Ne.symm hlast]

theorem singleLine?_of_not_mem (h : '\n' ∉ cs) : singleLine? cs = some cs := by
  have hlast : cs.getLast? ≠ some '\n' := fun hl => h (mem_of_getLast? hl)
  simp [singleLine?, hlast, h]

/-- A single line is the text itself, or what stands before a line feed at its end. -/
theorem singleLine?_eq_some (h : singleLine? cs = some body) :
    '\n' ∉ body ∧ (cs = body ∨ cs = body ++ ['\n']) := by
  unfold singleLine? at h
  dsimp only at h
  obtain ⟨hline, hbody⟩ := Option.ite_none_left_eq_some.1 h
  obtain rfl := Option.some.inj hbody
  refine ⟨by simpa using hline, ?_⟩
  split
  next hlast =>
    obtain ⟨front, rfl⟩ := getLast?_eq_some_iff.1 hlast
    exact .inr (by rw [dropLast_concat])
  · exact .inl rfl

/-- The single line of a text without leading blanks has none either. -/
theorem startsClear_singleLine? (hcs : StartsClear cs) (h : singleLine? cs = some body) :
    StartsClear body := by
  rcases (singleLine?_eq_some h).2 with rfl | rfl
  · exact hcs
  · cases body with
    | nil => rintro c ⟨⟩
    | cons c body => exact Text.startsClear_cons.2 (Text.startsClear_cons.1 hcs)

/-! ### Labels -/

theorem labelPrefix?_eq_some {label : List Char} (h : labelPrefix? cs = some (label, body)) :
    isLabelWord label ∧ StartsClear body ∧ '\n' ∉ body ∧ ∀ c ∈ body, c ∈ cs := by
  unfold labelPrefix? at h
  split at h
  · cases h
  next c tail hstrip =>
    split at h
    next hstart =>
      dsimp only at h
      split at h
      next rest hrest =>
        obtain ⟨line, hline, hpair⟩ := Option.map_eq_some_iff.1 h
        cases hpair
        obtain ⟨hsingle, hbody⟩ := singleLine?_eq_some hline
        refine ⟨isWordOf_iff.2 ⟨c, _, rfl, hstart, fun d hd => mem_takeWhile_imp hd⟩,
          startsClear_singleLine? (Text.startsClear_stripLeft _) hline, hsingle, fun d hd => ?_⟩
        have hmem : d ∈ stripLeft rest := by rcases hbody with h | h <;> simp [h, hd]
        have htail : d ∈ stripLeft (tail.dropWhile isLabelChar) :=
          hrest ▸ mem_cons_of_mem ':' (dropWhile_subset _ hmem)
        have hcs : d ∈ stripLeft cs :=
          hstrip ▸ mem_cons_of_mem c (dropWhile_subset _ (dropWhile_subset _ htail))
        exact dropWhile_subset _ hcs
      · cases h
    · cases h

/-- A written label is read back. -/
theorem labelPrefix?_write {label : List Char} (hlabel : isLabelWord label)
    (hclear : StartsClear body) (hline : '\n' ∉ body) :
    labelPrefix? (label ++ ':' :: body) = some (label, body) := by
  obtain ⟨c, tail, rfl, hc, htail⟩ := isWordOf_iff.1 hlabel
  have hstrip : stripLeft (c :: tail ++ ':' :: body) = c :: (tail ++ ':' :: body) :=
    Text.stripLeft_cons_of_not_blank (isBlank_of_isLabelChar (isLabelChar_of_isLabelStart hc)) _
  have hcolon : ∀ d ∈ (':' :: body).head?, isLabelChar d = false := by
    simp [isLabelChar_colon]
  have hblank : stripLeft (':' :: body) = ':' :: body :=
    Text.stripLeft_cons_of_not_blank (by decide) _
  simp only [labelPrefix?, hstrip, hc, if_true]
  rw [takeWhile_append_of_head htail hcolon, dropWhile_append_of_head htail hcolon, hblank]
  simp [Text.stripLeft_eq_self hclear, singleLine?_of_not_mem hline]

/-- A word before a blank is read as a label exactly when a colon comes next. -/
theorem labelPrefix?_word {blanks : List Char} {b : Char}
    (hblanks : ∀ c ∈ blanks, isBlank c = true) (hword : isLabelWord word) (hb : isBlank b) :
    labelPrefix? (blanks ++ (word ++ b :: rest)) =
      match stripLeft rest with
      | ':' :: after => (singleLine? (stripLeft after)).map fun body => (word, body)
      | _ => none := by
  obtain ⟨c, tail, rfl, hc, htail⟩ := isWordOf_iff.1 hword
  have hstrip : stripLeft (blanks ++ (c :: tail ++ b :: rest)) = c :: (tail ++ b :: rest) := by
    refine dropWhile_append_of_head hblanks ?_
    rintro d ⟨⟩
    exact isBlank_of_isLabelChar (isLabelChar_of_isLabelStart hc)
  have hstop : ∀ d ∈ (b :: rest).head?, isLabelChar d = false := by
    rintro d ⟨⟩
    exact isLabelChar_of_isBlank hb
  unfold labelPrefix?
  rw [hstrip]
  dsimp only
  rw [if_pos hc, takeWhile_append_of_head htail hstop, dropWhile_append_of_head htail hstop]
  have hblank : stripLeft (b :: rest) = stripLeft rest := Text.stripLeft_cons_of_blank hb rest
  exact hblank ▸ rfl

/-- A target word that is no label word is not read as a label. -/
theorem labelPrefix?_of_not_isLabelWord (hword : isTargetWord word)
    (hlabel : isLabelWord word = false) (body : List Char) :
    labelPrefix? (word ++ ':' :: body) = none := by
  obtain ⟨c, tail, rfl, hc, htail⟩ := isWordOf_iff.1 hword
  have hstrip : stripLeft (c :: tail ++ ':' :: body) = c :: (tail ++ ':' :: body) :=
    Text.stripLeft_cons_of_not_blank (isBlank_of_isTargetChar (isTargetChar_of_isTargetStart hc)) _
  simp only [labelPrefix?, hstrip]
  split
  next hstart =>
    -- The first character that no label may hold stands inside the word and ends the label.
    have hnot : ¬ ∀ d ∈ tail, isLabelChar d := by
      intro hall
      have := isWordOf_iff.2 ⟨c, tail, rfl, hstart, hall⟩
      rw [show isWordOf isLabelStart isLabelChar (c :: tail) = isLabelWord (c :: tail) from rfl,
        hlabel] at this
      cases this
    have hdrop : (tail ++ ':' :: body).dropWhile isLabelChar =
        tail.dropWhile isLabelChar ++ ':' :: body := by
      rw [dropWhile_append, if_neg]
      rw [List.isEmpty_iff, dropWhile_eq_nil_iff]
      exact hnot
    cases hrest : tail.dropWhile isLabelChar with
    | nil => exact absurd (dropWhile_eq_nil_iff.1 hrest) hnot
    | cons d rest =>
      have hd : isTargetChar d := htail d (dropWhile_subset _ (hrest ▸ mem_cons_self))
      rw [hdrop, hrest, cons_append,
        Text.stripLeft_cons_of_not_blank (isBlank_of_isTargetChar hd)]
      have hne := ne_colon_of_isTargetChar hd
      split
      next heq => cases heq; exact absurd rfl hne
      · rfl
  · rfl

/-- Two words divided by a blank are not read as a label and its line. -/
theorem labelPrefix?_of_words {w : Char} (hw : isBlank w = false)
    (hword : ∀ d ∈ word, isBlank d = false ∧ d ≠ ':') (hc : isBlank c = false) (hne : c ≠ ':') :
    labelPrefix? (w :: word ++ ' ' :: c :: rest) = none := by
  have hspace : isBlank ' ' := by decide
  -- Whatever of the first word no label holds, a colon does not come next.
  have hlater : ∀ part, (∀ d ∈ part, isBlank d = false ∧ d ≠ ':') →
      ∀ tail, stripLeft (part ++ ' ' :: c :: rest) ≠ ':' :: tail := by
    intro part hpart tail heq
    cases part with
    | nil =>
      rw [nil_append, Text.stripLeft_cons_of_blank hspace,
        Text.stripLeft_cons_of_not_blank hc] at heq
      exact hne (List.cons.inj heq).1
    | cons d part =>
      obtain ⟨hd, hdne⟩ := hpart d mem_cons_self
      rw [cons_append, Text.stripLeft_cons_of_not_blank hd] at heq
      exact hdne (List.cons.inj heq).1
  have hdrop : (word ++ ' ' :: c :: rest).dropWhile isLabelChar =
      word.dropWhile isLabelChar ++ ' ' :: c :: rest := by
    rw [dropWhile_append]
    split
    next hempty =>
      rw [List.isEmpty_iff] at hempty
      rw [hempty, dropWhile_cons_of_neg (by rw [isLabelChar_of_isBlank hspace]; simp)]
      rfl
    · rfl
  simp only [labelPrefix?, cons_append, Text.stripLeft_cons_of_not_blank hw, hdrop]
  split
  · split
    next tail heq =>
      exact absurd heq (hlater _ (fun d hd => hword d (dropWhile_subset _ hd)) tail)
    · rfl
  · rfl

/-! ### Jumps -/

def isJumpWord (opcode : List Char) : Bool :=
  spells ['i', 'f'] opcode || spells ['j', 'u', 'm', 'p'] opcode

theorem exists_isLetter_of_spells (h : spells word cs) (hc : c ∈ cs) :
    ∃ small ∈ word, isLetter small c := by
  induction word generalizing cs with
  | nil =>
    cases cs with
    | nil => cases hc
    | cons d cs => cases h
  | cons small word ih =>
    cases cs with
    | nil => cases h
    | cons d cs =>
      simp only [spells, Bool.and_eq_true] at h
      rcases mem_cons.1 hc with rfl | hc
      · exact ⟨small, mem_cons_self, h.1⟩
      · obtain ⟨other, hother, hletter⟩ := ih h.2 hc
        exact ⟨other, mem_cons_of_mem _ hother, hletter⟩

theorem ne_colon_of_isJumpWord (h : isJumpWord opcode) : ∀ c ∈ opcode, c ≠ ':' := by
  -- `all` is evaluated on the list alone, whichever instances are in scope
  have hif : ∀ small ∈ ['i', 'f'], isLetter small ':' = false := by
    have hall : ['i', 'f'].all (!isLetter · ':') = true := by decide
    simpa using hall
  have hjump : ∀ small ∈ ['j', 'u', 'm', 'p'], isLetter small ':' = false := by
    have hall : ['j', 'u', 'm', 'p'].all (!isLetter · ':') = true := by decide
    simpa using hall
  rintro c hc rfl
  simp only [isJumpWord, Bool.or_eq_true] at h
  rcases h with h | h
  · obtain ⟨small, hsmall, hletter⟩ := exists_isLetter_of_spells h hc
    rw [hif small hsmall] at hletter
    cases hletter
  · obtain ⟨small, hsmall, hletter⟩ := exists_isLetter_of_spells h hc
    rw [hjump small hsmall] at hletter
    cases hletter

theorem isJumpWord_ne_nil (h : isJumpWord opcode) : opcode ≠ [] := by
  rintro rfl
  exact absurd h (by decide)

theorem jumpLine?_eq_some (h : jumpLine? cs = some (opcode, target)) :
    isJumpWord opcode ∧ isTargetWord target ∧ ∀ c ∈ opcode, isBlank c = false := by
  unfold jumpLine? at h
  dsimp only at h
  split at h
  next hspells =>
    split at h
    next c tail _ _ =>
      split at h
      next hword =>
        cases h
        simp only [Bool.and_eq_true] at hword
        refine ⟨hspells, isWordOf_iff.2 ⟨c, _, rfl, hword.1, fun d hd => mem_takeWhile_imp hd⟩,
          fun d hd => ?_⟩
        simpa using mem_takeWhile_imp hd
      · cases h
    · cases h
  · cases h

/-- A jump on a single line is its opcode, blanks and its target. -/
theorem exists_blanks_of_jumpLine? (hline : '\n' ∉ cs) (h : jumpLine? cs = some (opcode, target)) :
    ∃ b blanks, isBlank b ∧ (∀ c ∈ blanks, isBlank c = true) ∧
      cs = opcode ++ b :: (blanks ++ target) := by
  have hparts : cs.takeWhile (!isBlank ·) ++ cs.dropWhile (!isBlank ·) = cs :=
    takeWhile_append_dropWhile
  have hhead := Text.head?_dropWhile (p := (!isBlank ·)) cs
  unfold jumpLine? at h
  dsimp only at h
  split at h
  · split at h
    next b rest c tail hrest hstrip =>
      split at h
      next hword =>
        cases h
        have hb : isBlank b := by simpa using hhead b (by rw [hrest]; rfl)
        rw [hrest] at hparts
        rw [hrest, Text.stripLeft_cons_of_blank hb] at hstrip
        obtain ⟨blanks, hblanks, hsplit⟩ := Text.exists_blanks_append_stripLeft rest
        rw [hstrip] at hsplit
        -- The line has no line feed, so that the target goes on to its end.
        have hend : tail.dropWhile isTargetChar = [] := by
          simp only [Bool.and_eq_true, Bool.or_eq_true, beq_iff_eq] at hword
          refine hword.2.resolve_right fun hnewline => hline ?_
          have hmem : '\n' ∈ tail := dropWhile_subset _ (hnewline ▸ mem_cons_self)
          rw [← hparts, hsplit]
          simp [hmem]
        have htarget : tail.takeWhile isTargetChar = tail := by
          have hall := @takeWhile_append_dropWhile _ isTargetChar tail
          rwa [hend, append_nil] at hall
        exact ⟨b, blanks, hb, hblanks, by rw [htarget, ← hsplit, hparts]⟩
      · cases h
    · cases h
  · cases h

/-- A written jump is read back. -/
theorem jumpLine?_write (hopcode : isJumpWord opcode) (hblank : ∀ c ∈ opcode, isBlank c = false)
    (htarget : isTargetWord target) :
    jumpLine? (opcode ++ ' ' :: target) = some (opcode, target) := by
  have hinside : ∀ c ∈ opcode, (!isBlank c) = true := fun c hc => by simp [hblank c hc]
  have hspace : ∀ c ∈ (' ' :: target).head?, (!isBlank c) = false := by
    rintro c ⟨⟩
    decide
  obtain ⟨c, tail, rfl, hc, htail⟩ := isWordOf_iff.1 htarget
  have hstrip : stripLeft (' ' :: c :: tail) = c :: tail := by
    rw [Text.stripLeft_cons_of_blank (by decide), Text.stripLeft_cons_of_not_blank
      (isBlank_of_isTargetChar (isTargetChar_of_isTargetStart hc))]
  have hspells : spells ['i', 'f'] opcode || spells ['j', 'u', 'm', 'p'] opcode := hopcode
  unfold jumpLine?
  rw [takeWhile_append_of_head hinside hspace, dropWhile_append_of_head hinside hspace]
  simp only [hspells, if_true, hstrip]
  simp [hc, dropWhile_eq_nil_iff.2 htail, takeWhile_eq_self_iff.2 htail]

/-- A line whose first word holds a colon is no jump. -/
theorem jumpLine?_of_colon (hword : ∀ c ∈ word, isBlank c = false) :
    jumpLine? (word ++ ':' :: rest) = none := by
  have hfront : (word ++ ':' :: rest).takeWhile (!isBlank ·) =
      word ++ ':' :: rest.takeWhile (!isBlank ·) := by
    rw [takeWhile_append_of_pos (fun c hc => by simp [hword c hc])]
    rfl
  have hnot : isJumpWord (word ++ ':' :: rest.takeWhile (!isBlank ·)) = false := by
    cases hjump : isJumpWord (word ++ ':' :: rest.takeWhile (!isBlank ·)) with
    | false => rfl
    | true => exact absurd rfl (ne_colon_of_isJumpWord hjump ':' (by simp))
  unfold jumpLine?
  rw [hfront]
  exact if_neg (by rw [← isJumpWord, hnot]; simp)

end MovieDiff.Pcode
