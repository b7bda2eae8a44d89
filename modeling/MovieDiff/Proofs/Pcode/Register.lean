import MovieDiff.Pcode.Register
import MovieDiff.Proofs.Pcode.Label
import MovieDiff.Proofs.Pcode.Token

/-!
Lines that name registers, and what they look like once their registers are replaced. A push
whose registers are replaced by registers still is a push of registers, with the same label; a
store whose digits are replaced still is a store.
-/
namespace MovieDiff.Pcode

open List
open Text (isBlank isDigit isWordChar stripLeft endsWord StartsClear takeWhile_append_of_head
  dropWhile_append_of_head)

variable {cs rest digits : List Char} {c : Char}

variable {ps : List Char}

theorem map_eq_self_iff {α : Type} {f : α → α} {l : List α} :
    l.map f = l ↔ ∀ a ∈ l, f a = a := by
  simpa only [map_id, id] using @map_inj_left _ _ l f id

theorem afterPrefix?_eq_some_iff : afterPrefix? ps cs = some rest ↔ cs = ps ++ rest := by
  induction ps generalizing cs with
  | nil => simp [afterPrefix?]
  | cons p ps ih =>
    cases cs with
    | nil => simp [afterPrefix?]
    | cons c cs =>
      by_cases h : p = c
      · simp [afterPrefix?, h, ih]
      · simp [afterPrefix?, h, Ne.symm h]

/-- The text of a register: the word and at least one digit. -/
theorem registerDigits?_eq_some_iff :
    registerDigits? cs = some digits ↔
      cs = registerWord ++ digits ∧ digits ≠ [] ∧ ∀ d ∈ digits, isDigit d := by
  unfold registerDigits?
  cases hafter : afterPrefix? registerWord cs with
  | none =>
    have hnot : ∀ rest, cs ≠ registerWord ++ rest := by
      intro rest heq
      rw [afterPrefix?_eq_some_iff.2 heq] at hafter
      cases hafter
    simp [hnot]
  | some rest =>
    rw [afterPrefix?_eq_some_iff.1 hafter]
    by_cases hdigits : rest ≠ [] ∧ ∀ d ∈ rest, isDigit d
    · have hcond : (rest.isEmpty || !rest.all isDigit) = false := by simpa using hdigits
      simp only [hcond, Bool.false_eq_true, if_false, Option.some.injEq, append_cancel_left_eq]
      constructor
      · rintro rfl
        exact ⟨rfl, hdigits⟩
      · exact fun h => h.1
    · have hcond : (rest.isEmpty || !rest.all isDigit) = true := by
        by_contra hc
        exact hdigits (by simpa using hc)
      simp only [hcond, if_true, append_cancel_left_eq, reduceCtorEq, false_iff]
      rintro ⟨rfl, h⟩
      exact hdigits h

theorem isDivider_of_isDigit (h : isDigit c) : isDivider c = false := by
  have hblank := Text.isBlank_of_isDigit h
  have hseparator : isSeparator c = false := by
    cases hs : isSeparator c with
    | false => rfl
    | true =>
      simp only [isSeparator, Bool.or_eq_true, beq_iff_eq] at hs
      rcases hs with ((rfl | rfl) | rfl) | rfl <;> exact absurd h (by decide +kernel)
  simp [isDivider, hblank, hseparator]

theorem isWordChar_of_isDivider (h : isDivider c) : isWordChar c = false := by
  cases hs : isSeparator c with
  | true =>
    simp only [isSeparator, Bool.or_eq_true, beq_iff_eq] at hs
    rcases hs with ((rfl | rfl) | rfl) | rfl <;> decide +kernel
  | false => exact Text.isWordChar_of_isBlank (by simpa [isDivider, hs] using h)

/-- That a word is plain is checked character by character. -/
theorem plain_of_all {word : List Char} (h : word.all fun c => !isDivider c && c != '"') :
    ∀ c ∈ word, isDivider c = false ∧ c ≠ '"' := by
  intro c hc
  have hplain := all_eq_true.1 h c hc
  rw [Bool.and_eq_true, Bool.not_eq_true', bne_iff_ne] at hplain
  exact hplain

theorem not_isDivider_registerWord : ∀ c ∈ registerWord, isDivider c = false ∧ c ≠ '"' :=
  plain_of_all (by decide +kernel)

theorem plain_of_isDigit (h : isDigit c) : isDivider c = false ∧ c ≠ '"' := by
  refine ⟨isDivider_of_isDigit h, ?_⟩
  rintro rfl
  exact absurd h (by decide +kernel)

/-- A register is one plain word. -/
theorem plain_of_registerDigits? (h : (registerDigits? cs).isSome) :
    cs ≠ [] ∧ ∀ c ∈ cs, isDivider c = false ∧ c ≠ '"' := by
  obtain ⟨digits, hdigits⟩ := Option.isSome_iff_exists.1 h
  obtain ⟨rfl, hne, hall⟩ := registerDigits?_eq_some_iff.1 hdigits
  refine ⟨by simp [hne], fun c hc => ?_⟩
  rcases mem_append.1 hc with hc | hc
  · exact not_isDivider_registerWord c hc
  · exact plain_of_isDigit (hall c hc)

/-! ### Mentions -/

theorem afterPrefix?_append (hrest : ∀ c ∈ rest.head?, c ∉ ps) :
    afterPrefix? ps (cs ++ rest) = (afterPrefix? ps cs).map (· ++ rest) := by
  induction ps generalizing cs with
  | nil => simp [afterPrefix?]
  | cons p ps ih =>
    cases cs with
    | nil =>
      cases rest with
      | nil => rfl
      | cons c rest =>
        have hne : p ≠ c := fun h => hrest c rfl (h ▸ mem_cons_self)
        simp [afterPrefix?, hne]
    | cons c cs =>
      by_cases h : p = c
      · simp only [cons_append, afterPrefix?, h, if_true]
        exact ih fun d hd hmem => hrest d hd (mem_cons_of_mem _ hmem)
      · simp [afterPrefix?, h]

/-- A divider ends what could still become a register. -/
theorem startsRegister_append {cs rest : List Char} (hrest : ∀ c ∈ rest.head?, isDivider c) :
    startsRegister (cs ++ rest) = startsRegister cs := by
  have hword : ∀ c ∈ rest.head?, c ∉ registerWord := by
    intro c hc hmem
    have := (not_isDivider_registerWord c hmem).1
    rw [hrest c hc] at this
    cases this
  have hdigit : ∀ c ∈ rest.head?, isDigit c = false := by
    intro c hc
    cases hd : isDigit c with
    | false => rfl
    | true =>
      have := isDivider_of_isDigit hd
      rw [hrest c hc] at this
      cases this
  have hends : endsWord rest = true := by
    cases rest with
    | nil => rfl
    | cons c rest => simp [endsWord, isWordChar_of_isDivider (hrest c rfl)]
  unfold startsRegister
  rw [afterPrefix?_append hword]
  cases afterPrefix? registerWord cs with
  | none => rfl
  | some after =>
    cases after with
    | nil =>
      cases rest with
      | nil => rfl
      | cons c rest => simp [hdigit c rfl]
    | cons c after =>
      simp only [Option.map_some, cons_append]
      congr 1
      rw [dropWhile_append]
      split
      next hempty =>
        rw [List.isEmpty_iff] at hempty
        rw [hempty, ← nil_append rest, dropWhile_append_of_head (by simp) hdigit]
        exact hends
      next hempty =>
        cases hdrop : after.dropWhile isDigit with
        | nil => simp [hdrop] at hempty
        | cons d tail => rfl

theorem startsRegister_divider (h : isDivider c) (rest : List Char) :
    startsRegister (c :: rest) = false :=
  @startsRegister_append [] (c :: rest) (by rintro d ⟨⟩; exact h)

theorem mentionsRegister_divider (h : isDivider c) (inWord : Bool) (rest : List Char) :
    mentionsRegister inWord (c :: rest) = (c != '\n' && mentionsRegister false rest) := by
  simp [mentionsRegister, startsRegister_divider h, isWordChar_of_isDivider h]

/-- A mention stands before a divider, or after it and on the same line. -/
theorem mentionsRegister_append (hrest : ∀ c ∈ rest.head?, isDivider c) (inWord : Bool) :
    mentionsRegister inWord (cs ++ rest) =
      (mentionsRegister inWord cs || (!cs.contains '\n' && mentionsRegister false rest)) := by
  induction cs generalizing inWord with
  | nil =>
    cases rest with
    | nil => rfl
    | cons c rest =>
      have hc := hrest c rfl
      rw [nil_append, mentionsRegister_divider hc inWord, mentionsRegister_divider hc false]
      rfl
  | cons c cs ih =>
    have hstart : startsRegister (c :: cs ++ rest) = startsRegister (c :: cs) :=
      startsRegister_append hrest
    rw [cons_append] at hstart ⊢
    simp only [mentionsRegister, hstart, ih, contains_cons]
    by_cases hnewline : c = '\n'
    · simp [hnewline]
    · have hleft : (c != '\n') = true := bne_iff_ne.2 hnewline
      have hright : ('\n' == c) = false := beq_false_of_ne (Ne.symm hnewline)
      simp [hleft, hright, Bool.or_assoc]

theorem mentionsRegister_of_startsRegister (h : startsRegister cs) :
    mentionsRegister false cs = true := by
  cases cs with
  | nil => exact absurd h (by decide +kernel)
  | cons c cs => simp [mentionsRegister, h]

theorem mentionsRegister_of_registerDigits? (h : (registerDigits? cs).isSome) :
    mentionsRegister false cs = true := by
  obtain ⟨digits, hdigits⟩ := Option.isSome_iff_exists.1 h
  obtain ⟨rfl, hne, hall⟩ := registerDigits?_eq_some_iff.1 hdigits
  apply mentionsRegister_of_startsRegister
  cases digits with
  | nil => exact absurd rfl hne
  | cons d digits =>
    have htail : digits.dropWhile isDigit = [] :=
      dropWhile_eq_nil_iff.2 fun c hc => hall c (mem_cons_of_mem _ hc)
    have hafter : afterPrefix? registerWord (registerWord ++ d :: digits) = some (d :: digits) :=
      afterPrefix?_eq_some_iff.2 rfl
    simp [startsRegister, hafter, hall d mem_cons_self, htail, endsWord]

/-! ### Pushes -/

theorem isRegisterPush_iff :
    isRegisterPush cs ↔ ∃ blanks b rest, (∀ c ∈ blanks, isBlank c = true) ∧ isBlank b ∧
      cs = blanks ++ ("Push".toList ++ b :: rest) ∧ mentionsRegister false (stripLeft rest) := by
  constructor
  · intro h
    unfold isRegisterPush at h
    split at h
    next b rest hafter =>
      obtain ⟨blanks, hblanks, hcs⟩ := Text.exists_blanks_append_stripLeft cs
      rw [Bool.and_eq_true] at h
      rw [afterPrefix?_eq_some_iff.1 hafter] at hcs
      exact ⟨blanks, b, rest, hblanks, h.1, hcs, h.2⟩
    · cases h
  · rintro ⟨blanks, b, rest, hblanks, hb, rfl, hmention⟩
    have hstrip : stripLeft (blanks ++ ("Push".toList ++ b :: rest)) = "Push".toList ++ b :: rest :=
      dropWhile_append_of_head hblanks (by rintro c ⟨⟩; decide)
    have hafter : afterPrefix? "Push".toList ("Push".toList ++ b :: rest) = some (b :: rest) :=
      afterPrefix?_eq_some_iff.2 rfl
    simp only [isRegisterPush, hstrip, hafter, hb, hmention, Bool.and_self]

theorem isLabelWord_push : isLabelWord "Push".toList = true := by decide +kernel

def ReplacesRegisters (newText? : List Char → Option (List Char)) : Prop :=
  ∀ text new, newText? text = some new → (registerDigits? text).isSome ∧ (registerDigits? new).isSome

section Replaced

variable {newText? : List Char → Option (List Char)} (hreplaces : ReplacesRegisters newText?)
include hreplaces

theorem ReplacesRegisters.words : ReplacesWords newText? where
  old text new h := (plain_of_registerDigits? (hreplaces text new h).1).2
  new text new h := plain_of_registerDigits? (hreplaces text new h).2

theorem ReplacesRegisters.registerDigits?_newToken (text : List Char) :
    (registerDigits? (newToken newText? text)).isSome = (registerDigits? text).isSome := by
  cases hnew : newText? text with
  | none => simp [newToken, hnew]
  | some new =>
    obtain ⟨hold, hnew'⟩ := hreplaces text new hnew
    simp [newToken, hnew, hold, hnew']

theorem ReplacesRegisters.newToken_eq_self {text : List Char} (h : registerDigits? text = none) :
    newToken newText? text = text := by
  cases hnew : newText? text with
  | none => simp [newToken, hnew]
  | some new =>
    have hold := (hreplaces text new hnew).1
    simp [h] at hold

/-- Replaced registers are still mentioned. -/
theorem ReplacesRegisters.mentionsRegister_mapTokens (cs : List Char) :
    mentionsRegister false (mapTokens newText? cs) = mentionsRegister false cs := by
  induction cs using tokenInduction with
  | nil => rfl
  | blank c rest hc ih =>
    have hdivider : isDivider c := by simp [isDivider, hc]
    rw [mapTokens_blank newText? hc, mentionsRegister_divider hdivider,
      mentionsRegister_divider hdivider, ih]
  | separator c rest hc ih =>
    have hdivider : isDivider c := by simp [isDivider, hc]
    rw [mapTokens_separator newText? hc, hreplaces.words.newToken_separator hc,
      singleton_append, mentionsRegister_divider hdivider, mentionsRegister_divider hdivider, ih]
  | word token rest htoken ih =>
    rw [mapTokens_word newText? htoken, mentionsRegister_append (hreplaces.words.isToken htoken).divider,
      mentionsRegister_append htoken.divider, ih]
    cases hold : registerDigits? token with
    | none => rw [hreplaces.newToken_eq_self hold]
    | some digits =>
      have hsome : (registerDigits? token).isSome := by simp [hold]
      rw [mentionsRegister_of_registerDigits? hsome, mentionsRegister_of_registerDigits?
        (by rw [hreplaces.registerDigits?_newToken]; exact hsome)]
      simp

theorem ReplacesRegisters.mapTokens_push {blanks : List Char} {b : Char}
    (hblanks : ∀ c ∈ blanks, isBlank c = true) (hb : isBlank b) :
    mapTokens newText? (blanks ++ ("Push".toList ++ b :: rest)) =
      blanks ++ ("Push".toList ++ b :: mapTokens newText? rest) := by
  have htoken : IsToken "Push".toList (b :: rest) := by
    refine isToken_of_plain (by decide) (plain_of_all (by decide +kernel)) ?_
    rintro c ⟨⟩
    simp [isDivider, hb]
  have hsame : newToken newText? "Push".toList = "Push".toList :=
    hreplaces.newToken_eq_self (by decide +kernel)
  rw [mapTokens_blanks newText? hblanks, mapTokens_word newText? htoken, hsame,
    mapTokens_blank newText? hb]

/-- A push of registers stays one. -/
theorem ReplacesRegisters.isRegisterPush_mapTokens (h : isRegisterPush cs) :
    isRegisterPush (mapTokens newText? cs) := by
  obtain ⟨blanks, b, rest, hblanks, hb, rfl, hmention⟩ := isRegisterPush_iff.1 h
  rw [hreplaces.mapTokens_push hblanks hb]
  refine isRegisterPush_iff.2 ⟨blanks, b, _, hblanks, hb, rfl, ?_⟩
  rw [hreplaces.words.stripLeft_mapTokens, hreplaces.mentionsRegister_mapTokens]
  exact hmention

/-- A push of registers without a label stays one. -/
theorem ReplacesRegisters.labelPrefix?_mapTokens (h : isRegisterPush cs)
    (hlabel : labelPrefix? cs = none) : labelPrefix? (mapTokens newText? cs) = none := by
  obtain ⟨blanks, b, rest, hblanks, hb, rfl, -⟩ := isRegisterPush_iff.1 h
  rw [hreplaces.mapTokens_push hblanks hb, labelPrefix?_word hblanks isLabelWord_push hb,
    hreplaces.words.stripLeft_mapTokens]
  rw [labelPrefix?_word hblanks isLabelWord_push hb] at hlabel
  cases hrest : stripLeft rest with
  | nil => rfl
  | cons c after =>
    rw [hrest] at hlabel
    by_cases hcolon : c = ':'
    · subst hcolon
      have hseparator : isSeparator ':' := by decide
      simp only [Option.map_eq_none_iff, singleLine?_eq_none_iff] at hlabel
      rw [mapTokens_separator newText? hseparator, hreplaces.words.newToken_separator hseparator]
      simp only [singleton_append, Option.map_eq_none_iff, singleLine?_eq_none_iff,
        hreplaces.words.stripLeft_mapTokens, hreplaces.words.newline_mem_dropLast_mapTokens]
      exact hlabel
    · have hhead : ∀ tail, mapTokens newText? (c :: after) ≠ ':' :: tail := by
        intro tail heq
        have hdivider : isDivider ':' := by decide
        have hold := (hreplaces.words.head_mapTokens_eq_some_iff hdivider (c :: after)).1
          (by rw [heq]; rfl)
        exact hcolon (Option.some.inj hold)
      split
      next tail heq => exact absurd heq (hhead tail)
      · rfl

end Replaced

/-! ### Stores -/

def storeWord : List Char :=
  ['S', 't', 'o', 'r', 'e', 'R', 'e', 'g', 'i', 's', 't', 'e', 'r']

theorem toList_storeRegister : "StoreRegister".toList = storeWord := by decide

theorem isLabelWord_storeWord : isLabelWord storeWord = true := by decide +kernel

/-- The parts of a store: blanks around its opcode, then digits, up to what is no digit. -/
structure RegisterStore.WellFormed (store : RegisterStore) : Prop where
  before : ∃ lead blanks, (∀ c ∈ lead, isBlank c = true) ∧ blanks ≠ [] ∧
    (∀ c ∈ blanks, isBlank c = true) ∧ store.before = lead ++ (storeWord ++ blanks)
  digits : store.digits ≠ [] ∧ ∀ d ∈ store.digits, isDigit d
  after : ∀ c ∈ store.after.head?, isDigit c = false

def RegisterStore.text (store : RegisterStore) : List Char :=
  store.before ++ (store.digits ++ store.after)

theorem stripLeft_storeWord {lead : List Char} (hlead : ∀ c ∈ lead, isBlank c = true) :
    stripLeft (lead ++ (storeWord ++ rest)) = storeWord ++ rest :=
  dropWhile_append_of_head hlead (by rintro c ⟨⟩; decide)

variable {store : RegisterStore}

/-- What is read as a store. -/
theorem registerStore?_eq_some (h : registerStore? cs = some store) :
    store.WellFormed ∧ cs = store.text := by
  unfold registerStore? at h
  dsimp only at h
  split at h
  · cases h
  next rest hafter =>
    split at h
    · cases h
    next hparts =>
      cases h
      simp only [Bool.or_eq_true, List.isEmpty_iff, not_or] at hparts
      obtain ⟨hblanks, hdigits⟩ := hparts
      have hcs : cs = cs.takeWhile isBlank ++ (storeWord ++ rest) := by
        rw [← toList_storeRegister, ← afterPrefix?_eq_some_iff.1 hafter]
        exact takeWhile_append_dropWhile.symm
      refine ⟨⟨⟨cs.takeWhile isBlank, rest.takeWhile isBlank, fun c hc => mem_takeWhile_imp hc,
        hblanks, fun c hc => mem_takeWhile_imp hc,
        by rw [toList_storeRegister, append_assoc]⟩,
        ⟨hdigits, fun d hd => mem_takeWhile_imp hd⟩, Text.head?_dropWhile _⟩, ?_⟩
      simp only [RegisterStore.text, takeWhile_append_dropWhile, append_assoc]
      exact hcs

/-- A store is read from its text. -/
theorem RegisterStore.WellFormed.registerStore?_text (h : store.WellFormed) :
    registerStore? store.text = some store := by
  obtain ⟨⟨lead, blanks, hlead, hne, hblanks, hbefore⟩, ⟨hdigits, hall⟩, hafter⟩ := h
  have hdigit : ∀ c ∈ (store.digits ++ store.after).head?, isBlank c = false := by
    cases hcs : store.digits with
    | nil => exact absurd hcs hdigits
    | cons d digits =>
      rintro c ⟨⟩
      exact Text.isBlank_of_isDigit (hall d (by simp [hcs]))
  have htext : store.text = lead ++ (storeWord ++ (blanks ++ (store.digits ++ store.after))) := by
    simp [RegisterStore.text, hbefore]
  have hlead' : store.text.takeWhile isBlank = lead := by
    rw [htext]
    exact takeWhile_append_of_head hlead (by rintro c ⟨⟩; decide)
  have hopcode : afterPrefix? storeWord (stripLeft store.text) =
      some (blanks ++ (store.digits ++ store.after)) := by
    rw [htext, stripLeft_storeWord hlead]
    exact afterPrefix?_eq_some_iff.2 rfl
  simp only [registerStore?, toList_storeRegister, hopcode, hlead',
    takeWhile_append_of_head hblanks hdigit, dropWhile_append_of_head hblanks hdigit,
    takeWhile_append_of_head hall hafter, dropWhile_append_of_head hall hafter]
  have hcond : (blanks.isEmpty || store.digits.isEmpty) = false := by simp [hne, hdigits]
  rw [if_neg (by rw [hcond]; simp), append_assoc, ← hbefore]

def RegisterStore.rewritten (store : RegisterStore) (digits : List Char) : RegisterStore :=
  ⟨store.before, digits, store.after ++ stripLeft store.after⟩

theorem RegisterStore.write_eq_text (store : RegisterStore) (digits : List Char) :
    store.write digits = (store.rewritten digits).text := by
  simp [RegisterStore.write, RegisterStore.rewritten, RegisterStore.text]

theorem RegisterStore.WellFormed.rewritten (h : store.WellFormed) (hne : digits ≠ [])
    (hall : ∀ d ∈ digits, isDigit d) :
    (store.rewritten digits).WellFormed := by
  refine ⟨h.before, ⟨hne, hall⟩, ?_⟩
  have hafter := h.after
  simp only [RegisterStore.rewritten]
  cases hcs : store.after with
  | nil => intro c hc; cases hc
  | cons d after =>
    rw [hcs] at hafter
    exact hafter

theorem RegisterStore.WellFormed.startsClear_of_before {other : RegisterStore}
    (h : store.WellFormed) (hclear : StartsClear store.text) (hsame : other.before = store.before) :
    StartsClear other.text := by
  obtain ⟨lead, blanks, -, -, -, hbefore⟩ := h.before
  simp only [RegisterStore.text, hsame, hbefore] at hclear ⊢
  cases lead with
  | nil => exact hclear
  | cons c lead => exact Text.startsClear_cons.2 (Text.startsClear_cons.1 hclear)

theorem RegisterStore.newline_not_mem_rewritten (h : '\n' ∉ store.text)
    (hall : ∀ d ∈ digits, isDigit d) :
    '\n' ∉ (store.rewritten digits).text := by
  simp only [RegisterStore.text, RegisterStore.rewritten, mem_append, not_or] at h ⊢
  obtain ⟨hbefore, -, hafter⟩ := h
  refine ⟨hbefore, fun hmem => ?_, hafter, fun hmem => ?_⟩
  · exact absurd (hall _ hmem) (by decide +kernel)
  · exact hafter ((dropWhile_sublist _).mem hmem)

theorem RegisterStore.WellFormed.not_isRegisterPush (h : store.WellFormed) :
    isRegisterPush store.text = false := by
  obtain ⟨lead, blanks, hlead, -, -, hbefore⟩ := h.before
  have hstrip : stripLeft store.text = storeWord ++ (blanks ++ (store.digits ++ store.after)) := by
    rw [RegisterStore.text, hbefore, append_assoc, append_assoc]
    exact stripLeft_storeWord hlead
  rw [isRegisterPush, hstrip]
  rfl

/-- A push is no store. -/
theorem registerStore?_of_isRegisterPush (h : isRegisterPush cs) : registerStore? cs = none := by
  cases hstore : registerStore? cs with
  | none => rfl
  | some store =>
    obtain ⟨hwell, rfl⟩ := registerStore?_eq_some hstore
    rw [hwell.not_isRegisterPush] at h
    cases h

/-- A store has no label: after its opcode come blanks and a digit. -/
theorem RegisterStore.WellFormed.labelPrefix?_text (h : store.WellFormed) :
    labelPrefix? store.text = none := by
  obtain ⟨⟨lead, blanks, hlead, hne, hblanks, hbefore⟩, ⟨hdigits, hall⟩, -⟩ := h
  cases blanks with
  | nil => exact absurd rfl hne
  | cons b blanks =>
    cases hcs : store.digits with
    | nil => exact absurd hcs hdigits
    | cons d digits =>
      have hd : isDigit d := hall d (by simp [hcs])
      have htext : store.text = lead ++ (storeWord ++ b :: (blanks ++ d :: (digits ++ store.after))) := by
        simp [RegisterStore.text, hbefore, hcs]
      have hstrip : stripLeft (blanks ++ d :: (digits ++ store.after)) =
          d :: (digits ++ store.after) :=
        dropWhile_append_of_head (fun c hc => hblanks c (mem_cons_of_mem _ hc))
          (by rintro c ⟨⟩; exact Text.isBlank_of_isDigit hd)
      have hcolon : d ≠ ':' := by
        rintro rfl
        exact absurd hd (by decide +kernel)
      rw [htext, labelPrefix?_word hlead isLabelWord_storeWord (hblanks b mem_cons_self), hstrip]
      split
      next after heq => cases heq; exact absurd rfl hcolon
      · rfl

end MovieDiff.Pcode
