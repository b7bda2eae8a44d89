import MovieDiff.Pcode.Token
import MovieDiff.Proofs.Text.Characters

/-!
The scanner taken one token at a time. A line is a sequence of blanks, separators and words, and
scanning or rewriting it follows that sequence; positions only count what stands before.
-/
namespace MovieDiff.Pcode

open List
open Text (isBlank stripLeft StartsClear)

variable {c d : Char} {word rest blanks cs : List Char} {other? : List Char → Option (List Char)}

/-- Where the scanner stands after a character that belongs to a token. -/
def ScanMode.next : ScanMode → Char → ScanMode
  | .plain, c => if c = '"' then .quoted else .plain
  | .quoted, c => if c = '\\' then .escaped else if c = '"' then .plain else .quoted
  | .escaped, _ => .quoted

/-- Blanks and separators, which divide tokens outside quotes. -/
def isDivider (c : Char) : Bool :=
  isSeparator c || isBlank c

/-- The rest of the token at the front and what comes after it. -/
def cutWord : ScanMode → List Char → List Char × List Char
  | _, [] => ([], [])
  | mode, c :: rest =>
    if mode = .plain ∧ isDivider c then ([], c :: rest)
    else (c :: (cutWord (mode.next c) rest).1, (cutWord (mode.next c) rest).2)

theorem isSeparator_quote : isSeparator '"' = false := by decide

theorem isBlank_quote : isBlank '"' = false := by decide

theorem isBlank_of_isSeparator (h : isSeparator c) : isBlank c = false := by
  simp only [isSeparator, Bool.or_eq_true, beq_iff_eq] at h
  rcases h with ((rfl | rfl) | rfl) | rfl <;> decide

theorem ne_quote_of_isDivider (h : isDivider c) : c ≠ '"' := by
  rintro rfl
  simp [isDivider, isSeparator_quote, isBlank_quote] at h

theorem cutWord_append (mode : ScanMode) (cs : List Char) :
    (cutWord mode cs).1 ++ (cutWord mode cs).2 = cs := by
  induction cs generalizing mode with
  | nil => rfl
  | cons c rest ih =>
    unfold cutWord
    split
    · rfl
    · simp [ih]

/-- What comes after a token is nothing, or starts with a divider. -/
theorem isDivider_head_cutWord (mode : ScanMode) (cs : List Char) :
    ∀ c ∈ (cutWord mode cs).2.head?, isDivider c := by
  induction cs generalizing mode with
  | nil => intro c hc; cases hc
  | cons c rest ih =>
    unfold cutWord
    split
    next hcut =>
      rintro d ⟨⟩
      exact hcut.2
    · exact ih _

/-- The scanner finishes the token at the front, then starts anew after it. -/
theorem scanTokens_cutWord (mode : ScanMode) (position start : Nat) (gathered cs : List Char) :
    scanTokens mode position start gathered cs =
      flushToken start ((cutWord mode cs).1.reverse ++ gathered) ++
        scanTokens .plain (position + (cutWord mode cs).1.length)
          (position + (cutWord mode cs).1.length) [] (cutWord mode cs).2 := by
  induction cs generalizing mode position gathered with
  | nil => simp [scanTokens, cutWord, flushToken]
  | cons c rest ih =>
    by_cases hcut : mode = .plain ∧ isDivider c
    · obtain ⟨rfl, hdivider⟩ := hcut
      have hquote := ne_quote_of_isDivider hdivider
      simp only [cutWord, true_and, hdivider, if_true, reverse_nil, nil_append,
        length_nil, Nat.add_zero]
      cases hseparator : isSeparator c with
      | true => simp [scanTokens, hquote, hseparator, flushToken]
      | false =>
        have hblank : isBlank c := by simpa [isDivider, hseparator] using hdivider
        simp [scanTokens, hquote, hseparator, hblank, flushToken]
    · have hstep : scanTokens mode position start gathered (c :: rest) =
          scanTokens (mode.next c) (position + 1) start (c :: gathered) rest := by
        cases mode with
        | escaped => rfl
        | quoted => rfl
        | plain =>
          have hplain : isSeparator c = false ∧ isBlank c = false := by
            simpa [isDivider] using hcut
          by_cases hquote : c = '"'
          · simp [scanTokens, ScanMode.next, hquote]
          · simp [scanTokens, ScanMode.next, hquote, hplain]
      rw [hstep, ih, cutWord, if_neg hcut]
      simp only [reverse_cons, append_assoc, singleton_append, length_cons]
      congr 2 <;> omega

/-- A text that is one token, up to the end or to a divider. -/
structure IsToken (word rest : List Char) : Prop where
  nonempty : word ≠ []
  cut : cutWord .plain (word ++ rest) = (word, rest)

theorem IsToken.divider (h : IsToken word rest) : ∀ c ∈ rest.head?, isDivider c := by
  have hhead := isDivider_head_cutWord .plain (word ++ rest)
  rwa [h.cut] at hhead

theorem IsToken.head (h : IsToken word rest) : ∀ c ∈ word.head?, isDivider c = false := by
  obtain ⟨hne, hcut⟩ := h
  cases word with
  | nil => exact absurd rfl hne
  | cons c word =>
    rintro d ⟨⟩
    cases hdivider : isDivider c with
    | false => rfl
    | true => simp [cutWord, hdivider] at hcut

theorem IsToken.head?_append_ne (h : IsToken word rest) (hd : isDivider d) :
    (word ++ rest).head? ≠ some d := by
  have hhead := h.head
  cases word with
  | nil => exact absurd rfl h.nonempty
  | cons c word =>
    intro heq
    rw [hhead d heq] at hd
    cases hd

variable {rest' : List Char}

/-- Where a token ends depends on the next character alone. -/
theorem cutWord_congr_head {mode : ScanMode} (hcut : cutWord mode (word ++ rest) = (word, rest))
    (hhead : rest'.head? = rest.head?) :
    cutWord mode (word ++ rest') = (word, rest') := by
  induction word generalizing mode with
  | nil =>
    cases rest with
    | nil =>
      rw [head?_eq_none_iff.1 hhead]
      rfl
    | cons c rest =>
      cases rest' with
      | nil => cases hhead
      | cons c' rest' =>
        cases hhead
        simp only [nil_append, cutWord] at hcut ⊢
        split at hcut
        next hstop => rw [if_pos hstop]
        · cases hcut
  | cons c word ih =>
    simp only [cons_append, cutWord] at hcut ⊢
    split at hcut
    · cases hcut
    next hgo =>
      simp only [Prod.mk.injEq, List.cons.injEq, true_and] at hcut
      rw [if_neg hgo, ih (Prod.ext hcut.1 hcut.2)]

theorem IsToken.congr_head (h : IsToken word rest) (hhead : rest'.head? = rest.head?) :
    IsToken word rest' :=
  ⟨h.nonempty, cutWord_congr_head h.cut hhead⟩

theorem cutWord_plain_of_divider (hrest : ∀ c ∈ rest.head?, isDivider c) :
    cutWord .plain rest = ([], rest) := by
  cases rest with
  | nil => rfl
  | cons c rest => simp [cutWord, hrest c rfl]

/-- A plain word is part of one token with what follows it up to a divider. -/
theorem cutWord_append_of_plain (hword : ∀ c ∈ word, isDivider c = false ∧ c ≠ '"')
    (rest : List Char) :
    cutWord .plain (word ++ rest) =
      (word ++ (cutWord .plain rest).1, (cutWord .plain rest).2) := by
  induction word with
  | nil => rfl
  | cons c word ih =>
    obtain ⟨hdivider, hquote⟩ := hword c mem_cons_self
    have htail := ih fun d hd => hword d (mem_cons_of_mem _ hd)
    simp [cutWord, hdivider, ScanMode.next, hquote, htail]

/-- Without dividers and quotes a word is one token. -/
theorem isToken_of_plain (hne : word ≠ []) (hword : ∀ c ∈ word, isDivider c = false ∧ c ≠ '"')
    (hrest : ∀ c ∈ rest.head?, isDivider c) :
    IsToken word rest :=
  ⟨hne, by rw [cutWord_append_of_plain hword, cutWord_plain_of_divider hrest, append_nil]⟩

/-- Induction along the blanks, separators and words of a line. -/
theorem tokenInduction {motive : List Char → Prop} (nil : motive [])
    (blank : ∀ c rest, isBlank c → motive rest → motive (c :: rest))
    (separator : ∀ c rest, isSeparator c → motive rest → motive (c :: rest))
    (word : ∀ token rest, IsToken token rest → motive rest → motive (token ++ rest))
    (cs : List Char) : motive cs := by
  have all : ∀ n, ∀ cs : List Char, cs.length = n → motive cs := by
    intro n
    induction n using Nat.strongRecOn with
    | ind n ih =>
      intro cs hlength
      cases cs with
      | nil => exact nil
      | cons c rest =>
        have hrest : motive rest := ih rest.length (by simp at hlength; omega) rest rfl
        by_cases hseparator : isSeparator c
        · exact separator c rest hseparator hrest
        · by_cases hblank : isBlank c
          · exact blank c rest hblank hrest
          · have hdivider : isDivider c = false := by simp [isDivider, hseparator, hblank]
            have hcut := cutWord_append .plain (c :: rest)
            have hne : (cutWord .plain (c :: rest)).1 ≠ [] := by simp [cutWord, hdivider]
            have htoken : IsToken (cutWord .plain (c :: rest)).1 (cutWord .plain (c :: rest)).2 :=
              ⟨hne, by rw [hcut]⟩
            have hshorter : (cutWord .plain (c :: rest)).2.length < n := by
              have hsum := congrArg List.length hcut
              have hpositive := length_pos_iff.2 hne
              simp only [length_append] at hsum
              omega
            rw [← hcut]
            exact word _ _ htoken (ih _ hshorter _ rfl)
  exact all cs.length cs rfl

/-! ### Scanning -/

def scanAt (position : Nat) (cs : List Char) : List Token :=
  scanTokens .plain position position [] cs

theorem scanAt_nil (position : Nat) : scanAt position [] = [] := rfl

theorem scanAt_blank (h : isBlank c) (position : Nat) (rest : List Char) :
    scanAt position (c :: rest) = scanAt (position + 1) rest := by
  have hquote : c ≠ '"' := ne_quote_of_isDivider (by simp [isDivider, h])
  have hseparator : isSeparator c = false := by
    cases hs : isSeparator c with
    | false => rfl
    | true => rw [isBlank_of_isSeparator hs] at h; cases h
  simp [scanAt, scanTokens, hquote, hseparator, h, flushToken]

theorem scanAt_separator (h : isSeparator c) (position : Nat) (rest : List Char) :
    scanAt position (c :: rest) = ⟨position, [c]⟩ :: scanAt (position + 1) rest := by
  have hquote : c ≠ '"' := ne_quote_of_isDivider (by simp [isDivider, h])
  simp [scanAt, scanTokens, hquote, h, flushToken]

/-- A token at the front is scanned first. -/
theorem scanAt_word (h : IsToken word rest) (position : Nat) :
    scanAt position (word ++ rest) =
      ⟨position, word⟩ :: scanAt (position + word.length) rest := by
  rw [scanAt, scanTokens_cutWord, h.cut]
  simp [flushToken, h.nonempty, scanAt]

def tokenTexts (cs : List Char) : List (List Char) :=
  (tokenize cs).map Token.text

theorem map_text_scanAt (position : Nat) (cs : List Char) :
    (scanAt position cs).map Token.text = tokenTexts cs := by
  suffices hshift : ∀ p q, (scanAt p cs).map Token.text = (scanAt q cs).map Token.text from
    hshift position 0
  induction cs using tokenInduction with
  | nil => intro p q; rfl
  | blank c rest hc ih =>
    intro p q
    rw [scanAt_blank hc, scanAt_blank hc]
    exact ih _ _
  | separator c rest hc ih =>
    intro p q
    rw [scanAt_separator hc, scanAt_separator hc, map_cons, map_cons, ih _ (q + 1)]
  | word token rest htoken ih =>
    intro p q
    rw [scanAt_word htoken, scanAt_word htoken, map_cons, map_cons, ih _ (q + token.length)]

theorem tokenTexts_blank (h : isBlank c) (rest : List Char) :
    tokenTexts (c :: rest) = tokenTexts rest := by
  rw [← map_text_scanAt 0, scanAt_blank h, map_text_scanAt]

theorem tokenTexts_separator (h : isSeparator c) (rest : List Char) :
    tokenTexts (c :: rest) = [c] :: tokenTexts rest := by
  rw [← map_text_scanAt 0, scanAt_separator h, map_cons, map_text_scanAt]

theorem tokenTexts_word (h : IsToken word rest) :
    tokenTexts (word ++ rest) = word :: tokenTexts rest := by
  rw [← map_text_scanAt 0, scanAt_word h, map_cons, map_text_scanAt]

theorem tokenTexts_blanks (h : ∀ c ∈ blanks, isBlank c = true)
    (rest : List Char) : tokenTexts (blanks ++ rest) = tokenTexts rest := by
  induction blanks with
  | nil => rfl
  | cons c blanks ih =>
    rw [cons_append, tokenTexts_blank (h c mem_cons_self),
      ih fun d hd => h d (mem_cons_of_mem _ hd)]

theorem tokenTexts_append_of_plain (hne : word ≠ [])
    (hword : ∀ c ∈ word, isDivider c = false ∧ c ≠ '"') (rest : List Char) :
    tokenTexts (word ++ rest) =
      (word ++ (cutWord .plain rest).1) :: tokenTexts (cutWord .plain rest).2 := by
  have hcut := cutWord_append_of_plain hword rest
  have hparts : word ++ (cutWord .plain rest).1 ++ (cutWord .plain rest).2 = word ++ rest := by
    rw [append_assoc, cutWord_append]
  have htoken : IsToken (word ++ (cutWord .plain rest).1) (cutWord .plain rest).2 :=
    ⟨by simp [hne], by rw [hparts, hcut]⟩
  rw [← tokenTexts_word htoken, hparts]

/-- Scanning drops nothing but blanks. -/
theorem filter_flatten_tokenTexts (cs : List Char) :
    (tokenTexts cs).flatten.filter (fun c => !isBlank c) = cs.filter fun c => !isBlank c := by
  induction cs using tokenInduction with
  | nil => rfl
  | blank c rest hc ih => rw [tokenTexts_blank hc, ih, filter_cons_of_neg (by simp [hc])]
  | separator c rest hc ih =>
    rw [tokenTexts_separator hc, flatten_cons, filter_append, ih, ← filter_append,
      singleton_append]
  | word token rest htoken ih =>
    rw [tokenTexts_word htoken, flatten_cons, filter_append, ih, filter_append]

/-- Text at the end of a line adds tokens or lengthens the last one, unless it is blank. -/
theorem blank_of_tokenTexts_append (h : tokenTexts (cs ++ rest) = tokenTexts cs) :
    ∀ c ∈ rest, isBlank c = true := by
  have hkept : (cs ++ rest).filter (fun c => !isBlank c) = cs.filter fun c => !isBlank c := by
    rw [← filter_flatten_tokenTexts (cs ++ rest), h, filter_flatten_tokenTexts]
  rw [filter_append] at hkept
  intro c hc
  simpa using filter_eq_nil_iff.1 (append_right_eq_self.1 hkept) c hc

/-! ### Rewriting -/

section Rewriting

variable (newText? : List Char → Option (List Char))

def replaceToken (token : Token) (line : List Char) : List Char :=
  match newText? token.text with
  | some text => line.take token.position ++ text ++ line.drop (token.position + token.text.length)
  | none => line

def newToken (text : List Char) : List Char :=
  (newText? text).getD text

theorem replaceToken_append (before text after : List Char) :
    replaceToken newText? ⟨before.length, text⟩ (before ++ (text ++ after)) =
      before ++ (newToken newText? text ++ after) := by
  cases hnew : newText? text with
  | none => simp [replaceToken, newToken, hnew]
  | some new =>
    have hdrop : (before ++ (text ++ after)).drop (before.length + text.length) = after := by
      rw [← append_assoc, ← length_append, drop_left]
    simp [replaceToken, newToken, hnew, hdrop]

/-- Rewrites a line of which only the part after some text is scanned. -/
def rewriteAt (before cs : List Char) : List Char :=
  (scanAt before.length cs).foldr (replaceToken newText?) (before ++ cs)

/-- Rewriting starts with the whole line. -/
theorem mapTokens_eq_rewriteAt (cs : List Char) :
    mapTokens newText? cs = rewriteAt newText? [] cs := rfl

theorem rewriteAt_blank (h : isBlank c) (before rest : List Char) :
    rewriteAt newText? before (c :: rest) = rewriteAt newText? (before ++ [c]) rest := by
  simp [rewriteAt, scanAt_blank h]

variable {before after : List Char}

theorem rewriteAt_separator (h : isSeparator c)
    (hrest : rewriteAt newText? (before ++ [c]) rest = before ++ [c] ++ after) :
    rewriteAt newText? before (c :: rest) = before ++ (newToken newText? [c] ++ after) := by
  have hrest' : (scanAt (before.length + 1) rest).foldr (replaceToken newText?)
      (before ++ c :: rest) = before ++ ([c] ++ after) := by
    simpa [rewriteAt] using hrest
  rw [rewriteAt, scanAt_separator h, foldr_cons, hrest', replaceToken_append]

theorem rewriteAt_word (h : IsToken word rest)
    (hrest : rewriteAt newText? (before ++ word) rest = before ++ word ++ after) :
    rewriteAt newText? before (word ++ rest) = before ++ (newToken newText? word ++ after) := by
  have hrest' : (scanAt (before.length + word.length) rest).foldr (replaceToken newText?)
      (before ++ (word ++ rest)) = before ++ (word ++ after) := by
    simpa [rewriteAt] using hrest
  rw [rewriteAt, scanAt_word h, foldr_cons, hrest', replaceToken_append]

/-- Rewriting leaves what stands before the scanned part and does not depend on it. -/
theorem rewriteAt_eq_append (before cs : List Char) :
    rewriteAt newText? before cs = before ++ mapTokens newText? cs := by
  suffices hfixed : ∃ after, ∀ before, rewriteAt newText? before cs = before ++ after by
    obtain ⟨after, hafter⟩ := hfixed
    rw [hafter before, mapTokens_eq_rewriteAt, hafter [], nil_append]
  clear before
  induction cs using tokenInduction with
  | nil => exact ⟨[], fun before => by simp [rewriteAt, scanAt_nil]⟩
  | blank c rest hc ih =>
    obtain ⟨after, hafter⟩ := ih
    exact ⟨c :: after, fun before => by rw [rewriteAt_blank newText? hc, hafter]; simp⟩
  | separator c rest hc ih =>
    obtain ⟨after, hafter⟩ := ih
    exact ⟨_, fun before => rewriteAt_separator newText? hc (hafter _)⟩
  | word token rest htoken ih =>
    obtain ⟨after, hafter⟩ := ih
    exact ⟨_, fun before => rewriteAt_word newText? htoken (hafter _)⟩

theorem mapTokens_nil : mapTokens newText? [] = [] := rfl

theorem mapTokens_blank (h : isBlank c) (rest : List Char) :
    mapTokens newText? (c :: rest) = c :: mapTokens newText? rest := by
  rw [mapTokens_eq_rewriteAt, rewriteAt_blank newText? h, rewriteAt_eq_append]
  rfl

theorem mapTokens_separator (h : isSeparator c) (rest : List Char) :
    mapTokens newText? (c :: rest) = newToken newText? [c] ++ mapTokens newText? rest :=
  rewriteAt_separator newText? h (rewriteAt_eq_append newText? ([] ++ [c]) rest)

theorem mapTokens_word (h : IsToken word rest) :
    mapTokens newText? (word ++ rest) = newToken newText? word ++ mapTokens newText? rest :=
  rewriteAt_word newText? h (rewriteAt_eq_append newText? ([] ++ word) rest)

theorem mapTokens_blanks (h : ∀ c ∈ blanks, isBlank c = true) (rest : List Char) :
    mapTokens newText? (blanks ++ rest) = blanks ++ mapTokens newText? rest := by
  induction blanks with
  | nil => rfl
  | cons c blanks ih =>
    rw [cons_append, mapTokens_blank newText? (h c mem_cons_self),
      ih fun d hd => h d (mem_cons_of_mem _ hd), cons_append]

/-- Only plain words are replaced, and by plain words. -/
structure ReplacesWords : Prop where
  old : ∀ text new, newText? text = some new → ∀ c ∈ text, isDivider c = false ∧ c ≠ '"'
  new : ∀ text new, newText? text = some new →
    new ≠ [] ∧ ∀ c ∈ new, isDivider c = false ∧ c ≠ '"'

variable {newText?} (hwords : ReplacesWords newText?)
include hwords

theorem ReplacesWords.newToken_separator (h : isSeparator c) : newToken newText? [c] = [c] := by
  cases hnew : newText? [c] with
  | none => simp [newToken, hnew]
  | some new =>
    have hc := (hwords.old _ _ hnew c mem_cons_self).1
    simp [isDivider, h] at hc

/-- The parts of a line that divide tokens stay in their places. -/
theorem ReplacesWords.head_mapTokens (h : ∀ c ∈ cs.head?, isDivider c) :
    (mapTokens newText? cs).head? = cs.head? := by
  cases cs with
  | nil => rfl
  | cons c rest =>
    have hdivider := h c rfl
    cases hseparator : isSeparator c with
    | true => rw [mapTokens_separator newText? hseparator, hwords.newToken_separator hseparator]; rfl
    | false =>
      have hblank : isBlank c := by simpa [isDivider, hseparator] using hdivider
      rw [mapTokens_blank newText? hblank]
      rfl

/-- A token of the old line, or the word in its place, is a token of the new line. -/
theorem ReplacesWords.isToken (h : IsToken word rest) :
    IsToken (newToken newText? word) (mapTokens newText? rest) := by
  have hhead := hwords.head_mapTokens h.divider
  cases hnew : newText? word with
  | none =>
    simp only [newToken, hnew, Option.getD_none]
    exact h.congr_head hhead
  | some new =>
    obtain ⟨hne, hplain⟩ := hwords.new _ _ hnew
    simp only [newToken, hnew, Option.getD_some]
    refine isToken_of_plain hne hplain ?_
    rw [hhead]
    exact h.divider

/-- The tokens of a rewritten line are the tokens of the line, each replaced. -/
theorem ReplacesWords.tokenTexts_mapTokens (cs : List Char) :
    tokenTexts (mapTokens newText? cs) = (tokenTexts cs).map (newToken newText?) := by
  induction cs using tokenInduction with
  | nil => rfl
  | blank c rest hc ih =>
    rw [mapTokens_blank newText? hc, tokenTexts_blank hc, tokenTexts_blank hc, ih]
  | separator c rest hc ih =>
    rw [mapTokens_separator newText? hc, hwords.newToken_separator hc, singleton_append,
      tokenTexts_separator hc, tokenTexts_separator hc, ih, map_cons,
      hwords.newToken_separator hc]
  | word token rest htoken ih =>
    rw [mapTokens_word newText? htoken, tokenTexts_word (hwords.isToken htoken),
      tokenTexts_word htoken, ih, map_cons]

/-- Rewriting twice is rewriting once, if each token becomes what it becomes in two steps. -/
theorem ReplacesWords.mapTokens_mapTokens {both? : List Char → Option (List Char)}
    (hboth : ∀ token ∈ tokenTexts cs,
      newToken other? (newToken newText? token) = newToken both? token) :
    mapTokens other? (mapTokens newText? cs) = mapTokens both? cs := by
  induction cs using tokenInduction with
  | nil => rfl
  | blank c rest hc ih =>
    rw [tokenTexts_blank hc] at hboth
    rw [mapTokens_blank newText? hc, mapTokens_blank other? hc, mapTokens_blank both? hc, ih hboth]
  | separator c rest hc ih =>
    rw [tokenTexts_separator hc, forall_mem_cons, hwords.newToken_separator hc] at hboth
    rw [mapTokens_separator newText? hc, hwords.newToken_separator hc, singleton_append,
      mapTokens_separator other? hc, mapTokens_separator both? hc, hboth.1, ih hboth.2]
  | word token rest htoken ih =>
    rw [tokenTexts_word htoken, forall_mem_cons] at hboth
    rw [mapTokens_word newText? htoken, mapTokens_word other? (hwords.isToken htoken),
      mapTokens_word both? htoken, hboth.1, ih hboth.2]

/-- A divider stands at the front of a rewritten line exactly when it stood there before. -/
theorem ReplacesWords.head_mapTokens_eq_some_iff (hd : isDivider d) (cs : List Char) :
    (mapTokens newText? cs).head? = some d ↔ cs.head? = some d := by
  induction cs using tokenInduction with
  | nil => rfl
  | blank c rest hc ih => rw [mapTokens_blank newText? hc]; rfl
  | separator c rest hc ih =>
    rw [mapTokens_separator newText? hc, hwords.newToken_separator hc]
    rfl
  | word token rest htoken ih =>
    rw [mapTokens_word newText? htoken]
    exact iff_of_false ((hwords.isToken htoken).head?_append_ne hd) (htoken.head?_append_ne hd)

theorem ReplacesWords.startsClear_mapTokens (h : StartsClear cs) :
    StartsClear (mapTokens newText? cs) := by
  intro c hc
  cases hblank : isBlank c with
  | false => rfl
  | true =>
    have hold := (hwords.head_mapTokens_eq_some_iff (by simp [isDivider, hblank]) cs).1 hc
    rw [h c hold] at hblank
    cases hblank

/-- Leading blanks are dropped before rewriting or after it. -/
theorem ReplacesWords.stripLeft_mapTokens (cs : List Char) :
    stripLeft (mapTokens newText? cs) = mapTokens newText? (stripLeft cs) := by
  obtain ⟨blanks, hblanks, hcs⟩ := Text.exists_blanks_append_stripLeft cs
  have hclear := hwords.startsClear_mapTokens (Text.startsClear_stripLeft cs)
  have hfront : mapTokens newText? cs = blanks ++ mapTokens newText? (stripLeft cs) := by
    rw [← mapTokens_blanks newText? hblanks, ← hcs]
  rw [hfront, stripLeft, dropWhile_append_of_pos hblanks]
  exact Text.stripLeft_eq_self hclear

/-- Line feeds divide tokens, so that no replaced word and no word in its place holds one. -/
theorem ReplacesWords.newToken_eq_self_or (text : List Char) :
    newToken newText? text = text ∨ '\n' ∉ text ∧ '\n' ∉ newToken newText? text := by
  have hdivider : isDivider '\n' = true := by decide
  cases hnew : newText? text with
  | none => exact Or.inl (by simp [newToken, hnew])
  | some new =>
    refine Or.inr ⟨fun hmem => ?_, fun hmem => ?_⟩
    · have hplain := (hwords.old _ _ hnew _ hmem).1
      rw [hdivider] at hplain
      cases hplain
    · simp only [newToken, hnew, Option.getD_some] at hmem
      have hplain := ((hwords.new _ _ hnew).2 _ hmem).1
      rw [hdivider] at hplain
      cases hplain

theorem ReplacesWords.newline_mem_mapTokens (cs : List Char) :
    '\n' ∈ mapTokens newText? cs ↔ '\n' ∈ cs := by
  induction cs using tokenInduction with
  | nil => rfl
  | blank c rest hc ih => rw [mapTokens_blank newText? hc, mem_cons, mem_cons, ih]
  | separator c rest hc ih =>
    rw [mapTokens_separator newText? hc, hwords.newToken_separator hc, singleton_append,
      mem_cons, mem_cons, ih]
  | word token rest htoken ih =>
    rw [mapTokens_word newText? htoken, mem_append, mem_append, ih]
    rcases hwords.newToken_eq_self_or token with hsame | ⟨hold, hnew⟩
    · rw [hsame]
    · simp [hold, hnew]

theorem ReplacesWords.mapTokens_eq_nil_iff (cs : List Char) :
    mapTokens newText? cs = [] ↔ cs = [] := by
  induction cs using tokenInduction with
  | nil => rfl
  | blank c rest hc ih => simp [mapTokens_blank newText? hc]
  | separator c rest hc ih => simp [mapTokens_separator newText? hc, hwords.newToken_separator hc]
  | word token rest htoken ih =>
    simp [mapTokens_word newText? htoken, htoken.nonempty, (hwords.isToken htoken).nonempty]

/-- Line feeds before the last character stay where they are. -/
theorem ReplacesWords.newline_mem_dropLast_mapTokens (cs : List Char) :
    '\n' ∈ (mapTokens newText? cs).dropLast ↔ '\n' ∈ cs.dropLast := by
  induction cs using tokenInduction with
  | nil => rfl
  | blank c rest hc ih =>
    rw [mapTokens_blank newText? hc]
    by_cases hrest : rest = []
    · subst hrest
      rfl
    · rw [dropLast_cons_of_ne_nil hrest,
        dropLast_cons_of_ne_nil (mt (hwords.mapTokens_eq_nil_iff rest).1 hrest),
        mem_cons, mem_cons, ih]
  | separator c rest hc ih =>
    rw [mapTokens_separator newText? hc, hwords.newToken_separator hc, singleton_append]
    by_cases hrest : rest = []
    · subst hrest
      rfl
    · rw [dropLast_cons_of_ne_nil hrest,
        dropLast_cons_of_ne_nil (mt (hwords.mapTokens_eq_nil_iff rest).1 hrest),
        mem_cons, mem_cons, ih]
  | word token rest htoken ih =>
    rw [mapTokens_word newText? htoken]
    by_cases hrest : rest = []
    · subst hrest
      rw [mapTokens_nil, append_nil, append_nil]
      rcases hwords.newToken_eq_self_or token with hsame | ⟨hold, hnew⟩
      · rw [hsame]
      · exact iff_of_false (fun h => hnew (dropLast_subset _ h))
          (fun h => hold (dropLast_subset _ h))
    · rw [dropLast_append_of_ne_nil hrest,
        dropLast_append_of_ne_nil (mt (hwords.mapTokens_eq_nil_iff rest).1 hrest),
        mem_append, mem_append, ih]
      rcases hwords.newToken_eq_self_or token with hsame | ⟨hold, hnew⟩
      · rw [hsame]
      · simp [hold, hnew]

end Rewriting

/-- Nothing to replace changes nothing. -/
theorem mapTokens_none (cs : List Char) : mapTokens (fun _ => none) cs = cs := by
  unfold mapTokens
  induction tokenize cs with
  | nil => rfl
  | cons token tokens ih => exact ih

/-- Rewriting depends on what becomes of the tokens of the line alone. -/
theorem mapTokens_congr {newText? : List Char → Option (List Char)}
    (h : ∀ token ∈ tokenTexts cs, newToken newText? token = newToken other? token) :
    mapTokens newText? cs = mapTokens other? cs := by
  have hnone : ReplacesWords fun _ => none := ⟨by simp, by simp⟩
  have hboth := @ReplacesWords.mapTokens_mapTokens cs newText? _ hnone other? h
  rwa [mapTokens_none] at hboth

end MovieDiff.Pcode
