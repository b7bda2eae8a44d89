import MovieDiff.Proofs.Pcode.Token

/-!
The places of tokens. Main statement: the tokens of a line are the pieces of it that stand at their
positions, one behind the other, with only blanks outside quotes between them; separators outside
quotes are tokens by themselves, no other token holds a blank or a separator but between quotes, and
replacing tokens leaves the rest of the line as it is.
-/
namespace MovieDiff.Pcode

open List
open Text (isBlank)

/-- Whether the character at an index is outside quotes (`plain`), told from those before it. -/
def quoteMode (chars : List Char) (index : Nat) : ScanMode :=
  (chars.take index).foldl ScanMode.next .plain

namespace Token

def stop (token : Token) : Nat :=
  token.position + token.text.length

def Covers (token : Token) (index : Nat) : Prop :=
  token.position ≤ index ∧ index < token.stop

def IsSeparator (token : Token) : Prop :=
  ∃ c, isSeparator c ∧ token.text = [c]

end Token

/-- The tokens of a line from an index on, with nothing but blanks between them. -/
structure Tokenizes (chars : List Char) (start : Nat) (tokens : List Token) : Prop where
  nonempty : ∀ token ∈ tokens, token.text ≠ []
  starts : ∀ token ∈ tokens, start ≤ token.position
  ordered : tokens.Pairwise fun first second => first.stop ≤ second.position
  exact : ∀ token ∈ tokens, (chars.drop token.position).take token.text.length = token.text
  between : ∀ index c, start ≤ index → chars[index]? = some c →
    (∀ token ∈ tokens, ¬ token.Covers index) → isBlank c ∧ quoteMode chars index = .plain
  separator : ∀ index c, start ≤ index → chars[index]? = some c → isSeparator c →
    quoteMode chars index = .plain → ⟨index, [c]⟩ ∈ tokens
  inside : ∀ token ∈ tokens, token.IsSeparator ∨ ∀ index c, token.Covers index →
    chars[index]? = some c → isDivider c → quoteMode chars index ≠ .plain
  longest : tokens.Pairwise fun first second => first.stop = second.position →
    first.IsSeparator ∨ second.IsSeparator

variable {c : Char} {chars word rest : List Char} {start : Nat} {tokens : List Token}

/-! ### One piece of a line -/

theorem Tokenizes.blank (h : Tokenizes chars (start + 1) tokens) (hc : chars[start]? = some c)
    (hblank : isBlank c) (hmode : quoteMode chars start = .plain) :
    Tokenizes chars start tokens := by
  refine ⟨h.nonempty, fun token htoken => Nat.le_of_succ_le (h.starts token htoken), h.ordered,
    h.exact, fun index d hindex hd hnone => ?_, fun index d hindex hd hseparator hplain => ?_,
    h.inside, h.longest⟩
  · rcases Nat.eq_or_lt_of_le hindex with rfl | hlater
    · cases hc.symm.trans hd
      exact ⟨hblank, hmode⟩
    · exact h.between index d hlater hd hnone
  · rcases Nat.eq_or_lt_of_le hindex with rfl | hlater
    · cases hc.symm.trans hd
      rw [isBlank_of_isSeparator hseparator] at hblank
      cases hblank
    · exact h.separator index d hlater hd hseparator hplain

theorem getElem?_position {token : Token} (hne : token.text ≠ [])
    (hexact : (chars.drop token.position).take token.text.length = token.text) :
    chars[token.position]? = token.text.head? := by
  have hhead := congrArg head? hexact
  rwa [head?_take, if_neg (mt length_eq_zero_iff.1 hne), head?_drop] at hhead

/-- A token that is a separator, or a word: it holds dividers between quotes only and ends where the
line ends or a divider outside quotes stands. -/
theorem Tokenizes.token (h : Tokenizes chars (start + word.length) tokens) (hne : word ≠ [])
    (hexact : (chars.drop start).take word.length = word)
    (hkind : Token.IsSeparator ⟨start, word⟩ ∨
      (∀ index c, Token.Covers ⟨start, word⟩ index → chars[index]? = some c → isDivider c →
          quoteMode chars index ≠ .plain) ∧
        ∀ c, chars[start + word.length]? = some c →
          isDivider c ∧ quoteMode chars (start + word.length) = .plain) :
    Tokenizes chars start (⟨start, word⟩ :: tokens) := by
  have hhead : chars[start]? = word.head? := @getElem?_position chars ⟨start, word⟩ hne hexact
  refine ⟨forall_mem_cons.2 ⟨hne, h.nonempty⟩,
    forall_mem_cons.2 ⟨Nat.le_refl _, fun token htoken =>
      Nat.le_trans (Nat.le_add_right _ _) (h.starts token htoken)⟩,
    pairwise_cons.2 ⟨h.starts, h.ordered⟩, forall_mem_cons.2 ⟨hexact, h.exact⟩,
    fun index c hindex hc hnone => ?_, fun index c hindex hc hseparator hplain => ?_,
    forall_mem_cons.2 ⟨hkind.imp_right And.left, h.inside⟩,
    pairwise_cons.2 ⟨fun next hnext htouch => ?_, h.longest⟩⟩
  · obtain ⟨hfirst, hothers⟩ := forall_mem_cons.1 hnone
    exact h.between index c (Nat.le_of_not_lt fun hlt => hfirst ⟨hindex, hlt⟩) hc hothers
  · by_cases hlater : start + word.length ≤ index
    · exact mem_cons_of_mem _ (h.separator index c hlater hc hseparator hplain)
    have hcovers : Token.Covers ⟨start, word⟩ index := ⟨hindex, Nat.lt_of_not_le hlater⟩
    rcases hkind with ⟨d, -, rfl⟩ | ⟨hquoted, -⟩
    · obtain rfl : index = start := Nat.le_antisymm (Nat.le_of_lt_succ hcovers.2) hindex
      cases hc.symm.trans hhead
      exact mem_cons_self
    · exact absurd hplain (hquoted index c hcovers hc (by simp [isDivider, hseparator]))
  · refine hkind.imp_right fun hword => ?_
    -- The divider that ends the word is the first character of the next token.
    obtain ⟨c, text, htext⟩ := exists_cons_of_ne_nil (h.nonempty next hnext)
    have hc : chars[next.position]? = some c := by
      rw [getElem?_position (h.nonempty next hnext) (h.exact next hnext), htext, head?_cons]
    obtain ⟨hdivider, hplain⟩ := hword.2 c (by rwa [← htouch] at hc)
    refine (h.inside next hnext).resolve_right fun hquoted => hquoted next.position c
      ⟨Nat.le_refl _, ?_⟩ hc hdivider (by rwa [← htouch])
    rw [Token.stop, htext, length_cons]
    omega

/-! ### All of a line -/

/-- In a word dividers stand between quotes, and a word that something follows closes its quotes. -/
theorem modes_of_cutWord {mode : ScanMode} (hcut : cutWord mode (word ++ rest) = (word, rest)) :
    (∀ index c, word[index]? = some c → isDivider c →
        (word.take index).foldl ScanMode.next mode ≠ .plain) ∧
      (rest ≠ [] → word.foldl ScanMode.next mode = .plain) := by
  induction word generalizing mode with
  | nil =>
    refine ⟨fun index c hc => (by cases hc), fun hne => ?_⟩
    cases rest with
    | nil => exact absurd rfl hne
    | cons c rest =>
      by_contra hmode
      rw [foldl_nil] at hmode
      simp [cutWord, hmode] at hcut
  | cons c word ih =>
    simp only [cons_append, cutWord] at hcut
    split at hcut
    · cases hcut
    next hgo =>
      simp only [Prod.mk.injEq, List.cons.injEq, true_and] at hcut
      obtain ⟨hinside, hend⟩ := ih (Prod.ext hcut.1 hcut.2)
      refine ⟨fun index d hd hdivider => ?_, hend⟩
      cases index with
      | zero =>
        cases hd
        exact fun hplain => hgo ⟨hplain, hdivider⟩
      | succ index => exact hinside index d hd hdivider

theorem quoteMode_append (before cs : List Char) (index : Nat) :
    quoteMode (before ++ cs) (before.length + index) =
      (cs.take index).foldl ScanMode.next (before.foldl ScanMode.next .plain) := by
  rw [quoteMode, take_append, take_of_length_le (Nat.le_add_right _ _), Nat.add_sub_cancel_left,
    foldl_append]

theorem next_of_isDivider (h : isDivider c) : ScanMode.next .plain c = .plain :=
  if_neg (ne_quote_of_isDivider h)

/-- Scanning a part of a line that starts outside quotes. -/
theorem tokenizes_scanAt (before cs : List Char)
    (hmode : cs ≠ [] → before.foldl ScanMode.next .plain = .plain) :
    Tokenizes (before ++ cs) before.length (scanAt before.length cs) := by
  have hstart : ∀ before cs : List Char, before.foldl ScanMode.next .plain = .plain →
      quoteMode (before ++ cs) before.length = .plain := fun before cs hplain =>
    (quoteMode_append before cs 0).trans hplain
  induction cs using tokenInduction generalizing before with
  | nil =>
    rw [scanAt_nil, append_nil]
    refine ⟨by simp, by simp, .nil, by simp, fun index c hindex hc => ?_,
      fun index c hindex hc => ?_, by simp, .nil⟩ <;>
    · rw [getElem?_eq_none hindex] at hc
      cases hc
  | blank c rest hc ih =>
    have hplain := hmode (cons_ne_nil _ _)
    have hrest := ih (before ++ [c]) fun _ => by
      rw [foldl_append, hplain]
      exact next_of_isDivider (by simp [isDivider, hc])
    rw [append_assoc, singleton_append, length_append, length_singleton] at hrest
    rw [scanAt_blank hc]
    exact hrest.blank (by simp) hc (hstart before _ hplain)
  | separator c rest hc ih =>
    have hplain := hmode (cons_ne_nil _ _)
    have hrest := ih (before ++ [c]) fun _ => by
      rw [foldl_append, hplain]
      exact next_of_isDivider (by simp [isDivider, hc])
    rw [append_assoc, singleton_append, length_append, length_singleton] at hrest
    rw [scanAt_separator hc]
    exact hrest.token (cons_ne_nil _ _) (by simp) (.inl ⟨c, hc, rfl⟩)
  | word token rest htoken ih =>
    have hplain := hmode (by simp [htoken.nonempty])
    obtain ⟨hinside, hend⟩ := modes_of_cutWord htoken.cut
    have hrest := ih (before ++ token) fun hne => by rw [foldl_append, hplain, hend hne]
    rw [append_assoc, length_append] at hrest
    rw [scanAt_word htoken]
    refine hrest.token htoken.nonempty (by simp) (.inr ⟨fun index c hcovers hc hdivider => ?_,
      fun c hc => ?_⟩)
    · obtain ⟨offset, rfl⟩ := Nat.exists_eq_add_of_le hcovers.1
      have hoffset : offset < token.length := Nat.add_lt_add_iff_left.1 hcovers.2
      rw [getElem?_append_right (Nat.le_add_right _ _), Nat.add_sub_cancel_left,
        getElem?_append_left hoffset] at hc
      rw [quoteMode_append, hplain, take_append_of_le_length (Nat.le_of_lt hoffset)]
      exact hinside offset c hc hdivider
    · have hhead : rest.head? = some c := by
        simpa [getElem?_append_right, head?_eq_getElem?] using hc
      have hne : rest ≠ [] := by
        rintro rfl
        cases hhead
      refine ⟨htoken.divider c hhead, ?_⟩
      rw [quoteMode_append, hplain, take_left, hend hne]

/-! ### Replacing tokens -/

variable (newText? : List Char → Option (List Char))

/-- The line from an index on, with the new text of each token in its place. -/
def replaced (chars : List Char) (start : Nat) : List Token → List Char
  | [] => chars.drop start
  | token :: rest =>
    (chars.take token.position).drop start ++
      (newToken newText? token.text ++ replaced chars token.stop rest)

/-- Slices are exchanged from the last token to the first, so that the places of those before stay
as they are. -/
theorem foldr_replaceToken (hnonempty : ∀ token ∈ tokens, token.text ≠ [])
    (hstarts : ∀ token ∈ tokens, start ≤ token.position)
    (hordered : tokens.Pairwise fun first second => first.stop ≤ second.position)
    (hexact : ∀ token ∈ tokens, (chars.drop token.position).take token.text.length = token.text) :
    tokens.foldr (replaceToken newText?) chars =
      chars.take start ++ replaced newText? chars start tokens := by
  induction tokens generalizing start with
  | nil => exact (take_append_drop start chars).symm
  | cons token tokens ih =>
    obtain ⟨hne, hnonempty⟩ := forall_mem_cons.1 hnonempty
    obtain ⟨hslice, hexact⟩ := forall_mem_cons.1 hexact
    obtain ⟨hbehind, hordered⟩ := pairwise_cons.1 hordered
    have hlength : (chars.take token.position).length = token.position := by
      have hsize := congrArg length hslice
      have hpos := length_pos_iff.2 hne
      rw [length_take, length_drop] at hsize
      rw [length_take]
      omega
    have hfront : chars.take token.stop = chars.take token.position ++ token.text := by
      rw [Token.stop, take_add, hslice]
    have hcut : chars.take start ++ (chars.take token.position).drop start =
        chars.take token.position := by
      have hstart : chars.take start = (chars.take token.position).take start := by
        rw [take_take, Nat.min_eq_left (hstarts token mem_cons_self)]
      rw [hstart, take_append_drop]
    have hreplace := replaceToken_append newText? (chars.take token.position) token.text
      (replaced newText? chars token.stop tokens)
    rw [hlength] at hreplace
    rw [foldr_cons, ih hnonempty hbehind hordered hexact, hfront, append_assoc, hreplace, replaced,
      ← append_assoc (chars.take start), hcut]

/-- The tokens of a line have their places in it, and replacing some changes nothing else. -/
theorem tokenize_isExact (cs : List Char) :
    Tokenizes cs 0 (tokenize cs) ∧ ∀ newText? : List Char → Option (List Char),
      mapTokens newText? cs = replaced newText? cs 0 (tokenize cs) :=
  have h : Tokenizes cs 0 (tokenize cs) := tokenizes_scanAt [] cs fun _ => rfl
  ⟨h, fun newText? => foldr_replaceToken newText? h.nonempty h.starts h.ordered h.exact⟩

end MovieDiff.Pcode
