import MovieDiff.Proofs.Alignment.Registers

/-!
The tokens of a line before and after its registers are renamed. The label stays, and so do the
tokens apart from the renamed registers, but for two kinds of line: a push that a second label
makes look free of registers, and a store with text after its digits.
-/
namespace MovieDiff.Alignment

open List
open Pcode
open Text (isBlank isDigit stripLeft)

/-! ### The tokens that a renaming should give -/

/-- A token of a push: a register takes its new name. -/
def renameToken (table : Renaming) (token : List Char) : List Char :=
  if (registerDigits? token).isSome then (table.rename (String.ofList token)).toList else token

/-- The token after the opcode of a store: the digits at its start take the place of a register
and become the digits of the new one. -/
def renameIndex (table : Renaming) (token : List Char) : List Char :=
  let register := table.rename ("register" ++ String.ofList (token.takeWhile isDigit))
  register.toList.drop registerWord.length ++ token.dropWhile isDigit

/-- The tokens of a line without label, with each register in its place renamed. -/
def renamedTokens (table : Renaming) (cs : List Char) : List (List Char) :=
  if isRegisterPush cs then (tokenTexts cs).map (renameToken table)
  else if (registerStore? cs).isSome then (tokenTexts cs).modify 1 (renameIndex table)
  else tokenTexts cs

/-- A push that is left alone although the table renames one of its registers. -/
def IsOverlooked (table : Renaming) (line : String) : Prop :=
  passesOver table line ∧ ∃ register ∈ registersOf line, table.rename register ≠ register

/-- A store whose register the table has and whose digits are not the end of the line. -/
def IsRepeated (table : Renaming) (line : String) : Prop :=
  ∃ store, registerStore? (dropLabel line).toList = some store ∧
    (table.get? ("register" ++ String.ofList store.digits)).isSome ∧
    ∃ c ∈ store.after, isBlank c = false

/-! ### Pushes -/

/-- Tokens are renamed one by one. -/
theorem newToken_newRegister? (table : Renaming) :
    newToken (newRegister? table) = renameToken table := by
  funext token
  unfold renameToken
  split
  next hregister => rw [← ofList_newToken hregister, String.toList_ofList]
  next hother => rw [newToken, newRegister?, if_neg hother, Option.getD_none]

variable {table : Renaming}

/-- The tokens of a push stay as they are exactly when its registers do. -/
theorem map_renameToken_eq_self_iff {cs : List Char} (hpush : isRegisterPush cs) :
    tokenTexts cs = (tokenTexts cs).map (renameToken table) ↔
      ∀ register ∈ registersIn cs, table.rename register = register := by
  rw [registersIn, if_pos hpush, eq_comm, map_eq_self_iff]
  constructor
  · intro hsame register hregister
    obtain ⟨token, htoken, rfl⟩ := mem_map.1 hregister
    obtain ⟨hmem, hdigits⟩ := mem_filter.1 htoken
    have hkept := hsame token hmem
    rw [renameToken, if_pos hdigits] at hkept
    rw [← String.toList_inj, hkept, String.toList_ofList]
  · intro hsame token htoken
    unfold renameToken
    split
    next hdigits =>
      have hmem : token ∈ (tokenTexts cs).filter fun text => (registerDigits? text).isSome :=
        mem_filter.2 ⟨htoken, hdigits⟩
      rw [hsame _ (mem_map_of_mem hmem), String.toList_ofList]
    · rfl

/-! ### Stores -/

def withDigits (store : RegisterStore) (digits : List Char) : RegisterStore :=
  { store with digits }

theorem withDigits_self (store : RegisterStore) : withDigits store store.digits = store := rfl

theorem plain_storeWord : ∀ c ∈ storeWord, isDivider c = false ∧ c ≠ '"' :=
  plain_of_all (by decide +kernel)

section Store

variable {store : RegisterStore} (hwell : store.WellFormed)
include hwell

variable {digits : List Char}

theorem wellFormed_withDigits (hne : digits ≠ []) (hall : ∀ d ∈ digits, isDigit d) :
    (withDigits store digits).WellFormed :=
  ⟨hwell.before, ⟨hne, hall⟩, hwell.after⟩

/-- A store is its opcode, the token that its digits start, and the tokens after that. -/
theorem tokenTexts_store :
    tokenTexts store.text = storeWord :: (store.digits ++ (cutWord .plain store.after).1) ::
      tokenTexts (cutWord .plain store.after).2 := by
  obtain ⟨⟨lead, blanks, hlead, hne, hblanks, hbefore⟩, ⟨hdigits, hall⟩, -⟩ := hwell
  have hopcode : IsToken storeWord (blanks ++ (store.digits ++ store.after)) := by
    refine isToken_of_plain (by decide) plain_storeWord ?_
    cases blanks with
    | nil => exact absurd rfl hne
    | cons b blanks =>
      rintro c ⟨⟩
      simp [isDivider, hblanks b mem_cons_self]
  rw [RegisterStore.text, hbefore, append_assoc, tokenTexts_blanks hlead, append_assoc,
    tokenTexts_word hopcode, tokenTexts_blanks hblanks,
    tokenTexts_append_of_plain hdigits fun d hd => plain_of_isDigit (hall d hd)]

/-- What follows the digits within their token does not start with a digit. -/
theorem isDigit_head_cutWord_after :
    ∀ c ∈ (cutWord .plain store.after).1.head?, isDigit c = false := by
  intro c hc
  apply hwell.after
  rw [← cutWord_append .plain store.after, head?_append, hc]
  rfl

variable {table : Renaming}

/-- The index of a store is renamed by giving the store the digits of the new register. -/
theorem renamedTokens_store (hne : digits ≠ []) (hall : ∀ d ∈ digits, isDigit d)
    (hnew : table.rename ("register" ++ String.ofList store.digits) =
      "register" ++ String.ofList digits) :
    renamedTokens table store.text = tokenTexts (withDigits store digits).text := by
  have hhead := isDigit_head_cutWord_after hwell
  have hindex : renameIndex table (store.digits ++ (cutWord .plain store.after).1) =
      digits ++ (cutWord .plain store.after).1 := by
    rw [renameIndex, Text.takeWhile_append_of_head hwell.digits.2 hhead,
      Text.dropWhile_append_of_head hwell.digits.2 hhead, hnew, toList_register, drop_left]
  rw [renamedTokens, hwell.not_isRegisterPush, if_neg Bool.false_ne_true,
    hwell.registerStore?_text, Option.isSome_some, if_pos rfl, tokenTexts_store hwell,
    tokenTexts_store (wellFormed_withDigits hwell hne hall), modify_succ_cons,
    modify_zero_cons, hindex]
  rfl

/-- A renamed store has the tokens that it should have, unless text is written twice. -/
theorem tokenTexts_renameIn_store_iff (htable : NamesRegisters table) :
    tokenTexts (renameIn table store.text) = renamedTokens table store.text ↔
      ¬ ((table.get? ("register" ++ String.ofList store.digits)).isSome ∧
        ∃ c ∈ store.after, isBlank c = false) := by
  obtain ⟨hdigits, hall⟩ := hwell.digits
  rcases renameIn_store htable hwell with ⟨hsame, hkept⟩ | ⟨digits, hne, hall', hnew, hwritten⟩
  · have htokens := renamedTokens_store hwell hdigits hall (Renaming.rename_of_none hkept)
    rw [hsame, htokens, withDigits_self, hkept]
    simp
  · have htokens := renamedTokens_store hwell hne hall' (Renaming.rename_of_some hnew)
    have htwice : renameIn table store.text =
        (withDigits store digits).text ++ stripLeft store.after := by
      rw [hwritten]
      simp [RegisterStore.text, RegisterStore.rewritten, withDigits]
    rw [htwice, htokens, hnew, Option.isSome_some]
    simp only [true_and, not_exists, not_and, Bool.not_eq_false]
    constructor
    · intro hequal c hc
      obtain ⟨blanks, hblanks, hafter⟩ := Text.exists_blanks_append_stripLeft store.after
      rw [hafter] at hc
      rcases mem_append.1 hc with hc | hc
      · exact hblanks c hc
      · exact blank_of_tokenTexts_append hequal c hc
    · intro hblank
      rw [stripLeft, dropWhile_eq_nil_iff.2 hblank, append_nil]

end Store

/-! ### Whole lines -/

theorem namesRegisters_of_all (h : table.all fun entry => isRegister entry.2) :
    NamesRegisters table := by
  intro name newName hname
  obtain ⟨before, after, rfl, -⟩ := lookup_eq_some_iff.1 hname
  exact all_eq_true.1 h (name, newName) (by simp)

/-- A renamed line keeps its label. Its other tokens are kept too, but for the registers that the
table renames, unless the line is a push that is overlooked or a store with text that is
repeated. -/
theorem renameRegisters_keeps_tokens_iff (table : Renaming) (line : String)
    (htable : NamesRegisters table) :
    (splitLabel (renameRegisters table line)).2 = (splitLabel line).2 ∧
      (tokenTexts (dropLabel (renameRegisters table line)).toList =
          renamedTokens table (dropLabel line).toList ↔
        ¬ IsOverlooked table line ∧ ¬ IsRepeated table line) := by
  rcases hsplit : splitLabel line with ⟨rest, label⟩
  have hrenamed := splitLabel_renameRegisters htable hsplit
  have hrest : dropLabel line = rest := by rw [dropLabel, hsplit]
  have hregisters := registersOf_of_splitLabel hsplit
  refine ⟨by rw [hrenamed], ?_⟩
  rw [dropLabel, hrenamed, String.toList_ofList, IsOverlooked, IsRepeated, hrest, hregisters]
  cases hpush : isRegisterPush rest.toList with
  | true =>
    rw [renamedTokens, if_pos hpush, registerStore?_of_isRegisterPush hpush]
    by_cases hover : passesOver table line
    · rw [if_pos hover, map_renameToken_eq_self_iff hpush]
      simp [hover]
    · have hwords := htable.replacesRegisters.words
      rw [if_neg hover, renameIn, if_pos hpush, hwords.tokenTexts_mapTokens,
        newToken_newRegister?]
      simp [hover]
  | false =>
    have hover : ¬ passesOver table line := by
      rw [passesOver, hrest, hpush]
      simp
    rw [if_neg hover]
    cases hstore : registerStore? rest.toList with
    | none => simp [renameIn, renamedTokens, hpush, hstore, hover]
    | some store =>
      obtain ⟨hwell, htext⟩ := registerStore?_eq_some hstore
      rw [htext, tokenTexts_renameIn_store_iff hwell htable]
      simp [hover]

def resizedRegisters : Renaming :=
  [("register1", "register22"), ("register30", "register4")]

def labelledPush : String :=
  "loc:Push register1, \"register1\", register30"

theorem renameRegisters_keeps_tokens_labelledPush :
    NamesRegisters resizedRegisters ∧
      tokenTexts (dropLabel (renameRegisters resizedRegisters labelledPush)).toList =
        ["Push", "register22", ",", "\"register1\"", ",", "register4"].map String.toList := by
  have htable : NamesRegisters resizedRegisters := namesRegisters_of_all (by decide +kernel)
  have hover : ¬ IsOverlooked resizedRegisters labelledPush :=
    fun h => absurd h.1 (by decide +kernel)
  have hstore : registerStore? (dropLabel labelledPush).toList = none := by decide +kernel
  have hrepeated : ¬ IsRepeated resizedRegisters labelledPush := by
    rintro ⟨store, hsome, -⟩
    rw [hstore] at hsome
    cases hsome
  have hkeeps := renameRegisters_keeps_tokens_iff resizedRegisters labelledPush htable
  refine ⟨htable, ?_⟩
  rw [hkeeps.2.2 ⟨hover, hrepeated⟩]
  decide +kernel

/-- A second operand is written twice, and a register behind a second label keeps its name. -/
theorem renameRegisters_tokens_differ :
    NamesRegisters [("register1", "register3")] ∧
      renameRegisters [("register1", "register3")] "StoreRegister 1, 2" =
        "StoreRegister 3, 2, 2" ∧
      tokenTexts "StoreRegister 3, 2, 2".toList ≠
        renamedTokens [("register1", "register3")] "StoreRegister 1, 2".toList ∧
      renameRegisters [("register1", "register3")] "L:Push : register1" = "L:Push : register1" ∧
      tokenTexts (dropLabel "L:Push : register1").toList ≠
        renamedTokens [("register1", "register3")] (dropLabel "L:Push : register1").toList := by
  refine ⟨namesRegisters_of_all (by decide +kernel), ?_, ?_, ?_, ?_⟩ <;> decide +kernel

end MovieDiff.Alignment
