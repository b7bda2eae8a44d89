import MovieDiff.Alignment.Registers
import MovieDiff.Proofs.Alignment.Labels
import MovieDiff.Proofs.Pcode.Register

/-!
The registers of a line before and after a renaming. A push is passed over when the part after
its label shows no register of the table; every other line is read with its registers renamed.
-/
namespace MovieDiff.Alignment

open List
open Pcode
open Text (isDigit)
open String (ofList toList_ofList)

variable {cs : List Char} {line rest : String} {label : Option String}

/-! ### Taking the digits out of a register -/

theorem eraseWord_skip (word skipped cs : List Char) :
    eraseWord word skipped.length (skipped ++ cs) = eraseWord word 0 cs := by
  induction skipped with
  | nil => rfl
  | cons c skipped ih => exact ih

variable {w : Char} {word : List Char}

theorem eraseWord_of_not_mem (h : w ∉ cs) : eraseWord (w :: word) 0 cs = cs := by
  induction cs with
  | nil => rfl
  | cons c cs ih =>
    have hhead : (w == c) = false := beq_false_of_ne fun hw => h (hw ▸ mem_cons_self)
    rw [eraseWord, List.isPrefixOf, hhead, ih fun hw => h (mem_cons_of_mem _ hw)]
    rfl

theorem eraseWord_append (h : w ∉ cs) : eraseWord (w :: word) 0 (w :: word ++ cs) = cs := by
  have hprefix : (w :: word).isPrefixOf (w :: (word ++ cs)) = true :=
    isPrefixOf_iff_prefix.2 (prefix_append (w :: word) cs)
  rw [cons_append, eraseWord, if_pos hprefix]
  exact (eraseWord_skip (w :: word) word cs).trans (eraseWord_of_not_mem h)

theorem registerWord_eq : registerWord = ['r', 'e', 'g', 'i', 's', 't', 'e', 'r'] := by decide

theorem toList_register (digits : List Char) :
    ("register" ++ ofList digits).toList = registerWord ++ digits := by
  rw [registerWord_eq, String.toList_append, toList_ofList, toList_ofList]

variable {digits : List Char}

theorem isRegister_append (hne : digits ≠ []) (hall : ∀ d ∈ digits, isDigit d) :
    isRegister ("register" ++ ofList digits) := by
  rw [isRegister, registerDigits?_eq_some_iff.2 ⟨toList_register digits, hne, hall⟩]
  rfl

variable {name : String}

/-- A register is the word and digits. -/
theorem exists_digits_of_isRegister (h : isRegister name) :
    ∃ digits, digits ≠ [] ∧ (∀ d ∈ digits, isDigit d) ∧
      name = "register" ++ ofList digits := by
  obtain ⟨digits, hdigits⟩ := Option.isSome_iff_exists.1 h
  obtain ⟨htext, hne, hall⟩ := registerDigits?_eq_some_iff.1 hdigits
  exact ⟨digits, hne, hall, by rw [← String.toList_inj, htext, toList_register]⟩

/-- Erasing the word leaves the digits. -/
theorem eraseWord_register (h : ∀ d ∈ digits, isDigit d) :
    eraseWord registerWord 0 (registerWord ++ digits) = digits := by
  rw [registerWord_eq]
  apply eraseWord_append
  intro hletter
  exact absurd (h 'r' hletter) (by decide +kernel)

/-! ### The part of a line after its label -/

/-- The registers that a push or a store without label names. -/
def registersIn (cs : List Char) : List String :=
  if isRegisterPush cs then
    ((tokenTexts cs).filter fun text => (registerDigits? text).isSome).map ofList
  else match registerStore? cs with
    | some store => ["register" ++ ofList store.digits]
    | none => []

theorem registersOf_of_splitLabel (h : splitLabel line = (rest, label)) :
    registersOf line = registersIn rest.toList := by
  rw [registersOf, dropLabel, h, registersIn, tokenTexts, filter_map, map_map]
  rfl

variable {store : RegisterStore}

/-- Pushes, stores, and texts that name no register. -/
theorem register_cases (cs : List Char) :
    isRegisterPush cs ∨ (∃ store : RegisterStore, store.WellFormed ∧ cs = store.text) ∨
      isRegisterPush cs = false ∧ registerStore? cs = none := by
  cases hpush : isRegisterPush cs with
  | true => exact .inl rfl
  | false =>
    cases hstore : registerStore? cs with
    | none => exact .inr (.inr ⟨rfl, rfl⟩)
    | some store => exact .inr (.inl ⟨store, registerStore?_eq_some hstore⟩)

/-- A store names one register. -/
theorem registersIn_store (h : store.WellFormed) :
    registersIn store.text = ["register" ++ ofList store.digits] := by
  rw [registersIn, h.not_isRegisterPush, if_neg Bool.false_ne_true, h.registerStore?_text]

/-- The registers of a push in which registers are replaced are the new ones. -/
theorem registersIn_mapTokens {newText? : List Char → Option (List Char)}
    (hreplaces : ReplacesRegisters newText?) (hpush : isRegisterPush cs) :
    registersIn (mapTokens newText? cs) =
      ((tokenTexts cs).filter fun text => (registerDigits? text).isSome).map fun text =>
        ofList (newToken newText? text) := by
  have hfilter : (fun text => (registerDigits? text).isSome) ∘ newToken newText? =
      fun text => (registerDigits? text).isSome :=
    funext hreplaces.registerDigits?_newToken
  rw [registersIn, if_pos (hreplaces.isRegisterPush_mapTokens hpush),
    hreplaces.words.tokenTexts_mapTokens, filter_map, hfilter, map_map]
  rfl

/-- Renamed registers make no new label. -/
theorem readsAlike_mapTokens {newText? : List Char → Option (List Char)}
    (hreplaces : ReplacesRegisters newText?) (hpush : isRegisterPush cs) :
    ReadsAlike cs (mapTokens newText? cs) :=
  ⟨hreplaces.words.startsClear_mapTokens, mt (hreplaces.words.newline_mem_mapTokens _).1,
    hreplaces.labelPrefix?_mapTokens hpush⟩

def newRegister? (table : Renaming) (token : List Char) : Option (List Char) :=
  if (registerDigits? token).isSome then (table.get? (ofList token)).map String.toList
  else none

def renameIn (table : Renaming) (cs : List Char) : List Char :=
  if isRegisterPush cs then mapTokens (newRegister? table) cs
  else match registerStore? cs with
    | some store =>
      match table.get? ("register" ++ ofList store.digits) with
      | some register => store.write (eraseWord registerWord 0 register.toList)
      | none => cs
    | none => cs

def NamesRegisters (table : Renaming) : Prop :=
  ∀ name newName, table.get? name = some newName → isRegister newName

theorem NamesRegisters.replacesRegisters {table : Renaming} (htable : NamesRegisters table) :
    ReplacesRegisters (newRegister? table) := by
  intro text new h
  unfold newRegister? at h
  split at h
  next hregister =>
    obtain ⟨newName, hnew, rfl⟩ := Option.map_eq_some_iff.1 h
    exact ⟨hregister, htable _ _ hnew⟩
  · cases h

/-- A store is kept, or written with the digits of its new register. -/
theorem renameIn_store {table : Renaming} (htable : NamesRegisters table)
    (hstore : store.WellFormed) :
    (renameIn table store.text = store.text ∧
        table.get? ("register" ++ ofList store.digits) = none) ∨
      ∃ digits, digits ≠ [] ∧ (∀ d ∈ digits, isDigit d) ∧
        table.get? ("register" ++ ofList store.digits) =
          some ("register" ++ ofList digits) ∧
        renameIn table store.text = (store.rewritten digits).text := by
  unfold renameIn
  rw [hstore.not_isRegisterPush, hstore.registerStore?_text, if_neg Bool.false_ne_true]
  dsimp only
  cases hnew : table.get? ("register" ++ ofList store.digits) with
  | none => exact .inl ⟨rfl, rfl⟩
  | some register =>
    right
    obtain ⟨digits, hne, hall, rfl⟩ := exists_digits_of_isRegister (htable _ _ hnew)
    refine ⟨digits, hne, hall, rfl, ?_⟩
    dsimp only
    rw [← RegisterStore.write_eq_text, toList_register, eraseWord_register hall]

section Renamed

variable {table : Renaming} (htable : NamesRegisters table)
include htable

omit htable in
theorem ofList_newToken {text : List Char} (h : (registerDigits? text).isSome) :
    ofList (newToken (newRegister? table) text) = table.rename (ofList text) := by
  rw [newToken, newRegister?, if_pos h, Renaming.rename]
  cases table.get? (ofList text) <;> simp

/-- The registers of the renamed text are the renamed registers of the text. -/
theorem registersIn_renameIn (cs : List Char) :
    registersIn (renameIn table cs) = (registersIn cs).map table.rename := by
  rcases register_cases cs with hpush | ⟨store, hwell, rfl⟩ | ⟨hpush, hstore⟩
  · rw [renameIn, if_pos hpush, registersIn_mapTokens htable.replacesRegisters hpush, registersIn,
      if_pos hpush, map_map]
    apply map_congr_left
    intro text htext
    exact ofList_newToken (mem_filter.1 htext).2
  · rw [registersIn_store hwell, map_singleton]
    rcases renameIn_store htable hwell with ⟨hsame, hkept⟩ | ⟨digits, hne, hall, hnew, hwritten⟩
    · rw [hsame, registersIn_store hwell, Renaming.rename_of_none hkept]
    · rw [hwritten, registersIn_store (hwell.rewritten hne hall), Renaming.rename_of_some hnew]
      rfl
  · simp [renameIn, registersIn, hpush, hstore]

theorem readsAlike_renameIn (cs : List Char) : ReadsAlike cs (renameIn table cs) := by
  rcases register_cases cs with hpush | ⟨store, hwell, rfl⟩ | ⟨hpush, hstore⟩
  · rw [renameIn, if_pos hpush]
    exact readsAlike_mapTokens htable.replacesRegisters hpush
  · rcases renameIn_store htable hwell with ⟨hsame, -⟩ | ⟨digits, hne, hall, -, hwritten⟩
    · rw [hsame]
      exact ⟨id, id, id⟩
    · rw [hwritten]
      exact ⟨fun h => hwell.startsClear_of_before h rfl,
        fun h => store.newline_not_mem_rewritten h hall,
        fun _ => (hwell.rewritten hne hall).labelPrefix?_text⟩
  · rw [renameIn, hpush, if_neg Bool.false_ne_true, hstore]
    exact ⟨id, id, id⟩

/-! ### Whole lines -/

/-- Whether a line is a push that is left alone: a second label hides part of the text from
the look for a register of the table, so that this may also happen to a push that names one. -/
def passesOver (table : Renaming) (line : String) : Bool :=
  isRegisterPush (dropLabel line).toList &&
    (registersOf (dropLabel line)).all fun register => (table.get? register).isNone

omit htable in
/-- A push that is passed over is left alone. -/
theorem renameRegisters_of_passesOver (h : passesOver table line) :
    renameRegisters table line = line := by
  obtain ⟨hpush, hall⟩ := Bool.and_eq_true_iff.1 h
  unfold dropLabel at hpush hall
  unfold renameRegisters
  rcases hsplit : splitLabel line with ⟨rest, label⟩
  rw [hsplit] at hpush hall
  dsimp only at hpush hall ⊢
  rw [if_pos hpush, if_pos hall]

omit htable in
/-- Any other line is written anew, unless nothing in it is renamed. -/
theorem renameRegisters_of_not_passesOver (hsplit : splitLabel line = (rest, label))
    (h : passesOver table line = false) :
    renameRegisters table line = withLabel label (renameIn table rest.toList) ∨
      renameRegisters table line = line ∧ renameIn table rest.toList = rest.toList := by
  rw [passesOver, dropLabel, hsplit] at h
  unfold renameRegisters renameIn
  rw [hsplit]
  dsimp only at h ⊢
  cases hpush : isRegisterPush rest.toList with
  | true =>
    rw [hpush, Bool.true_and] at h
    left
    rw [if_pos rfl, if_pos rfl, h]
    rfl
  | false =>
    rw [if_neg Bool.false_ne_true, if_neg Bool.false_ne_true]
    cases hstore : registerStore? rest.toList with
    | none => exact .inr ⟨rfl, rfl⟩
    | some store =>
      dsimp only
      cases hnew : table.get? ("register" ++ ofList store.digits) with
      | none => exact .inr ⟨rfl, rfl⟩
      | some register => exact .inl rfl

/-- What is written after a label is read back after that label. -/
theorem splitLabel_withLabel_renameIn (hsplit : splitLabel line = (rest, label)) :
    splitLabel (withLabel label (renameIn table rest.toList)) =
      (ofList (renameIn table rest.toList), label) := by
  have halike := readsAlike_renameIn htable rest.toList
  cases label with
  | none =>
    obtain ⟨rfl, hnone⟩ := labelPrefix?_of_splitLabel hsplit
    apply splitLabel_of_none
    rw [withLabel, toList_ofList]
    exact halike.unlabelled hnone
  | some label =>
    obtain ⟨hword, hclear, hline⟩ := splitLabel_eq_some hsplit
    apply splitLabel_write hword
    · rw [toList_ofList]
      exact halike.clear hclear
    · rw [toList_ofList]
      exact halike.single hline

/-- A renamed line keeps its label, and what follows is renamed unless the line is passed over. -/
theorem splitLabel_renameRegisters (hsplit : splitLabel line = (rest, label)) :
    splitLabel (renameRegisters table line) =
      (ofList (if passesOver table line then rest.toList else renameIn table rest.toList),
        label) := by
  split
  next hover => rw [renameRegisters_of_passesOver hover, hsplit, String.ofList_toList]
  next hover =>
    rcases renameRegisters_of_not_passesOver hsplit (Bool.eq_false_iff.2 hover) with
      hwritten | ⟨hsame, hkept⟩
    · rw [hwritten, splitLabel_withLabel_renameIn htable hsplit]
    · rw [hsame, hkept, hsplit, String.ofList_toList]

/-- A renamed line names the renamed registers, unless it is passed over. -/
theorem registersOf_renameRegisters (line : String) :
    registersOf (renameRegisters table line) =
      if passesOver table line then registersOf line else (registersOf line).map table.rename := by
  rcases hsplit : splitLabel line with ⟨rest, label⟩
  rw [registersOf_of_splitLabel (splitLabel_renameRegisters htable hsplit), toList_ofList,
    registersOf_of_splitLabel hsplit]
  split
  · rfl
  · exact registersIn_renameIn htable rest.toList

end Renamed

/-! ### The table of an anchor and a text -/

theorem isRegister_of_mem_registersOf {register : String} (h : register ∈ registersOf line) :
    isRegister register := by
  rcases hsplit : splitLabel line with ⟨rest, label⟩
  rw [registersOf_of_splitLabel hsplit] at h
  unfold registersIn at h
  split at h
  · obtain ⟨text, htext, rfl⟩ := mem_map.1 h
    rw [isRegister, toList_ofList]
    exact (mem_filter.1 htext).2
  · cases hstore : registerStore? rest.toList with
    | none => simp [hstore] at h
    | some store =>
      obtain ⟨hne, hall⟩ := (registerStore?_eq_some hstore).1.digits
      simp only [hstore, mem_singleton] at h
      rw [h]
      exact isRegister_append hne hall

/-- The table leads from registers of the text to registers of the anchor. -/
theorem mem_of_get?_registerRenaming {anchor text : List String} {newName : String}
    (h : (registerRenaming anchor text).get? name = some newName) :
    name ∈ text.flatMap registersOf ∧ newName ∈ anchor.flatMap registersOf := by
  refine mem_of_get?_elect_ballots (fun lines ballot hballot => ?_) h
  obtain ⟨register, hregister, hvotes⟩ := mem_flatMap.1 hballot
  obtain ⟨voter, hvoter, rfl⟩ := mem_map.1 hvotes
  exact ⟨hvoter, hregister⟩

/-- Elected names are registers. -/
theorem namesRegisters_registerRenaming (anchor text : List String) :
    NamesRegisters (registerRenaming anchor text) := by
  intro name newName h
  obtain ⟨line, -, hline⟩ := mem_flatMap.1 (mem_of_get?_registerRenaming h).2
  exact isRegister_of_mem_registersOf hline

end MovieDiff.Alignment
