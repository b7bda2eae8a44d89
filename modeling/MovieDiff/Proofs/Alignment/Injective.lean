import MovieDiff.Proofs.Alignment.Registers

/-!
When alignment keeps names apart. The elected table is one-to-one, but a name that it does not
hold stays as it is, and may then be taken for one that was renamed into it. An aligned text
tells exactly the same occurrences apart as the text before if no name is captured in this way.
-/
namespace MovieDiff.Alignment

open List
open Pcode

variable {namesOf : String → List String} {rewrite : String → String} {text : List String}

/-- The names of two texts, line by line, differ by a one-to-one renaming: there are as many on
each line, and two occurrences are equal after the renaming exactly when they were before. -/
structure RenamesInjectively (before after : List (List String)) : Prop where
  shape : after.map List.length = before.map List.length
  equal_iff : ∀ i j : Nat,
    after.flatten[i]? = after.flatten[j]? ↔ before.flatten[i]? = before.flatten[j]?

/-- The names in a text, each with the line that it stands on. -/
def occurrences (namesOf : String → List String) (text : List String) : List (String × String) :=
  text.flatMap fun line => (namesOf line).map fun name => (line, name)

/-- No occurrence that keeps its name is confused with a renamed one: a new name is the kept
name only if it was so before. Lines that are `left` alone keep all their names. -/
def CaptureFree (table : Renaming) (left : String → Bool) (names : List (String × String)) : Prop :=
  ∀ renamed ∈ names, ∀ newName, left renamed.1 = false → table.get? renamed.2 = some newName →
    ∀ kept ∈ names, (left kept.1 = true ∨ table.get? kept.2 = none) →
      (newName = kept.2 ↔ renamed.2 = kept.2)

theorem flatten_map_occurrences {newName : String × String → String}
    (h : ∀ line ∈ text, namesOf (rewrite line) =
      (namesOf line).map fun name => newName (line, name)) :
    ((text.map rewrite).map namesOf).flatten = (occurrences namesOf text).map newName := by
  induction text with
  | nil => rfl
  | cons line text ih =>
    have hrest := ih fun other hother => h other (mem_cons_of_mem _ hother)
    rw [map_cons, map_cons, flatten_cons, hrest, h line mem_cons_self]
    simp [occurrences, Function.comp_def]

/-- Two occurrences are given by their places in the list of all of them. -/
theorem getElem?_map_eq_iff {names : List (String × String)} {old new : String × String → String} :
    (∀ i j : Nat, (names.map new)[i]? = (names.map new)[j]? ↔
        (names.map old)[i]? = (names.map old)[j]?) ↔
      ∀ p ∈ names, ∀ q ∈ names, new p = new q ↔ old p = old q := by
  simp only [getElem?_map]
  constructor
  · intro h p hp q hq
    obtain ⟨i, hi⟩ := mem_iff_getElem?.1 hp
    obtain ⟨j, hj⟩ := mem_iff_getElem?.1 hq
    simpa [hi, hj] using h i j
  · intro h i j
    cases hi : names[i]? with
    | none => cases hj : names[j]? <;> simp
    | some p =>
      cases hj : names[j]? with
      | none => simp
      | some q =>
        simpa using h p (mem_of_getElem? hi) q (mem_of_getElem? hj)

section Table

variable {ballots : List Ballot}
  {left : String → Bool}

/-- An elected table renames one-to-one exactly the occurrences among which none is captured. -/
theorem equal_iff_of_captureFree (names : List (String × String)) :
    (∀ p ∈ names, ∀ q ∈ names,
        (if left p.1 then p.2 else (elect ballots).rename p.2) =
          (if left q.1 then q.2 else (elect ballots).rename q.2) ↔ p.2 = q.2) ↔
      CaptureFree (elect ballots) left names := by
  constructor
  · intro h renamed hrenamed newName hleft hnew kept hkept hkeeps
    have hpair := h renamed hrenamed kept hkept
    have hsettled : (if left kept.1 then kept.2 else (elect ballots).rename kept.2) = kept.2 := by
      rcases hkeeps with hkeeps | hkeeps
      · rw [if_pos hkeeps]
      · rw [Renaming.rename_of_none hkeeps, ite_self]
    rwa [hleft, if_neg Bool.false_ne_true, Renaming.rename_of_some hnew, hsettled] at hpair
  · intro h p hp q hq
    -- an occurrence either gets a new name or keeps its own
    have hcases : ∀ o : String × String,
        (∃ newName, left o.1 = false ∧ (elect ballots).get? o.2 = some newName ∧
          (if left o.1 then o.2 else (elect ballots).rename o.2) = newName) ∨
        ((left o.1 = true ∨ (elect ballots).get? o.2 = none) ∧
          (if left o.1 then o.2 else (elect ballots).rename o.2) = o.2) := by
      intro o
      cases hleft : left o.1 with
      | true => exact .inr ⟨.inl rfl, rfl⟩
      | false =>
        cases hnew : (elect ballots).get? o.2 with
        | none => exact .inr ⟨.inr rfl, Renaming.rename_of_none hnew⟩
        | some newName => exact .inl ⟨newName, rfl, rfl, Renaming.rename_of_some hnew⟩
    rcases hcases p with ⟨newName, hleft, hnew, hp'⟩ | ⟨hkeeps, hp'⟩
    · rcases hcases q with ⟨other, -, hother, hq'⟩ | ⟨hkeeps', hq'⟩
      · rw [hp', hq']
        constructor
        · rintro rfl
          rw [get?_elect] at hnew hother
          exact elected?_injective hnew hother
        · intro hname
          rw [hname, hother] at hnew
          exact (Option.some.inj hnew).symm
      · rw [hp', hq']
        exact h p hp newName hleft hnew q hq hkeeps'
    · rcases hcases q with ⟨newName, hleft, hnew, hq'⟩ | ⟨-, hq'⟩
      · rw [hp', hq', eq_comm, h q hq newName hleft hnew p hp hkeeps, eq_comm]
      · rw [hp', hq']

/-- A text whose lines are read back with the renamed names is renamed one-to-one exactly when no
name is captured. -/
theorem renamesInjectively_iff_captureFree
    (hread : ∀ line ∈ text, namesOf (rewrite line) =
      (namesOf line).map fun name => if left line then name else (elect ballots).rename name) :
    RenamesInjectively (text.map namesOf) ((text.map rewrite).map namesOf) ↔
      CaptureFree (elect ballots) left (occurrences namesOf text) := by
  have hafter : ((text.map rewrite).map namesOf).flatten = (occurrences namesOf text).map
      fun o => if left o.1 then o.2 else (elect ballots).rename o.2 :=
    flatten_map_occurrences hread
  have hbefore : ((text.map id).map namesOf).flatten = (occurrences namesOf text).map Prod.snd :=
    flatten_map_occurrences fun line _ => (map_id _).symm
  rw [map_id] at hbefore
  have hshape : ((text.map rewrite).map namesOf).map List.length =
      (text.map namesOf).map List.length := by
    rw [map_map, map_map, map_map]
    apply map_congr_left
    intro line hline
    simp [hread line hline]
  rw [← equal_iff_of_captureFree]
  constructor
  · intro h
    have hequal := h.equal_iff
    rw [hafter, hbefore] at hequal
    exact getElem?_map_eq_iff.1 hequal
  · intro h
    refine ⟨hshape, ?_⟩
    rw [hafter, hbefore]
    exact getElem?_map_eq_iff.2 h

end Table

def KeepsLabels (table : Renaming) (text : List String) : Prop :=
  ∀ line ∈ text, ∀ label ∈ (splitLabel line).2, isLabelWord (table.rename label).toList

/-- Labels that cannot be read back are lost, which the number of names on their line shows. -/
theorem keepsLabels_of_renamesInjectively {anchor : List String}
    (h : RenamesInjectively (text.map labelsOf) ((alignLabels anchor text).map labelsOf)) :
    KeepsLabels (labelRenaming anchor text) text := by
  intro line hline label hlabel
  cases hword : isLabelWord ((labelRenaming anchor text).rename label).toList with
  | true => rfl
  | false =>
    have hlost := labelsOf_renameLabels_of_unreadable (namesTargets_labelRenaming anchor text)
      hlabel hword
    have hshape := h.shape
    rw [alignLabels, map_map, map_map, map_map] at hshape
    have hcount := map_inj_left.1 hshape line hline
    simp only [Function.comp_apply, hlost] at hcount
    have hnamed : label ∈ labelsOf line := mem_append_left _ (Option.mem_toList.2 hlabel)
    rw [length_nil, eq_comm, length_eq_zero_iff] at hcount
    rw [hcount] at hnamed
    cases hnamed

/-- Alignment renames the labels of a text one-to-one exactly when no label is captured and every
renamed label can be read back, and its registers exactly when no register is captured. -/
theorem align_renamesInjectively_iff (anchor text : List String) :
    (RenamesInjectively (text.map labelsOf) ((alignLabels anchor text).map labelsOf) ↔
      CaptureFree (labelRenaming anchor text) (fun _ => false) (occurrences labelsOf text) ∧
        KeepsLabels (labelRenaming anchor text) text) ∧
    (RenamesInjectively (text.map registersOf) ((alignRegisters anchor text).map registersOf) ↔
      CaptureFree (registerRenaming anchor text) (passesOver (registerRenaming anchor text))
        (occurrences registersOf text)) := by
  constructor
  · have hiff : KeepsLabels (labelRenaming anchor text) text →
        (RenamesInjectively (text.map labelsOf) ((alignLabels anchor text).map labelsOf) ↔
          CaptureFree (labelRenaming anchor text) (fun _ => false) (occurrences labelsOf text)) := by
      intro hkeeps
      apply renamesInjectively_iff_captureFree
      intro line hline
      exact labelsOf_renameLabels (namesTargets_labelRenaming anchor text) (hkeeps line hline)
    constructor
    · intro h
      have hkeeps := keepsLabels_of_renamesInjectively h
      exact ⟨(hiff hkeeps).1 h, hkeeps⟩
    · rintro ⟨hfree, hkeeps⟩
      exact (hiff hkeeps).2 hfree
  · apply renamesInjectively_iff_captureFree
    intro line _
    rw [registersOf_renameRegisters (namesRegisters_registerRenaming anchor text)]
    cases hover : passesOver (registerRenaming anchor text) line with
    | true => simp
    | false => rfl

/-- Two labels of a text become one. The vote renames `L1` to the anchor's `L0`, while the text's
own `L0` is no one's favourite and stays, so that the aligned text equals the anchor. -/
theorem alignLabels_captures :
    alignLabels ["If L0", "If L0", "Jump L0"] ["If L1", "If L1", "Jump L0"] =
        ["If L0", "If L0", "Jump L0"] ∧
      ¬ RenamesInjectively (["If L1", "If L1", "Jump L0"].map labelsOf)
        ((alignLabels ["If L0", "If L0", "Jump L0"] ["If L1", "If L1", "Jump L0"]).map labelsOf) := by
  have haligned : alignLabels ["If L0", "If L0", "Jump L0"] ["If L1", "If L1", "Jump L0"] =
      ["If L0", "If L0", "Jump L0"] := by
    decide +kernel
  refine ⟨haligned, fun h => ?_⟩
  rw [haligned] at h
  have hsame := (h.equal_iff 1 2).1 (by decide +kernel)
  exact absurd hsame (by decide +kernel)

end MovieDiff.Alignment
