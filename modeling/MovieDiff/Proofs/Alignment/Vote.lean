import MovieDiff.Alignment.Labels
import MovieDiff.Proofs.Matching.Blocks

/-!
An election is one-to-one: a name of the anchor is elected for the one name whose favourite it
is and which is its own favourite. Both names of an elected pair stand on one ballot.
-/
namespace MovieDiff.Alignment

open List

variable {names text : List String} {ballots : List Ballot} {name anchor winner : String}
  {table : Renaming}

theorem mem_of_favourite? (h : favourite? names = some winner) : winner ∈ names := by
  unfold favourite? at h
  dsimp only at h
  split at h
  next found hfound =>
    cases h
    have hmem : winner ∈ [winner] := mem_singleton_self winner
    rw [← hfound] at hmem
    exact mem_eraseDups.1 (mem_filter.1 hmem).1
  · cases h

/-- An elected pair is the favourite of both sides. -/
theorem elected?_eq_some_iff :
    elected? ballots name = some anchor ↔
      favourite? (proposalsFor ballots name) = some anchor ∧
        favourite? (proposersOf ballots anchor) = some name := by
  unfold elected?
  cases hfavourite : favourite? (proposalsFor ballots name) with
  | none => simp
  | some best =>
    dsimp only
    split
    next hback =>
      constructor
      · rintro ⟨⟩
        exact ⟨rfl, hback⟩
      · rintro ⟨h, -⟩
        exact h
    next hback =>
      constructor
      · intro h
        cases h
      · rintro ⟨h, hanchor⟩
        cases h
        exact absurd hanchor hback

theorem mem_proposalsFor : anchor ∈ proposalsFor ballots name ↔ (name, anchor) ∈ ballots := by
  simp [proposalsFor]

theorem mem_proposersOf : name ∈ proposersOf ballots anchor ↔ (name, anchor) ∈ ballots := by
  simp [proposersOf]

/-- Every elected pair was voted for. -/
theorem mem_of_elected? (h : elected? ballots name = some anchor) : (name, anchor) ∈ ballots :=
  mem_proposalsFor.1 (mem_of_favourite? (elected?_eq_some_iff.1 h).1)

/-- No name of the anchor is elected twice. -/
theorem elected?_injective {name' : String} (h : elected? ballots name = some anchor)
    (h' : elected? ballots name' = some anchor) :
    name = name' := by
  have hname := (elected?_eq_some_iff.1 h).2
  have hname' := (elected?_eq_some_iff.1 h').2
  exact Option.some.inj (hname.symm.trans hname')

theorem lookup_filterMap_pair {f : String → Option String} (name : String) :
    (names.filterMap fun n => (f n).map fun v => (n, v)).lookup name =
      if name ∈ names then f name else none := by
  induction names with
  | nil => rfl
  | cons n names ih =>
    by_cases hn : name = n
    · subst hn
      cases hf : f name with
      | none =>
        rw [filterMap_cons_none (by simp [hf]), ih]
        simp [hf]
      | some v =>
        rw [filterMap_cons_some (b := (name, v)) (by simp [hf])]
        simp
    · cases hf : f n with
      | none =>
        rw [filterMap_cons_none (by simp [hf]), ih]
        simp [hn]
      | some v =>
        rw [filterMap_cons_some (b := (n, v)) (by simp [hf]),
          lookup_cons, beq_false_of_ne hn, ih]
        simp [hn]

/-- The elected table holds the elected names and nothing else. -/
theorem get?_elect (ballots : List Ballot) (name : String) :
    (elect ballots).get? name = elected? ballots name := by
  rw [Renaming.get?, elect, lookup_filterMap_pair]
  split
  · rfl
  next hname =>
    cases helected : elected? ballots name with
    | none => rfl
    | some anchor =>
      refine absurd (mem_eraseDups.2 ?_) hname
      exact mem_map_of_mem (mem_of_elected? helected)

/-- The name that a renaming gives, or the old one. -/
def Renaming.rename (table : Renaming) (name : String) : String :=
  (table.get? name).getD name

theorem Renaming.rename_of_none (h : table.get? name = none) :
    table.rename name = name := by
  simp [Renaming.rename, h]

theorem Renaming.rename_of_some {new : String} (h : table.get? name = some new) :
    table.rename name = new := by
  simp [Renaming.rename, h]

/-! ### Votes without dissent -/

/-- A name that no other one stands beside is the favourite. -/
theorem favourite?_of_forall_eq (hmem : winner ∈ names)
    (hall : ∀ name ∈ names, name = winner) : favourite? names = some winner := by
  have hdups : names.eraseDups = [winner] := by
    cases names with
    | nil => cases hmem
    | cons first others =>
      have hothers : others.filter (fun name => !name == first) = [] := by
        rw [filter_eq_nil_iff]
        intro name hname
        simp [hall first mem_cons_self, hall name (mem_cons_of_mem _ hname)]
      rw [eraseDups_cons, hothers, hall first mem_cons_self]
      rfl
  simp [favourite?, hdups]

/-- Where every new name votes for the one that it stands for, that one is elected. -/
theorem get?_elect_map {rename : String → String}
    (hinjective : ∀ a ∈ names, ∀ b ∈ names, rename a = rename b → a = b) (hname : name ∈ names) :
    (elect (names.map fun a => (rename a, a))).get? (rename name) = some name := by
  have hballot : (rename name, name) ∈ names.map fun a => (rename a, a) :=
    mem_map.2 ⟨name, hname, rfl⟩
  rw [get?_elect, elected?_eq_some_iff]
  constructor
  · refine favourite?_of_forall_eq (mem_proposalsFor.2 hballot) fun anchor hanchor => ?_
    obtain ⟨a, ha, hsame⟩ := mem_map.1 (mem_proposalsFor.1 hanchor)
    obtain ⟨hrename, rfl⟩ := Prod.mk.inj hsame
    exact hinjective a ha name hname hrename
  · refine favourite?_of_forall_eq (mem_proposersOf.2 hballot) fun proposer hproposer => ?_
    obtain ⟨a, -, hsame⟩ := mem_map.1 (mem_proposersOf.1 hproposer)
    obtain ⟨rfl, rfl⟩ := Prod.mk.inj hsame
    rfl

/-! ### Ballots of matched lines -/

/-- Texts with equal keys are matched line by line. -/
theorem matchedLines_self {keys anchor : List String} (hanchor : anchor.length = keys.length)
    (htext : text.length = keys.length) : matchedLines keys keys anchor text = anchor.zip text := by
  rw [matchedLines, Match.all_self]
  split
  next hnil =>
    subst hnil
    rw [length_eq_zero_iff.1 hanchor]
    rfl
  next =>
    rw [flatMap_singleton, drop_zero, drop_zero, ← hanchor, take_length,
      hanchor, ← htext, take_length]

/-- The table of the matched lines leads from names of the text to names of the anchor. -/
theorem mem_of_get?_elect_ballots {anchorKeys textKeys anchor : List String} {newName : String}
    {ballotsOf : String × String → List Ballot} {namesOf : String → List String}
    (hballots : ∀ lines, ∀ ballot ∈ ballotsOf lines,
      ballot.1 ∈ namesOf lines.2 ∧ ballot.2 ∈ namesOf lines.1)
    (h : (elect ((matchedLines anchorKeys textKeys anchor text).flatMap ballotsOf)).get? name =
      some newName) :
    name ∈ text.flatMap namesOf ∧ newName ∈ anchor.flatMap namesOf := by
  rw [get?_elect] at h
  obtain ⟨lines, hlines, hballot⟩ := mem_flatMap.1 (mem_of_elected? h)
  obtain ⟨m, -, hzip⟩ := mem_flatMap.1 hlines
  obtain ⟨hanchor, htext⟩ := of_mem_zip (a := lines.1) (b := lines.2) hzip
  obtain ⟨hname, hnewName⟩ := hballots lines _ hballot
  exact ⟨mem_flatMap.2 ⟨lines.2, mem_of_mem_drop (mem_of_mem_take htext), hname⟩,
    mem_flatMap.2 ⟨lines.1, mem_of_mem_drop (mem_of_mem_take hanchor), hnewName⟩⟩

end MovieDiff.Alignment
