import Mathlib.Data.List.Dedup
import MovieDiff.Pcode.Normal

/-!
Numbers in the order of appearance. A scope of registers or labels only ever grows at its end, so a
number stays what it was when it was first given, and different names have different numbers. What
counts is which names are the same: names that are told apart alike are numbered alike.
-/
namespace MovieDiff.Pcode

open List
open Text (lowercase)

/-! ### Registers -/

namespace RegisterScope

variable {later scope : RegisterScope} {registers : List String} {register : String}

theorem prefix_add (scope : RegisterScope) (register : String) : scope <+: scope.add register := by
  unfold add
  split
  · exact prefix_refl scope
  · exact prefix_append scope [register]

theorem mem_add (scope : RegisterScope) (register : String) : register ∈ scope.add register := by
  unfold add
  split
  next hmem => exact contains_iff_mem.1 hmem
  · exact mem_append_right _ (mem_singleton_self register)

/-- A register keeps its number. -/
theorem number_of_isPrefix (h : scope <+: later) (hmem : register ∈ scope) :
    later.number register = scope.number register := by
  obtain ⟨more, rfl⟩ := h
  unfold number
  rw [idxOf_append_of_mem hmem]

variable {other : String}

/-- Different registers have different numbers. -/
theorem number_inj (h : register ∈ scope) :
    scope.number register = scope.number other ↔ register = other := by
  unfold number
  rw [Nat.add_right_cancel_iff]
  exact idxOf_inj h

theorem mem_add_iff : other ∈ scope.add register ↔ other ∈ scope ∨ other = register := by
  unfold add
  split
  next hcontains =>
    rw [contains_iff_mem] at hcontains
    constructor
    · exact Or.inl
    · rintro (h | rfl)
      · exact h
      · exact hcontains
  · simp

def addAll (scope : RegisterScope) (registers : List String) : RegisterScope :=
  registers.foldl add scope

theorem prefix_addAll (scope : RegisterScope) (registers : List String) :
    scope <+: scope.addAll registers := by
  induction registers generalizing scope with
  | nil => exact prefix_refl scope
  | cons first registers ih => exact (scope.prefix_add first).trans (ih _)

theorem addAll_append (scope : RegisterScope) (registers more : List String) :
    scope.addAll (registers ++ more) = (scope.addAll registers).addAll more :=
  foldl_append

theorem mem_addAll_iff :
    register ∈ scope.addAll registers ↔ register ∈ scope ∨ register ∈ registers := by
  induction registers generalizing scope with
  | nil => simp [addAll]
  | cons first registers ih =>
    rw [addAll, foldl_cons, ← addAll, ih, mem_add_iff, mem_cons, or_assoc]

theorem nodup_addAll (h : scope.Nodup) : (scope.addAll registers).Nodup := by
  induction registers generalizing scope with
  | nil => exact h
  | cons first registers ih =>
    apply ih
    unfold add
    split
    · exact h
    next hcontains =>
      rw [contains_iff_mem] at hcontains
      exact List.nodup_append.2 ⟨h, nodup_singleton _, by
        rintro register hregister other hother rfl
        exact hcontains (mem_singleton.1 hother ▸ hregister)⟩

/-- As many registers are numbered as different ones have appeared. -/
theorem length_addAll (registers : List String) :
    (addAll [] registers).length = registers.dedup.length := by
  apply List.Perm.length_eq
  rw [perm_ext_iff_of_nodup (nodup_addAll nodup_nil) (nodup_dedup _)]
  intro register
  rw [mem_addAll_iff, mem_dedup]
  simp

/-- A register takes the number next to those of the registers that have appeared before it. -/
theorem number_addAll (h : register ∈ registers) :
    (addAll [] registers).number register =
      (registers.takeWhile (· != register)).dedup.length + 1 := by
  -- Cut before the first appearance: it is the one that enters the scope.
  obtain ⟨before, after, rfl, hnot⟩ := eq_append_cons_of_mem h
  have hbefore : (before ++ register :: after).takeWhile (· != register) = before := by
    rw [takeWhile_append_of_pos, takeWhile_cons_of_neg (by simp), append_nil]
    intro other hother
    simpa using ne_of_mem_of_not_mem hother hnot
  have hnew : register ∉ addAll [] before := by simpa [mem_addAll_iff] using hnot
  have hadd : (addAll [] before).add register = addAll [] before ++ [register] := by
    rw [add, if_neg (by simpa using hnew)]
  have hscope : addAll [] (before ++ register :: after) =
      ((addAll [] before).add register).addAll after :=
    addAll_append [] before (register :: after)
  rw [hbefore, ← length_addAll, hscope, number_of_isPrefix (prefix_addAll _ after)
    (mem_add _ register), hadd, number, idxOf_append_of_notMem hnew]
  simp

end RegisterScope

/-! ### Positions in mapped lists -/

section Maps

variable {α β γ : Type}

/-- Two maps that take the same members to the image of `a` find it in the same place. -/
theorem idxOf_map_congr [DecidableEq β] [DecidableEq γ] {f : α → β} {g : α → γ} {a : α}
    {l : List α} (h : ∀ b ∈ l, f b = f a ↔ g b = g a) :
    (l.map f).idxOf (f a) = (l.map g).idxOf (g a) := by
  induction l with
  | nil => rfl
  | cons b l ih =>
    rw [map_cons, map_cons, idxOf_cons, idxOf_cons,
      ih fun c hc => h c (mem_cons_of_mem b hc)]
    by_cases hb : f b = f a
    · have hb' := (h b mem_cons_self).1 hb
      simp [hb, hb']
    · have hb' : g b ≠ g a := fun heq => hb ((h b mem_cons_self).2 heq)
      rw [beq_false_of_ne hb, beq_false_of_ne hb']

theorem contains_map_congr [DecidableEq β] [DecidableEq γ] {f : α → β} {g : α → γ} {a : α}
    {l : List α} (h : ∀ b ∈ l, f b = f a ↔ g b = g a) :
    (l.map f).contains (f a) = (l.map g).contains (g a) := by
  rw [Bool.eq_iff_iff, contains_iff_mem, contains_iff_mem, mem_map, mem_map]
  exact exists_congr fun b => and_congr_right fun hb => h b hb

variable {f g : α → String} {items : List α}

/-- Where two maps tell items apart alike, the same items enter a scope. -/
theorem RegisterScope.exists_addAll_map {scope : List α}
    (h : ∀ a ∈ scope ++ items, ∀ b ∈ items, f a = f b ↔ g a = g b) :
    ∃ kept ⊆ scope ++ items, RegisterScope.addAll (scope.map f) (items.map f) = kept.map f ∧
      RegisterScope.addAll (scope.map g) (items.map g) = kept.map g := by
  induction items generalizing scope with
  | nil => exact ⟨scope, subset_append_left _ _, rfl, rfl⟩
  | cons first items ih =>
    obtain ⟨next, hsubset, hf, hg⟩ : ∃ next ⊆ scope ++ [first],
        RegisterScope.add (scope.map f) (f first) = next.map f ∧
          RegisterScope.add (scope.map g) (g first) = next.map g := by
      have hcontains : (scope.map f).contains (f first) = (scope.map g).contains (g first) :=
        contains_map_congr fun a ha => h a (mem_append_left _ ha) first mem_cons_self
      unfold RegisterScope.add
      rw [hcontains]
      split
      · exact ⟨scope, subset_append_left _ _, rfl, rfl⟩
      · exact ⟨scope ++ [first], Subset.refl _, by rw [map_append]; rfl, by rw [map_append]; rfl⟩
    have hwithin : next ++ items ⊆ scope ++ first :: items := by
      rw [append_cons]
      exact append_subset.2 ⟨subset_append_of_subset_left _ hsubset, subset_append_right _ _⟩
    obtain ⟨kept, hkept, hf', hg'⟩ := @ih next fun a ha b hb =>
      h a (hwithin ha) b (mem_cons_of_mem first hb)
    refine ⟨kept, Subset.trans hkept hwithin, ?_, ?_⟩
    · rw [map_cons, RegisterScope.addAll, foldl_cons, hf]
      exact hf'
    · rw [map_cons, RegisterScope.addAll, foldl_cons, hg]
      exact hg'

theorem RegisterScope.number_addAll_congr
    (h : ∀ a ∈ items, ∀ b ∈ items, f a = f b ↔ g a = g b) {a : α}
    (ha : ∀ b ∈ items, f b = f a ↔ g b = g a) :
    (RegisterScope.addAll [] (items.map f)).number (f a) =
      (RegisterScope.addAll [] (items.map g)).number (g a) := by
  obtain ⟨kept, hkept, hf, hg⟩ := @RegisterScope.exists_addAll_map α f g items [] h
  rw [map_nil] at hf hg
  rw [hf, hg, RegisterScope.number, RegisterScope.number,
    idxOf_map_congr fun b hb => ha b (hkept hb)]

end Maps

/-! ### Labels -/

theorem toString_number_inj {m n : Nat} (h : toString m = toString n) : m = n := by
  have hdigits := congrArg (fun text => Nat.ofDigitChars 10 text.toList 0) h
  simpa using hdigits

namespace LabelScope

variable {scope : LabelScope} {label : String}

theorem key_mem_add (scope : LabelScope) (label : String) : lowercase label ∈ scope.add label :=
  RegisterScope.mem_add scope (lowercase label)

theorem name_of_isPrefix {later : LabelScope} (h : scope <+: later)
    (hmem : lowercase label ∈ scope) : later.name label = scope.name label := by
  obtain ⟨more, rfl⟩ := h
  unfold name
  rw [idxOf_append_of_mem hmem]

/-- Names tell labels apart up to letter case. -/
theorem name_inj {other : String} (h : lowercase label ∈ scope) :
    scope.name label = scope.name other ↔ lowercase label = lowercase other := by
  unfold name
  rw [String.append_right_inj, ← idxOf_inj h]
  exact ⟨toString_number_inj, congrArg toString⟩

def addAll (scope : LabelScope) (labels : List String) : LabelScope :=
  labels.foldl add scope

theorem addAll_eq (scope : LabelScope) (labels : List String) :
    scope.addAll labels = RegisterScope.addAll scope (labels.map lowercase) := by
  unfold addAll RegisterScope.addAll
  rw [foldl_map]
  rfl

theorem prefix_addAll (scope : LabelScope) (labels : List String) :
    scope <+: scope.addAll labels := by
  rw [addAll_eq]
  exact RegisterScope.prefix_addAll scope _

variable {labels : List String}

theorem mem_addAll_iff {key : String} :
    key ∈ scope.addAll labels ↔ key ∈ scope ∨ key ∈ labels.map lowercase := by
  rw [addAll_eq]
  exact RegisterScope.mem_addAll_iff

theorem addAll_append (scope : LabelScope) (labels more : List String) :
    scope.addAll (labels ++ more) = (scope.addAll labels).addAll more :=
  foldl_append

/-- Labels that are told apart alike have the same names. -/
theorem name_addAll_congr {f : String → String}
    (h : ∀ a ∈ labels, ∀ b ∈ labels, lowercase (f a) = lowercase (f b) ↔ lowercase a = lowercase b)
    (hlabel : label ∈ labels) :
    (LabelScope.addAll [] (labels.map f)).name (f label) = (LabelScope.addAll [] labels).name label := by
  have hnumber : (RegisterScope.addAll [] (labels.map (lowercase ∘ f))).number (lowercase (f label)) =
      (RegisterScope.addAll [] (labels.map lowercase)).number (lowercase label) :=
    RegisterScope.number_addAll_congr h fun a ha => h a ha label hlabel
  rw [addAll_eq, addAll_eq, map_map, name, name, Nat.succ.inj hnumber]

end LabelScope

end MovieDiff.Pcode
