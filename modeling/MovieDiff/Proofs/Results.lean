import Mathlib.Data.List.Forall2

/-!
Computations that may fail. Steps that succeed one after the other have each succeeded, and so has
a step for each element of a list, whose results stand in the order of the elements.
-/
namespace MovieDiff

open List

variable {ε α β γ : Type} {xs : List α} {ys : List β} {f : α → Except ε β}

/-- A step that succeeds in the end has succeeded at first. -/
theorem exists_of_bind_eq_ok {result : Except ε α} {next : α → Except ε β} {b : β}
    (h : result >>= next = .ok b) : ∃ a, result = .ok a ∧ next a = .ok b := by
  cases result with
  | error fault => cases h
  | ok a => exact ⟨a, rfl, h⟩

theorem exists_of_map_eq_ok {result : Except ε α} {g : α → β} {b : β} (h : result.map g = .ok b) :
    ∃ a, result = .ok a ∧ g a = b := by
  cases result with
  | error fault => cases h
  | ok a => exact ⟨a, rfl, Except.ok.inj h⟩

theorem eq_ok_of_toOption {result : Except ε α} {a : α} (h : result.toOption = some a) :
    result = .ok a := by
  cases result with
  | error fault => cases h
  | ok b => rw [Option.some.inj h]

theorem foldlM_concat (step : β → α → Except ε β) (xs : List α) (x : α) (start : β) :
    (xs ++ [x]).foldlM step start = xs.foldlM step start >>= fun found => step found x := by
  rw [foldlM_append]
  simp only [foldlM_cons, foldlM_nil, bind_pure]

/-! ### One result for each element -/

theorem exists_of_mem_forall₂ {r : α → β → Prop} (h : Forall₂ r xs ys) {x : α} (hx : x ∈ xs) :
    ∃ y ∈ ys, r x y := by
  induction h with
  | nil => cases hx
  | cons hrel _ ih =>
    rcases mem_cons.1 hx with rfl | hx
    · exact ⟨_, mem_cons_self, hrel⟩
    · obtain ⟨y, hy, hrel⟩ := ih hx
      exact ⟨y, mem_cons_of_mem _ hy, hrel⟩

/-- What succeeds on a whole list succeeds on each of its members. -/
theorem forall₂_of_mapM_eq_ok (h : xs.mapM f = .ok ys) : Forall₂ (fun x y => f x = .ok y) xs ys := by
  induction xs generalizing ys with
  | nil =>
    cases h
    exact .nil
  | cons x xs ih =>
    rw [mapM_cons] at h
    obtain ⟨y, hy, h⟩ := exists_of_bind_eq_ok h
    obtain ⟨rest, hrest, h⟩ := exists_of_bind_eq_ok h
    cases h
    exact .cons hy (ih hrest)

theorem mem_of_mapM_eq_ok (h : xs.mapM f = .ok ys) {y : β} : y ∈ ys ↔ ∃ x ∈ xs, f x = .ok y := by
  have hpairs := forall₂_of_mapM_eq_ok h
  refine ⟨exists_of_mem_forall₂ hpairs.flip, ?_⟩
  rintro ⟨x, hx, hy⟩
  obtain ⟨found, hfound, hx⟩ := exists_of_mem_forall₂ hpairs hx
  exact Except.ok.inj (hx.symm.trans hy) ▸ hfound

theorem exists_mapM_eq_ok {g : β → γ} {k : α → γ} (h : ∀ x ∈ xs, ∃ y, f x = .ok y ∧ g y = k x) :
    ∃ ys, xs.mapM f = .ok ys ∧ ys.map g = xs.map k := by
  induction xs with
  | nil => exact ⟨[], rfl, rfl⟩
  | cons x xs ih =>
    obtain ⟨y, hy, hgy⟩ := h x mem_cons_self
    obtain ⟨ys, hys, hgys⟩ := ih fun x' hx' => h x' (mem_cons_of_mem x hx')
    refine ⟨y :: ys, ?_, by rw [map_cons, map_cons, hgy, hgys]⟩
    rw [mapM_cons, hy, hys]
    rfl

/-- Steps that all succeed succeed together. -/
theorem mapM_eq_ok {g : α → β} (h : ∀ x ∈ xs, f x = .ok (g x)) : xs.mapM f = .ok (xs.map g) := by
  obtain ⟨ys, hys, hmap⟩ := exists_mapM_eq_ok (g := id) fun x hx => ⟨g x, h x hx, rfl⟩
  rw [map_id] at hmap
  rw [hys, hmap]
  rfl

end MovieDiff
