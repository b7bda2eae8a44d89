import Mathlib.Data.List.Induction

/-!
Runs of neighbours. A list is merged from left to right: an element that meets what its
predecessors make together is joined to them, and any other one starts anew. So the list falls into
runs, and merging keeps one element for each of them.
-/
namespace MovieDiff

open List

/-- When an element meets what was merged before it, and what the two make together. -/
structure Merging (α : Type) where
  Meets : α → α → Prop
  join : α → α → α
  decMeets : DecidableRel Meets

namespace Merging

variable {α : Type} (m : Merging α)

instance : DecidableRel m.Meets :=
  m.decMeets

/-- Each element meets what those before it make together; `whole` stands for the first ones. -/
def Links (whole : α) : List α → Prop
  | [] => True
  | x :: rest => m.Meets whole x ∧ Links (m.join whole x) rest

/-- Neighbours that are merged one after another. -/
structure Run where
  first : α
  rest : List α
  links : m.Links first rest

variable {m}

theorem links_append {whole : α} {before after : List α} :
    m.Links whole (before ++ after) ↔
      m.Links whole before ∧ m.Links (before.foldl m.join whole) after := by
  induction before generalizing whole with
  | nil => exact ⟨fun h => ⟨trivial, h⟩, fun h => h.2⟩
  | cons x before ih =>
    rw [cons_append, Links, Links, ih, foldl_cons, and_assoc]

namespace Run

def members (r : m.Run) : List α :=
  r.first :: r.rest

def whole (r : m.Run) : α :=
  r.rest.foldl m.join r.first

def single (x : α) : m.Run :=
  ⟨x, [], trivial⟩

def add (r : m.Run) (x : α) (h : m.Meets r.whole x) : m.Run :=
  ⟨r.first, r.rest ++ [x], links_append.2 ⟨r.links, h, trivial⟩⟩

/-- The run ends before the other one, whose first member does not meet it. -/
def Stops (r next : m.Run) : Prop :=
  ¬ m.Meets r.whole next.first

@[simp] theorem members_single (x : α) : (single x : m.Run).members = [x] := rfl

@[simp] theorem whole_single (x : α) : (single x : m.Run).whole = x := rfl

@[simp] theorem members_add (r : m.Run) (x : α) (h : m.Meets r.whole x) :
    (r.add x h).members = r.members ++ [x] := rfl

@[simp] theorem whole_add (r : m.Run) (x : α) (h : m.Meets r.whole x) :
    (r.add x h).whole = m.join r.whole x := by
  simp [whole, add]

theorem first_mem (r : m.Run) : r.first ∈ r.members :=
  mem_cons_self

/-- What holds of a single element and is kept by joining holds of every run. -/
theorem whole_induction {motive : List α → α → Prop} (hsingle : ∀ x, motive [x] x)
    (hadd : ∀ (r : m.Run) (x : α), m.Meets r.whole x → motive r.members r.whole →
      motive (r.members ++ [x]) (m.join r.whole x)) (r : m.Run) : motive r.members r.whole := by
  obtain ⟨first, rest, hlinks⟩ := r
  induction rest using List.reverseRecOn with
  | nil => exact hsingle first
  | append_singleton rest x ih =>
    obtain ⟨hrest, hmeets, -⟩ := links_append.1 hlinks
    have hnext := hadd ⟨first, rest, hrest⟩ x hmeets (ih hrest)
    rw [← whole_add _ x hmeets] at hnext
    exact hnext

end Run

/-- The runs that merging forms after the run `r`. -/
def runsFrom (r : m.Run) : List α → List m.Run
  | [] => [r]
  | next :: rest =>
    if h : m.Meets r.whole next then runsFrom (r.add next h) rest
    else r :: runsFrom (.single next) rest

variable (m) in
def runsOf : List α → List m.Run
  | [] => []
  | x :: rest => runsFrom (.single x) rest

/-- The runs hold all elements, in order. -/
theorem flatMap_members_runsFrom (r : m.Run) (rest : List α) :
    (runsFrom r rest).flatMap Run.members = r.members ++ rest := by
  induction rest generalizing r with
  | nil => simp [runsFrom]
  | cons next rest ih =>
    rw [runsFrom]
    split
    · rw [ih, Run.members_add, append_assoc, singleton_append]
    · rw [flatMap_cons, ih, Run.members_single, singleton_append]

theorem exists_runsFrom_eq_cons (r : m.Run) (rest : List α) :
    ∃ first others, runsFrom r rest = first :: others ∧ first.first = r.first := by
  induction rest generalizing r with
  | nil => exact ⟨r, [], rfl, rfl⟩
  | cons next rest ih =>
    rw [runsFrom]
    split
    next h => exact ih (r.add next h)
    · exact ⟨r, _, rfl, rfl⟩

theorem isChain_runsFrom (r : m.Run) (rest : List α) :
    (runsFrom r rest).IsChain Run.Stops := by
  induction rest generalizing r with
  | nil => exact .singleton r
  | cons next rest ih =>
    rw [runsFrom]
    split
    · exact ih _
    next h =>
      obtain ⟨first, others, heq, hfirst⟩ := exists_runsFrom_eq_cons (.single next : m.Run) rest
      have hrest := ih (.single next)
      rw [heq] at hrest ⊢
      refine .cons_cons ?_ hrest
      rw [Run.Stops, hfirst]
      exact h

variable (m) in
/-- The members of the runs are all elements, in order. -/
theorem flatMap_members_runsOf (xs : List α) : (m.runsOf xs).flatMap Run.members = xs := by
  cases xs with
  | nil => rfl
  | cons x rest => exact flatMap_members_runsFrom (.single x) rest

variable (m) in
/-- Each run stops before the next one. -/
theorem isChain_runsOf (xs : List α) : (m.runsOf xs).IsChain Run.Stops := by
  cases xs with
  | nil => exact .nil
  | cons x rest => exact isChain_runsFrom (.single x) rest

theorem infix_of_mem_runs {runs : List m.Run} {r : m.Run} (h : r ∈ runs) :
    r.members <:+: runs.flatMap Run.members := by
  obtain ⟨before, after, rfl⟩ := append_of_mem h
  refine ⟨before.flatMap Run.members, after.flatMap Run.members, ?_⟩
  rw [flatMap_append, flatMap_cons, append_assoc]

end Merging

end MovieDiff
