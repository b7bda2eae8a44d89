import MovieDiff.Proofs.Display.Groups

/-!
The lines that a group of differences shows on each side once the edges are trimmed. Trimming
looks at the first and the last changed line of each side, and these need not belong to the same
difference.
-/
namespace MovieDiff.Display

open List
open Hunk (ofRange HasEdges KeepsLead KeepsTrail)

variable {r : Region} {rest : List Region} {left : List String}

structure Window where
  leftFrom : Nat
  leftTo : Nat
  rightFrom : Nat
  rightTo : Nat
  deriving DecidableEq, Repr

namespace Group

def window (left right : List String) (g : Group) : Window :=
  ⟨g.leftFrom, g.leftTo left, g.rightFrom, g.rightTo right⟩

def hunksIn (left right : List String) (g : Group) (w : Window) : HunkPair :=
  ⟨some (ofRange left g.changesLeft w.leftFrom w.leftTo),
    some (ofRange right g.changesRight w.rightFrom w.rightTo)⟩

end Group

/-! ### First and last changed lines -/

/-- The first difference that takes lines away; those before it only add lines. -/
theorem Chained.exists_first (h : Chained r rest) (hr : r.IsDifference)
    (hsome : ∃ x ∈ r :: rest, x.leftStart < x.leftStop) :
    ∃ x ∈ r :: rest, x.leftStart < x.leftStop ∧
      (∀ y ∈ r :: rest, y.leftStart < y.leftStop → x.leftStart ≤ y.leftStart) ∧
      x.leftStart + r.rightStart ≤ x.rightStart + r.leftStart ∧
      (r.leftStart < r.leftStop → x = r) := by
  induction rest generalizing r with
  | nil =>
    obtain ⟨x, hx, hlt⟩ := hsome
    rw [mem_singleton.1 hx] at hlt
    refine ⟨r, mem_singleton_self r, hlt, fun y hy _ => ?_, by omega, fun _ => rfl⟩
    exact (h.bounds hr y hy).2.1
  | cons next rest ih =>
    by_cases hlt : r.leftStart < r.leftStop
    · refine ⟨r, mem_cons_self, hlt, fun y hy _ => ?_, by omega, fun _ => rfl⟩
      exact (h.bounds hr y hy).2.1
    · have hle := hr.left_le
      have hle' := hr.right_le
      obtain ⟨⟨k, -, hleft, hright⟩, hnext, hrest⟩ := h
      have hsome' : ∃ x ∈ next :: rest, x.leftStart < x.leftStop := by
        obtain ⟨x, hx, hx'⟩ := hsome
        rcases mem_cons.1 hx with rfl | hx
        · exact absurd hx' hlt
        · exact ⟨x, hx, hx'⟩
      obtain ⟨x, hx, hx', hmin, hshift, -⟩ := ih hrest hnext hsome'
      refine ⟨x, mem_cons_of_mem _ hx, hx', fun y hy hy' => ?_, by omega,
        fun hlt' => absurd hlt' hlt⟩
      rcases mem_cons.1 hy with rfl | hy
      · exact absurd hy' hlt
      · exact hmin y hy hy'

/-- Differences that only add lines move the right end ahead of the left one. -/
theorem Chained.shift_of_forall_empty (h : Chained r rest)
    (hempty : ∀ x ∈ rest, x.leftStop ≤ x.leftStart) :
    (rest.getLastD r).leftStop + r.rightStop ≤ (rest.getLastD r).rightStop + r.leftStop := by
  induction rest generalizing r with
  | nil =>
    rw [getLastD_nil]
    omega
  | cons next rest ih =>
    obtain ⟨⟨k, -, hleft, hright⟩, hnext, hrest⟩ := h
    have hshift := ih hrest fun x hx => hempty x (mem_cons_of_mem _ hx)
    have hnone := hempty next mem_cons_self
    have hle := hnext.right_le
    rw [getLastD_cons]
    omega

/-- The last difference that takes lines away; those after it only add lines. -/
theorem Chained.exists_last (h : Chained r rest) (hr : r.IsDifference)
    (hsome : ∃ x ∈ r :: rest, x.leftStart < x.leftStop) :
    ∃ x ∈ r :: rest, x.leftStart < x.leftStop ∧
      (∀ y ∈ r :: rest, y.leftStart < y.leftStop → y.leftStop ≤ x.leftStop) ∧
      (rest.getLastD r).leftStop + x.rightStop ≤ (rest.getLastD r).rightStop + x.leftStop ∧
      ((rest.getLastD r).leftStart < (rest.getLastD r).leftStop → x = rest.getLastD r) := by
  induction rest generalizing r with
  | nil =>
    obtain ⟨x, hx, hlt⟩ := hsome
    rw [mem_singleton.1 hx] at hlt
    refine ⟨r, mem_singleton_self r, hlt, fun y hy _ => ?_, by simp; omega, fun _ => rfl⟩
    exact (h.bounds hr y hy).2.2.2.1
  | cons next rest ih =>
    by_cases hlater : ∃ x ∈ next :: rest, x.leftStart < x.leftStop
    · obtain ⟨⟨k, -, hleft, -⟩, hnext, hrest⟩ := h
      obtain ⟨x, hx, hx', hmax, hshift, hlast⟩ := ih hrest hnext hlater
      have hstart := (hrest.bounds hnext x hx).2.1
      rw [getLastD_cons]
      refine ⟨x, mem_cons_of_mem _ hx, hx', fun y hy hy' => ?_, hshift, hlast⟩
      rcases mem_cons.1 hy with rfl | hy
      · omega
      · exact hmax y hy hy'
    · have hempty : ∀ x ∈ next :: rest, x.leftStop ≤ x.leftStart := fun x hx =>
        Nat.le_of_not_lt fun hlt => hlater ⟨x, hx, hlt⟩
      have hr' : r.leftStart < r.leftStop := by
        obtain ⟨x, hx, hlt⟩ := hsome
        rcases mem_cons.1 hx with rfl | hx
        · exact hlt
        · exact absurd ⟨x, hx, hlt⟩ hlater
      refine ⟨r, mem_cons_self, hr', fun y hy hy' => ?_, h.shift_of_forall_empty hempty,
        fun hlt => ?_⟩
      · rcases mem_cons.1 hy with rfl | hy
        · exact Nat.le_refl _
        · exact absurd ⟨y, hy, hy'⟩ hlater
      · rw [getLastD_cons] at hlt
        exact absurd ⟨_, getLastD_mem_cons, hlt⟩ hlater

/-- The left text is changed from `start` up to `stop`. The differences before the first of these
lines, and those after the last, only add lines to the right text. -/
structure Group.LeftEdges (left : List String) (g : Group) (start stop : Nat) : Prop where
  edges : HasEdges left g.changesLeft g.leftFrom (g.leftTo left) start (stop - 1)
  first_le : g.first.leftStart ≤ start
  lt : start < stop
  le_last : stop ≤ g.last.leftStop
  starts : ∃ r ∈ g.regions, r.leftStart = start ∧
    start + g.first.rightStart ≤ r.rightStart + g.first.leftStart
  stops : ∃ r ∈ g.regions, r.leftStop = stop ∧
    g.last.leftStop + r.rightStop ≤ g.last.rightStop + stop
  start_eq : g.first.leftStart < g.first.leftStop → start = g.first.leftStart
  stop_eq : g.last.leftStart < g.last.leftStop → stop = g.last.leftStop

variable {g : Group}

theorem Group.LeftEdges.stop_le {start stop : Nat} (h : g.LeftEdges left start stop) :
    stop ≤ g.leftTo left := by
  have hlt := h.edges.last_lt
  omega

variable {right : List String}

theorem Group.InText.exists_leftEdges (h : g.InText left right)
    (hsome : ∃ i, g.changesLeft i = true) :
    ∃ start stop, g.LeftEdges left start stop := by
  have hregion : ∃ r ∈ g.regions, r.leftStart < r.leftStop := by
    obtain ⟨i, hi⟩ := hsome
    obtain ⟨r, hr, hstart, hstop⟩ := Group.changesLeft_eq_true.1 hi
    exact ⟨r, hr, by omega⟩
  obtain ⟨x, hx, hx', hmin, hshift, hfirst⟩ := h.chained.exists_first h.first hregion
  obtain ⟨y, hy, hy', hmax, hshift', hlast⟩ := h.chained.exists_last h.first hregion
  have hbounds := (h.bounds x hx).2
  have hbounds' := (h.bounds y hy).2
  have hstarts := hmin y hy hy'
  have hstops := hmax x hx hx'
  have hend := h.left_le
  have hchanged : g.changesLeft x.leftStart = true :=
    Group.changesLeft_eq_true.2 ⟨x, hx, Nat.le_refl _, hx'⟩
  have hchanged' : g.changesLeft (y.leftStop - 1) = true :=
    Group.changesLeft_eq_true.2 ⟨y, hy, by omega, by omega⟩
  have houtside : ∀ i, i < x.leftStart ∨ y.leftStop ≤ i → g.changesLeft i = false := by
    intro i hi
    rw [Bool.eq_false_iff]
    intro htrue
    obtain ⟨r, hr, hstart, hstop⟩ := Group.changesLeft_eq_true.1 htrue
    have hle := hmin r hr (by omega)
    have hle' := hmax r hr (by omega)
    omega
  refine ⟨x.leftStart, y.leftStop, ?_, hbounds.1, by omega, hbounds'.2.2.1, ⟨x, hx, rfl, hshift⟩,
    ⟨y, hy, rfl, hshift'⟩, fun hlt => by rw [hfirst hlt], fun hlt => ?_⟩
  · exact ⟨(h.changesLeft_bounds hchanged).1, by omega, (h.changesLeft_bounds hchanged').2,
      g.leftTo_le left, hchanged, hchanged', fun i _ hi => houtside i (.inl hi),
      fun i hi _ => houtside i (.inr (by omega))⟩
  · have heq := hlast hlt
    exact congrArg Region.leftStop heq

/-! ### Trimming -/

/-- What trimming may leave of the group: all of it, or context of both sides that agrees. -/
def Group.Trims (left right : List String) (g : Group) (w : Window) : Prop :=
  w = g.window left right ∨
    ∃ start stop start' stop', g.LeftEdges left start stop ∧ g.swap.LeftEdges right start' stop' ∧
      KeepsLead left right g.leftFrom g.rightFrom start start' w.leftFrom w.rightFrom ∧
      KeepsTrail left right stop stop' (g.leftTo left) (g.rightTo right) w.leftTo w.rightTo

/-- Trimming the hunks of a group leaves them inside a window. -/
theorem trimPair_hunks (h : g.InText left right) :
    ∃ w, g.Trims left right w ∧
      trimPair (g.hunks left right).toPair = g.hunksIn left right w := by
  by_cases hchanged : (∃ i, g.changesLeft i = true) ∧ ∃ i, g.changesRight i = true
  · obtain ⟨start, stop, hedges⟩ := h.exists_leftEdges hchanged.1
    obtain ⟨start', stop', hedges'⟩ := h.swap.exists_leftEdges hchanged.2
    have hlt := hedges.lt
    have hlt' := hedges'.lt
    obtain ⟨x, y, x', y', hlead, htrail, heq⟩ :=
      Hunk.alignEdges_ofRange hedges.edges hedges'.edges
    rw [Nat.sub_add_cancel (by omega), Nat.sub_add_cancel (by omega)] at htrail
    refine ⟨⟨x, x', y, y'⟩, .inr ⟨start, stop, start', stop', hedges, hedges', hlead, htrail⟩, ?_⟩
    change Hunk.alignEdges (g.hunks left right).left (g.hunks left right).right = _ at heq
    change HunkPair.mk (some (Hunk.alignEdges _ _).1) (some (Hunk.alignEdges _ _).2) = _
    rw [heq]
    rfl
  · have hall : ((g.hunks left right).left.all HunkLine.isContext ||
        (g.hunks left right).right.all HunkLine.isContext) = true := by
      rw [Bool.or_eq_true, Group.hunks, Hunk.all_isContext_iff (g.leftTo_le left),
        Hunk.all_isContext_iff (g.rightTo_le right)]
      by_cases hleft : ∃ i, g.changesLeft i = true
      · right
        intro i _ _
        rw [Bool.eq_false_iff]
        exact fun htrue => hchanged ⟨hleft, i, htrue⟩
      · left
        intro i _ _
        rw [Bool.eq_false_iff]
        exact fun htrue => hleft ⟨i, htrue⟩
    refine ⟨g.window left right, .inl rfl, ?_⟩
    change HunkPair.mk (some (Hunk.alignEdges _ _).1) (some (Hunk.alignEdges _ _).2) = _
    rw [Hunk.alignEdges_of_context hall]
    rfl

end MovieDiff.Display
