import Mathlib.Data.List.Forall2
import MovieDiff.Proofs.Display.Windows

/-!
Replacing the lines that windows hold of the left text by those they hold of the right one. With
the whole windows of all groups this gives the right text; a window that was trimmed on its own
terms never does, for then a shared run would fit at an earlier place than it was found.
-/
namespace MovieDiff.Display

open List
open Hunk (KeepsLead KeepsTrail)
open Match (IsMatch Divides)

variable {r : Region} {lines : List String} {k i j start stop start' stop' : Nat} {ws : List Window}
  {w : Window} {gs : List Group}

/-- The left text from a place on, with the lines of each window replaced. -/
def replaceFrom (left right : List String) (i : Nat) : List Window → List String
  | [] => left.drop i
  | w :: rest =>
    slice left i w.leftFrom ++ (slice right w.rightFrom w.rightTo ++
      replaceFrom left right w.leftTo rest)

/-! ### Runs that were not found -/

section Runs

variable {left right : List String}

theorem separates_of_mem {b : Match} (hr : r ∈ differences left right)
    (hb : b ∈ Match.all left right) : r.Separates b :=
  differences_separate (ordered_all left right) hr b hb

/-- No match runs over the edge of a difference. -/
theorem divides_of_mem (hr : r ∈ differences left right) :
    Divides (Match.all left right) r.leftStart r.rightStart ∧
      Divides (Match.all left right) r.leftStop r.rightStop := by
  obtain ⟨hle, hle', -⟩ := isDifference_of_mem hr
  refine ⟨fun b hb => ?_, fun b hb => ?_⟩ <;>
  · have hseparates := separates_of_mem hr hb
    unfold Region.Separates at hseparates
    omega

theorem divides_length (left right : List String) :
    Divides (Match.all left right) left.length right.length :=
  fun _ hb => .inl ⟨(isMatch_of_mem_all hb).left_le, (isMatch_of_mem_all hb).right_le⟩

/-- A match that lies behind the start of a chain of differences has at most ten lines or lies
behind all of it. -/
theorem Chained.size_le_or_after {rest : List Region} (h : Chained r rest) {b : Match}
    (hseparates : ∀ x ∈ r :: rest, x.Separates b) (hstart : r.leftStart ≤ b.left) :
    b.size ≤ 10 ∨ (rest.getLastD r).leftStop ≤ b.left ∧ (rest.getLastD r).rightStop ≤ b.right := by
  induction rest generalizing r with
  | nil =>
    have hr := hseparates r mem_cons_self
    unfold Region.Separates at hr
    rw [getLastD_nil]
    omega
  | cons next rest ih =>
    obtain ⟨⟨k, hk, hleft, -⟩, hdifference, hrest⟩ := h
    have hle := hdifference.left_le
    have hr := hseparates r mem_cons_self
    have hnext := hseparates next (mem_cons_of_mem _ mem_cons_self)
    unfold Region.Separates at hr hnext
    rw [getLastD_cons]
    by_cases hbefore : b.left + b.size ≤ next.leftStart
    · left
      omega
    · exact ih hrest (fun x hx => hseparates x (mem_cons_of_mem _ hx)) (by omega)

variable {g : Group} (hg : g.InText left right)
  (hregions : ∀ r ∈ g.regions, r ∈ differences left right)
include hg hregions

/-- The run behind a group is the first one of its length between the start of the group and its
own end, if it has more than ten lines. -/
theorem eq_last_of_isMatch {a b : Nat} (hk : 10 < k)
    (hend : Divides (Match.all left right) (g.last.leftStop + k) (g.last.rightStop + k))
    (hm : IsMatch left right ⟨a, b, k⟩) (ha : g.first.leftStart ≤ a) (hb : g.first.rightStart ≤ b)
    (ha' : a ≤ g.last.leftStop) (hb' : b ≤ g.last.rightStop) :
    a = g.last.leftStop ∧ b = g.last.rightStop := by
  have hfirst := (divides_of_mem (hregions g.first mem_cons_self)).1
  obtain ⟨block, hblock, ⟨hge, hge', hle, hle'⟩, hprecedes⟩ :=
    Match.exists_precedes_all hfirst hend hm (by simp only; omega)
      ⟨ha, hb, by simp only; omega, by simp only; omega⟩
  unfold Match.Precedes Match.Visited at hprecedes
  simp only at hprecedes
  have hseparates : ∀ r ∈ g.regions, r.Separates block :=
    fun r hr => separates_of_mem (hregions r hr) hblock
  rcases hg.chained.size_le_or_after hseparates hge with hshort | ⟨hafter, hafter'⟩
  · omega
  · change g.last.leftStop ≤ block.left at hafter
    change g.last.rightStop ≤ block.right at hafter'
    omega

/-- A run before a group does not go on into the lines that the left text has before its first
changed one. -/
theorem not_isMatch_lead (hstart : Divides (Match.all left right) i j)
    (hedges : g.LeftEdges left start stop) (hk : 0 < k) (hi : g.first.leftStart = i + k)
    (hj : g.first.rightStart = j + k) (hlt : g.first.leftStart < start) :
    ¬ IsMatch left right ⟨i, j, start - i⟩ := by
  intro hm
  obtain ⟨r, hr, hr', hshift⟩ := hedges.starts
  have hend := (divides_of_mem (hregions r hr)).1
  obtain ⟨block, hblock, ⟨hge, hge', hle, hle'⟩, hprecedes⟩ :=
    Match.exists_precedes_all hstart hend hm (by simp only; omega)
      ⟨Nat.le_refl _, Nat.le_refl _, by simp only; omega, by simp only; omega⟩
  unfold Match.Precedes Match.Visited at hprecedes
  simp only at hprecedes
  have hseparates := separates_of_mem (hregions g.first mem_cons_self) hblock
  have hle_first := hg.first.left_le
  unfold Region.Separates at hseparates
  omega

/-- A run behind a group does not start in the lines that the left text has after its last changed
one. -/
theorem not_isMatch_trail
    (hend : Divides (Match.all left right) (g.last.leftStop + k) (g.last.rightStop + k))
    (hedges : g.LeftEdges left start stop) (hk : 0 < k) (hlt : stop < g.last.leftStop) :
    ¬ IsMatch left right ⟨stop, g.last.rightStop - (g.last.leftStop - stop),
      g.last.leftStop - stop + k⟩ := by
  intro hm
  obtain ⟨r, hr, hr', hshift⟩ := hedges.stops
  have hstart := (divides_of_mem (hregions r hr)).2
  obtain ⟨block, hblock, ⟨hge, hge', hle, hle'⟩, hprecedes⟩ :=
    Match.exists_precedes_all hstart hend hm (by simp only; omega)
      ⟨by simp only; omega, by simp only; omega, by simp only; omega, by simp only; omega⟩
  unfold Match.Precedes Match.Visited at hprecedes
  simp only at hprecedes
  have hseparates := separates_of_mem (hregions g.last g.last_mem) hblock
  have hle_last := (hg.bounds g.last g.last_mem).1.left_le
  unfold Region.Separates at hseparates
  omega

end Runs

/-! ### What stands for a group -/

section Parts

variable {left right : List String} {g : Group}

/-- The whole windows of spaced groups are apart, and their context is shared. -/
theorem Spaced.context {rest : List Group} (h : Spaced left right i j (g :: rest)) :
    i ≤ g.leftFrom ∧ (∃ c, g.first.leftStart = g.leftFrom + c ∧
        g.first.rightStart = g.rightFrom + c ∧ IsMatch left right ⟨g.leftFrom, g.rightFrom, c⟩) ∧
      (∃ d, g.leftTo left = g.last.leftStop + d ∧ g.rightTo right = g.last.rightStop + d ∧
        IsMatch left right ⟨g.last.leftStop, g.last.rightStop, d⟩) ∧
      ∀ next ∈ rest.head?, g.leftTo left ≤ next.leftFrom ∧ g.rightTo right ≤ next.rightFrom := by
  obtain ⟨⟨k, hstart, hstart', hrun, hlong⟩, hg, hrest⟩ := h
  have hstop := hg.left_le
  have hstop' := hg.right_le
  have hright := g.rightFrom_eq
  have hright' := g.rightTo_eq right
  unfold Group.leftFrom Group.leftTo
  refine ⟨by omega, ⟨min k 5, by omega, by omega, ?_⟩, ?_⟩
  · have hsub := hrun.sub (a := k - min k 5) (n := min k 5) (by omega)
    have hi : i + (k - min k 5) = g.first.leftStart - 5 := by omega
    have hj : j + (k - min k 5) = g.rightFrom := by omega
    rwa [hi, hj] at hsub
  · cases rest with
    | nil =>
      obtain ⟨l, hl, hl', hshared⟩ := hrest
      refine ⟨⟨min l 5, by omega, by omega, hshared.sub (a := 0) (by omega)⟩, fun next hnext => ?_⟩
      cases hnext
    | cons next rest =>
      obtain ⟨⟨l, hl, hl', hshared, hlong'⟩, hnext, -⟩ := hrest
      obtain ⟨-, -, hfirst⟩ := (hg.bounds g.last g.last_mem).1
      have hle := hnext.left_le
      have hle' := hnext.right_le
      obtain ⟨-, hfirst_le, hfirst_le', -⟩ := hnext.bounds next.last next.last_mem
      obtain ⟨hlast_le, hlast_le', -⟩ := (hnext.bounds next.last next.last_mem).1
      have hnext_eq := next.rightFrom_eq
      refine ⟨⟨5, by omega, by omega, hshared.sub (a := 0) (by omega)⟩, fun next' hnext' => ?_⟩
      cases hnext'
      omega

theorem replaceFrom_append (hk : i ≤ k) (hws : ∀ w ∈ ws.head?, k ≤ w.leftFrom) :
    replaceFrom left right i ws = slice left i k ++ replaceFrom left right k ws := by
  cases ws with
  | nil => exact (slice_append_drop hk).symm
  | cons w ws =>
    rw [replaceFrom, replaceFrom, ← append_assoc (slice left i k),
      slice_append_slice hk (hws w rfl)]

/-- What stands before the first changed line of the right text: its own lines, lines of the left
text that it does not have there, or none of its own. -/
inductive Lead (left right : List String) (g : Group) (w : Window) (start start' : Nat) :
    List String → Prop
  | kept (hleft : w.leftFrom = g.leftFrom) (hright : w.rightFrom = g.rightFrom) :
    Lead left right g w start start' (slice right g.first.rightStart start')
  | added (hlt : g.first.leftStart < start) (heq : start' = g.first.rightStart)
      (hcontext : g.rightFrom < g.first.rightStart) :
    Lead left right g w start start' (slice left g.first.leftStart start)
  | dropped (hlt : g.first.rightStart < start') : Lead left right g w start start' []

inductive Trail (left right : List String) (g : Group) (w : Window) (stop stop' : Nat) :
    List String → Prop
  | kept (hleft : w.leftTo = g.leftTo left) (hright : w.rightTo = g.rightTo right) :
    Trail left right g w stop stop' (slice right stop' g.last.rightStop)
  | added (hlt : stop < g.last.leftStop) (heq : stop' = g.last.rightStop)
      (hcontext : g.last.rightStop < g.rightTo right) :
    Trail left right g w stop stop' (slice left stop g.last.leftStop)
  | dropped (hlt : stop' < g.last.rightStop) : Trail left right g w stop stop' []

theorem Group.LeftEdges.right_bounds (h : g.swap.LeftEdges right start' stop') :
    g.first.rightStart ≤ start' ∧ start' < stop' ∧ stop' ≤ g.last.rightStop ∧
      (g.first.rightStart < g.first.rightStop → start' = g.first.rightStart) ∧
      (g.last.rightStart < g.last.rightStop → stop' = g.last.rightStop) := by
  have hle := h.le_last
  have heq := h.stop_eq
  rw [Group.last_swap] at hle heq
  exact ⟨h.first_le, h.lt, hle, h.start_eq, heq⟩

variable {rest : List Group}
  (hspaced : Spaced left right i j (g :: rest)) (hedges : g.LeftEdges left start stop)
  (hedges' : g.swap.LeftEdges right start' stop')
include hspaced hedges hedges'

/-- What replacing leaves before the changes. -/
theorem exists_lead
    (hkeeps : KeepsLead left right g.leftFrom g.rightFrom start start' w.leftFrom w.rightFrom) :
    ∃ lead, Lead left right g w start start' lead ∧
      slice left i w.leftFrom ++ slice right w.rightFrom start' =
        slice left i g.first.leftStart ++ lead := by
  obtain ⟨hi, ⟨c, hc, hc', hshared⟩, -, -⟩ := hspaced.context
  obtain ⟨hfirst', -, -, hstart', -⟩ := hedges'.right_bounds
  have hfirst := hedges.first_le
  have hstart := hedges.start_eq
  obtain ⟨-, -, hnonempty⟩ := hspaced.2.1.first
  rcases hkeeps with ⟨hx, hy⟩ | ⟨n, hn, hx, hy, hlo, hlo', hagree, hnext⟩
  · -- all context is kept, and it is shared
    refine ⟨_, .kept hx hy, ?_⟩
    rw [hx, hy, ← slice_append_slice (by omega : g.rightFrom ≤ g.first.rightStart) hfirst', hc',
      ← hshared.slice_eq, ← hc, ← append_assoc, slice_append_slice hi (by omega)]
  · have hjoined : slice left i w.leftFrom ++ slice right w.rightFrom start' =
        slice left i g.first.leftStart ++ slice left g.first.leftStart start := by
      rw [← hagree, slice_append_slice (by omega) (by omega), slice_append_slice (by omega) hfirst]
    by_cases hlt : g.first.leftStart < start
    · exact ⟨_, .added hlt (by omega) (by omega), hjoined⟩
    · have heq : g.first.leftStart = start := by omega
      rw [heq, slice_self] at hjoined
      by_cases hlt' : g.first.rightStart < start'
      · exact ⟨_, .dropped hlt', by rw [hjoined, heq]⟩
      · -- both sides change first in the same place, so that all shared context is kept
        have heq' : g.first.rightStart = start' := by omega
        have hall : w.leftFrom = g.leftFrom ∧ w.rightFrom = g.rightFrom := by
          by_cases hless : g.leftFrom < w.leftFrom
          · have hsame := hshared.agree (w.leftFrom - 1 - g.leftFrom) (by simp only; omega)
            have hplace : g.leftFrom + (w.leftFrom - 1 - g.leftFrom) = w.leftFrom - 1 := by omega
            have hplace' : g.rightFrom + (w.leftFrom - 1 - g.leftFrom) = w.rightFrom - 1 := by omega
            simp only at hsame
            rw [hplace, hplace'] at hsame
            exact absurd hsame (hnext hless (by omega))
          · omega
        refine ⟨_, .kept hall.1 hall.2, ?_⟩
        rw [hjoined, heq, heq', slice_self]

theorem exists_trail (hws : ∀ w' ∈ ws.head?, g.leftTo left ≤ w'.leftFrom)
    (hkeeps : KeepsTrail left right stop stop' (g.leftTo left) (g.rightTo right) w.leftTo
      w.rightTo) :
    ∃ trail, Trail left right g w stop stop' trail ∧
      slice right stop' w.rightTo ++ replaceFrom left right w.leftTo ws =
        trail ++ replaceFrom left right g.last.leftStop ws := by
  obtain ⟨-, -, ⟨d, hd, hd', hshared⟩, -⟩ := hspaced.context
  obtain ⟨-, -, hlast', -, hstop'⟩ := hedges'.right_bounds
  have hlast := hedges.le_last
  have hstop := hedges.stop_eq
  obtain ⟨-, -, hnonempty⟩ := (hspaced.2.1.bounds g.last g.last_mem).1
  rcases hkeeps with ⟨hx, hy⟩ | ⟨n, hn, hx, hy, hhi, hhi', hagree, hnext⟩
  · refine ⟨_, .kept hx hy, ?_⟩
    rw [replaceFrom_append (by omega : g.last.leftStop ≤ g.leftTo left) hws, hx, hy,
      ← slice_append_slice hlast' (by omega : g.last.rightStop ≤ g.rightTo right), hd, hd',
      hshared.slice_eq, append_assoc]
  · have hjoined : slice right stop' w.rightTo ++ replaceFrom left right w.leftTo ws =
        slice left stop g.last.leftStop ++ replaceFrom left right g.last.leftStop ws := by
      have hws' : ∀ w' ∈ ws.head?, w.leftTo ≤ w'.leftFrom := fun w' hw' =>
        Nat.le_trans hhi (hws w' hw')
      have hws'' : ∀ w' ∈ ws.head?, g.last.leftStop ≤ w'.leftFrom := fun w' hw' =>
        Nat.le_trans (by omega) (hws w' hw')
      rw [← hagree, ← replaceFrom_append (by omega) hws', ← replaceFrom_append hlast hws'']
    by_cases hlt : stop < g.last.leftStop
    · exact ⟨_, .added hlt (by omega) (by omega), hjoined⟩
    · have heq : g.last.leftStop = stop := by omega
      rw [← heq, slice_self] at hjoined
      by_cases hlt' : stop' < g.last.rightStop
      · exact ⟨_, .dropped hlt', hjoined⟩
      · have heq' : g.last.rightStop = stop' := by omega
        have hall : w.leftTo = g.leftTo left ∧ w.rightTo = g.rightTo right := by
          by_cases hless : w.leftTo < g.leftTo left
          · have hsame := hshared.agree (w.leftTo - g.last.leftStop) (by simp only; omega)
            have hplace : g.last.leftStop + (w.leftTo - g.last.leftStop) = w.leftTo := by omega
            have hplace' : g.last.rightStop + (w.leftTo - g.last.leftStop) = w.rightTo := by omega
            simp only at hsame
            rw [hplace, hplace'] at hsame
            exact absurd hsame (hnext hless (by omega))
          · omega
        refine ⟨_, .kept hall.1 hall.2, ?_⟩
        rw [hjoined, ← heq', slice_self]

end Parts

/-! ### Only whole windows give the right text -/

section Whole

variable {left right : List String} {g : Group} {after : List String}
  (hg : g.InText left right) (hregions : ∀ r ∈ g.regions, r ∈ differences left right)
  (hshared : IsMatch left right ⟨g.last.leftStop, g.last.rightStop, k⟩)
  (hend : Divides (Match.all left right) (g.last.leftStop + k) (g.last.rightStop + k))
  (hshort : k ≤ 10 → after = [] ∧ g.last.rightStop + k = right.length)

theorem isMatch_of_slice_append_eq_drop {i' p : Nat} (hi : i ≤ i') (hi' : i' ≤ left.length)
    (hp : p ≤ right.length) (h : slice left i i' ++ after = right.drop p) :
    IsMatch left right ⟨i, p, i' - i⟩ ∧ after = right.drop (p + (i' - i)) := by
  obtain ⟨hle, hslice, hafter⟩ := append_eq_drop h hp
  rw [length_slice hi'] at hle hslice hafter
  refine ⟨(isMatch_iff_slice (by omega) hle).2 ?_, hafter⟩
  rwa [Nat.add_sub_cancel' hi]

include hshared hshort in
/-- The run behind a group goes on behind the lines that stand for the group. -/
theorem isMatch_behind (hp : g.first.rightStart ≤ right.length)
    (h : lines ++ (slice left g.last.leftStop (g.last.leftStop + k) ++ after) =
      right.drop g.first.rightStart) :
    IsMatch left right ⟨g.last.leftStop, g.first.rightStart + lines.length, k⟩ ∧
      (k ≤ 10 → g.first.rightStart + lines.length = g.last.rightStop) := by
  have hleft : g.last.leftStop + k ≤ left.length := hshared.left_le
  obtain ⟨hle, -, hrest⟩ := append_eq_drop h hp
  obtain ⟨hmatch, hafter⟩ :=
    isMatch_of_slice_append_eq_drop (Nat.le_add_right _ _) hleft hle hrest
  rw [Nat.add_sub_cancel_left] at hmatch hafter
  refine ⟨hmatch, fun hk => ?_⟩
  obtain ⟨hnil, hlast⟩ := hshort hk
  have hlength := congrArg List.length hafter
  have hle' := hmatch.right_le
  rw [hnil, length_nil, length_drop] at hlength
  simp only at hle'
  omega

include hg hregions hshared hend hshort in
/-- As many lines stand for the group at least as the right text has. -/
theorem le_length_of_eq_drop
    (h : lines ++ (slice left g.last.leftStop (g.last.leftStop + k) ++ after) =
      right.drop g.first.rightStart) :
    g.last.rightStop ≤ g.first.rightStart + lines.length := by
  obtain ⟨hlast, hfirst, hfirst', -, -⟩ := hg.bounds g.last g.last_mem
  have hle := hlast.left_le
  have hle' := hlast.right_le
  have hright := hg.right_le
  obtain ⟨hmatch, hshort'⟩ := isMatch_behind hshared hshort (by omega) h
  rcases Nat.lt_or_ge 10 k with hlong | hk
  · refine Nat.le_of_not_lt fun hlt => ?_
    have heq := eq_last_of_isMatch hg hregions hlong hend hmatch (by omega) (by omega) (by omega)
      (by omega)
    omega
  · exact Nat.le_of_eq (hshort' hk).symm

include hg hregions hshared hend hshort in
/-- Lines that the left text has behind its last changed one do not stand for the group. -/
theorem not_added_trail (hedges : g.LeftEdges left start stop)
    (hlt : stop < g.last.leftStop) (hcontext : g.last.rightStop < right.length)
    (hlines : g.first.rightStart + lines.length ≤ g.last.rightStop)
    (h : lines ++ (slice left stop g.last.leftStop ++
      (slice left g.last.leftStop (g.last.leftStop + k) ++ after)) =
        right.drop g.first.rightStart) : False := by
  obtain ⟨hlast, hfirst, hfirst', -, -⟩ := hg.bounds g.last g.last_mem
  have hle := hlast.right_le
  have hleft := hg.left_le
  have hright := hg.right_le
  have hstart := hedges.first_le
  have hstop := hedges.lt
  have hlength : (slice left stop g.last.leftStop).length = g.last.leftStop - stop :=
    length_slice hleft
  have hk : 0 < k := by
    rcases Nat.lt_or_ge 10 k with hlong | hk
    · omega
    · have hlast' := (hshort hk).2
      omega
  obtain ⟨hle', -, hrest⟩ := append_eq_drop h (by omega)
  obtain ⟨htrail, -⟩ := isMatch_of_slice_append_eq_drop (by omega) hleft hle' hrest
  rw [← append_assoc] at h
  have hmin := le_length_of_eq_drop hg hregions hshared hend hshort h
  obtain ⟨hmatch, hshort'⟩ := isMatch_behind hshared hshort (by omega) h
  rw [length_append, hlength] at hmin hmatch hshort'
  -- together the lines of the left text and the run behind them are one run
  have hrun : IsMatch left right ⟨stop, g.first.rightStart + lines.length,
      g.last.leftStop - stop + k⟩ := by
    apply isMatch_append htrail
    rwa [Nat.add_sub_cancel' (by omega), Nat.add_assoc]
  generalize hexcess : g.first.rightStart + lines.length + (g.last.leftStop - stop) -
    g.last.rightStop = excess
  rcases Nat.eq_zero_or_pos excess with hzero | hpos
  · have hplace : g.first.rightStart + lines.length =
        g.last.rightStop - (g.last.leftStop - stop) := by omega
    rw [hplace] at hrun
    exact not_isMatch_trail hg hregions hend hedges hk hlt hrun
  · rcases Nat.lt_or_ge 10 k with hlong | hk'
    · have hsub := hrun.sub (a := g.last.leftStop - stop - excess) (n := k) (by omega)
      have heq := eq_last_of_isMatch hg hregions hlong hend hsub (by omega) (by omega) (by omega)
        (by omega)
      omega
    · have hsame := hshort' hk'
      omega

include hshared hend hshort in
/-- A replacement that comes out right kept all context. -/
theorem eq_window_of_eq_drop {rest : List Group} {lead trail : List String}
    (hspaced : Spaced left right i j (g :: rest))
    (hregions : ∀ r ∈ g.regions, r ∈ differences left right)
    (hstart : Divides (Match.all left right) i j) (hedges : g.LeftEdges left start stop)
    (hedges' : g.swap.LeftEdges right start' stop') (hlead : Lead left right g w start start' lead)
    (htrail : Trail left right g w stop stop' trail)
    (h : lead ++ (slice right start' stop' ++ (trail ++
      (slice left g.last.leftStop (g.last.leftStop + k) ++ after))) =
        right.drop g.first.rightStart) :
    w = g.window left right := by
  have hg := hspaced.2.1
  obtain ⟨hfirst, hlt, hlast, -, -⟩ := hedges'.right_bounds
  have hleft := hg.left_le
  have hright := hg.right_le
  have hend_le := g.rightTo_le right
  have hmiddle : (slice right start' stop').length = stop' - start' := length_slice (by omega)
  cases hlead with
  | added hless heq hcontext =>
    obtain ⟨⟨l, hi, hj, hrun, hlong⟩, -, -⟩ := hspaced
    have hright' := g.rightFrom_eq
    have hstop := hedges.lt
    have hstop' := hedges.le_last
    obtain ⟨hmatch, -⟩ :=
      isMatch_of_slice_append_eq_drop (by omega) (by omega) (by omega) h
    rw [hi, hj] at hmatch
    have hlonger := isMatch_append hrun hmatch
    have hsize : l + (start - (i + l)) = start - i := by omega
    rw [hsize] at hlonger
    exact absurd hlonger (not_isMatch_lead hg hregions hstart hedges (by omega) hi hj hless)
  | kept hx hy =>
    have hbefore : (slice right g.first.rightStart start').length = start' - g.first.rightStart :=
      length_slice (by omega)
    cases htrail with
    | kept hx' hy' =>
      obtain ⟨x, x', y, y'⟩ := w
      simp only at hx hy hx' hy'
      rw [hx, hy, hx', hy']
      rfl
    | added hless heq hcontext =>
      rw [← append_assoc] at h
      exact absurd h (not_added_trail hg hregions hshared hend hshort hedges hless (by omega)
        (by rw [length_append, hbefore, hmiddle]; omega))
    | dropped hless =>
      rw [nil_append, ← append_assoc] at h
      have hle := le_length_of_eq_drop hg hregions hshared hend hshort h
      rw [length_append, hbefore, hmiddle] at hle
      omega
  | dropped hless =>
    rw [nil_append] at h
    cases htrail with
    | kept hx' hy' =>
      have hbehind : (slice right stop' g.last.rightStop).length = g.last.rightStop - stop' :=
        length_slice hright
      rw [← append_assoc] at h
      have hle := le_length_of_eq_drop hg hregions hshared hend hshort h
      rw [length_append, hbehind, hmiddle] at hle
      omega
    | added hless' heq hcontext =>
      exact absurd h (not_added_trail hg hregions hshared hend hshort hedges hless' (by omega)
        (by rw [hmiddle]; omega))
    | dropped hless' =>
      rw [nil_append] at h
      have hle := le_length_of_eq_drop hg hregions hshared hend hshort h
      rw [hmiddle] at hle
      omega

end Whole

/-! ### All windows -/

section All

variable {left right : List String} {g : Group} {rest : List Group}

theorem Group.Trims.bounds (h : g.Trims left right w) :
    (g.leftFrom ≤ w.leftFrom ∧ w.leftTo ≤ g.leftTo left) ∧
      g.rightFrom ≤ w.rightFrom ∧ w.rightTo ≤ g.rightTo right := by
  rcases h with rfl | ⟨start, stop, start', stop', hedges, hedges', hlead, htrail⟩
  · exact ⟨⟨Nat.le_refl _, Nat.le_refl _⟩, Nat.le_refl _, Nat.le_refl _⟩
  · obtain ⟨⟨hx, -⟩, hy, -⟩ := hlead.bounds hedges.edges.lo_le hedges'.edges.lo_le
    obtain ⟨⟨-, hx'⟩, -, hy'⟩ := htrail.bounds hedges.stop_le hedges'.stop_le
    exact ⟨⟨hx, hx'⟩, hy, hy'⟩

theorem Spaced.head?_windows (hspaced : Spaced left right i j (g :: rest))
    (hws : Forall₂ (Group.Trims left right) rest ws) :
    ∀ w ∈ ws.head?, g.leftTo left ≤ w.leftFrom ∧ g.rightTo right ≤ w.rightFrom := by
  intro w hw
  cases hws with
  | nil => cases hw
  | cons htrims _ =>
    cases hw
    have hnext := hspaced.context.2.2.2 _ rfl
    have hbounds := htrims.bounds
    omega

theorem replaceFrom_window (hspaced : Spaced left right i j (g :: rest))
    (hws : ∀ w ∈ ws.head?, g.leftTo left ≤ w.leftFrom) :
    replaceFrom left right i (g.window left right :: ws) =
      slice left i g.first.leftStart ++ (slice right g.first.rightStart g.last.rightStop ++
        replaceFrom left right g.last.leftStop ws) := by
  obtain ⟨hi, ⟨c, hc, hc', hshared⟩, ⟨d, hd, hd', hshared'⟩, -⟩ := hspaced.context
  obtain ⟨hlast, -, hfirst, -, -⟩ := hspaced.2.1.bounds g.last g.last_mem
  have hle := hlast.right_le
  have hbefore : slice left g.leftFrom g.first.leftStart =
      slice right g.rightFrom g.first.rightStart := by
    rw [hc, hc', hshared.slice_eq]
  have hbehind : slice left g.last.leftStop (g.leftTo left) =
      slice right g.last.rightStop (g.rightTo right) := by
    rw [hd, hd', hshared'.slice_eq]
  have hright : slice right g.rightFrom (g.rightTo right) =
      slice right g.rightFrom g.first.rightStart ++
        (slice right g.first.rightStart g.last.rightStop ++
          slice right g.last.rightStop (g.rightTo right)) := by
    rw [slice_append_slice (by omega) (by omega), slice_append_slice (by omega) (by omega)]
  rw [replaceFrom_append (by omega : g.last.leftStop ≤ g.leftTo left) hws, hbehind,
    ← slice_append_slice hi (by omega : g.leftFrom ≤ g.first.leftStart), hbefore, replaceFrom]
  simp only [Group.window]
  rw [hright]
  simp only [append_assoc]

/-- The windows of the groups are in order and apart. -/
theorem Spaced.isChain_windows (hspaced : Spaced left right i j gs)
    (hws : Forall₂ (Group.Trims left right) gs ws) :
    ws.IsChain fun w w' => w.leftTo ≤ w'.leftFrom ∧ w.rightTo ≤ w'.rightFrom := by
  induction hws generalizing i j with
  | nil => exact .nil
  | @cons g w rest ws htrims hws ih =>
    have hnext := hspaced.head?_windows hws
    have hbounds := htrims.bounds
    have hrest := ih hspaced.2.2
    cases ws with
    | nil => exact .singleton w
    | cons w' ws =>
      have hstart := hnext w' rfl
      exact .cons_cons (by omega) hrest

/-- With edges trimmed, other lines may stand for the group. -/
theorem exists_replaceFrom (hspaced : Spaced left right i j (g :: rest))
    (hws : ∀ w ∈ ws.head?, g.leftTo left ≤ w.leftFrom)
    (hedges : g.LeftEdges left start stop) (hedges' : g.swap.LeftEdges right start' stop')
    (hlead : KeepsLead left right g.leftFrom g.rightFrom start start' w.leftFrom w.rightFrom)
    (htrail : KeepsTrail left right stop stop' (g.leftTo left) (g.rightTo right) w.leftTo
      w.rightTo) :
    ∃ lead trail, Lead left right g w start start' lead ∧ Trail left right g w stop stop' trail ∧
      replaceFrom left right i (w :: ws) = slice left i g.first.leftStart ++
        (lead ++ (slice right start' stop' ++ (trail ++
          replaceFrom left right g.last.leftStop ws))) := by
  obtain ⟨lead, hlead', hbefore⟩ := exists_lead hspaced hedges hedges' hlead
  obtain ⟨trail, htrail', hbehind⟩ := exists_trail hspaced hedges hedges' hws htrail
  have hlt := hedges'.lt
  obtain ⟨-, -, hfrom⟩ := hlead.bounds hedges.edges.lo_le hedges'.edges.lo_le
  obtain ⟨-, hto, -⟩ := htrail.bounds hedges.stop_le hedges'.stop_le
  refine ⟨lead, trail, hlead', htrail', ?_⟩
  rw [replaceFrom, ← hbehind, ← append_assoc (slice left i g.first.leftStart), ← hbefore,
    ← slice_append_slice hfrom (by omega : start' ≤ w.rightTo),
    ← slice_append_slice (by omega : start' ≤ stop') hto]
  simp only [append_assoc]

/-- Behind the groups so far the left text goes on with the shared run. -/
theorem Spaced.exists_behind (hspaced : Spaced left right i j rest)
    (hws : Forall₂ (Group.Trims left right) rest ws)
    (hregions : ∀ g ∈ rest, ∀ r ∈ g.regions, r ∈ differences left right) (hpos : 0 < i ∨ 0 < j) :
    ∃ k after, replaceFrom left right i ws = slice left i (i + k) ++ after ∧
      IsMatch left right ⟨i, j, k⟩ ∧ Divides (Match.all left right) (i + k) (j + k) ∧
      (k ≤ 10 → after = [] ∧ j + k = right.length) := by
  cases hws with
  | nil =>
    obtain ⟨k, hleft, hright, hrun⟩ := hspaced
    refine ⟨k, [], ?_, hrun, ?_, fun _ => ⟨rfl, hright.symm⟩⟩
    · rw [← hleft, slice_length, append_nil]
      rfl
    · rw [← hleft, ← hright]
      exact divides_length left right
  | @cons g w rest ws htrims hws =>
    have hnext := fun w hw => (hspaced.head?_windows hws w hw).1
    obtain ⟨k, hi, hj, hrun, hlong⟩ := hspaced.1
    have hend := (divides_of_mem (hregions g mem_cons_self g.first mem_cons_self)).1
    rw [hi, hj] at hend
    rcases htrims with rfl | ⟨start, stop, start', stop', hedges, hedges', hlead, htrail⟩
    · have heq := replaceFrom_window hspaced hnext
      rw [hi] at heq
      exact ⟨k, _, heq, hrun, hend, fun hk => by omega⟩
    · obtain ⟨lead, trail, -, -, heq⟩ :=
        exists_replaceFrom hspaced hnext hedges hedges' hlead htrail
      rw [hi] at heq
      exact ⟨k, _, heq, hrun, hend, fun hk => by omega⟩

/-- Replacing gives the right text just when no window was trimmed. -/
theorem replaceFrom_eq_drop_iff (hspaced : Spaced left right i j gs)
    (hws : Forall₂ (Group.Trims left right) gs ws)
    (hregions : ∀ g ∈ gs, ∀ r ∈ g.regions, r ∈ differences left right)
    (hstart : Divides (Match.all left right) i j) :
    replaceFrom left right i ws = right.drop j ↔ ws = gs.map (Group.window left right) := by
  induction hws generalizing i j with
  | nil =>
    obtain ⟨k, hleft, hright, hrun⟩ := hspaced
    refine ⟨fun _ => rfl, fun _ => ?_⟩
    have heq := hrun.slice_eq
    rwa [← hleft, ← hright, slice_length, slice_length] at heq
  | @cons g w rest ws htrims hws ih =>
    have hnext := fun w hw => (hspaced.head?_windows hws w hw).1
    have hregions' := fun g hg => hregions g (mem_cons_of_mem _ hg)
    have hgroup := hregions g mem_cons_self
    have ih' := ih hspaced.2.2 hregions' ((divides_of_mem (hgroup g.last g.last_mem)).2)
    obtain ⟨k, hi, hj, hrun, -⟩ := hspaced.1
    obtain ⟨hlast, -, hfirst, -, -⟩ := hspaced.2.1.bounds g.last g.last_mem
    have hle := hlast.right_le
    have hbefore : slice left i g.first.leftStart = slice right j g.first.rightStart := by
      rw [hi, hj, hrun.slice_eq]
    have hdrop : right.drop j = slice left i g.first.leftStart ++ right.drop g.first.rightStart := by
      rw [hbefore, slice_append_drop (by omega)]
    have hwhole : w = g.window left right →
        (replaceFrom left right i (w :: ws) = right.drop j ↔
          ws = rest.map (Group.window left right)) := by
      intro hw
      rw [hw, replaceFrom_window hspaced hnext, hdrop, append_cancel_left_eq,
        ← slice_append_drop (by omega : g.first.rightStart ≤ g.last.rightStop),
        append_cancel_left_eq]
      exact ih'
    constructor
    · intro heq
      have hw : w = g.window left right := by
        rcases htrims with hw | ⟨start, stop, start', stop', hedges, hedges', hlead, htrail⟩
        · exact hw
        · obtain ⟨lead, trail, hlead', htrail', hreplaced⟩ :=
            exists_replaceFrom hspaced hnext hedges hedges' hlead htrail
          have hnonempty := hlast.nonempty
          obtain ⟨l, after, hafter, hshared, hend, hshort⟩ :=
            hspaced.2.2.exists_behind hws hregions' (by omega)
          rw [hreplaced, hdrop, append_cancel_left_eq, hafter] at heq
          exact eq_window_of_eq_drop hshared hend hshort hspaced hgroup hstart hedges hedges'
            hlead' htrail' heq
      rw [map_cons, hw, (hwhole hw).1 heq]
    · intro heq
      rw [map_cons, List.cons.injEq] at heq
      exact (hwhole heq.1).2 heq.2

end All

end MovieDiff.Display
