import MovieDiff.Proofs.Display.Gathering
import MovieDiff.Proofs.Hunk.Edges
import MovieDiff.Proofs.Matching.EditScript
import MovieDiff.Proofs.Results

/-!
Which differences are shown together. Two differences with at most ten lines between them, five
of context for each, fall into one group, and the hunks of a group are the lines of its
differences with those between and around them.
-/
namespace MovieDiff

open List

variable {r : Region} {i k : Nat} {mark : Nat → Mark} {left right : List String}

def Region.swap (r : Region) : Region :=
  ⟨r.same, r.rightStart, r.rightStop, r.leftStart, r.leftStop⟩

theorem Region.IsDifference.swap (h : r.IsDifference) : r.swap.IsDifference :=
  ⟨h.right_le, h.left_le, h.nonempty.symm⟩

namespace Display

open Hunk (ofRange)

/-- Differences that are shown in one pair of hunks. -/
structure Group where
  first : Region
  more : List Region
  deriving DecidableEq, Repr

namespace Group

def regions (g : Group) : List Region :=
  g.first :: g.more

def last (g : Group) : Region :=
  g.more.getLastD g.first

def changesLeft (g : Group) (i : Nat) : Bool :=
  g.regions.any fun r => r.leftStart ≤ i && i < r.leftStop

def swap (g : Group) : Group :=
  ⟨g.first.swap, g.more.map Region.swap⟩

def changesRight (g : Group) : Nat → Bool :=
  g.swap.changesLeft

/-- The first line shown on the left, with context. -/
def leftFrom (g : Group) : Nat :=
  g.first.leftStart - 5

def leftTo (g : Group) (left : List String) : Nat :=
  min left.length (g.last.leftStop + 5)

def rightFrom (g : Group) : Nat :=
  g.swap.leftFrom

def rightTo (g : Group) (right : List String) : Nat :=
  g.swap.leftTo right

def hunks (left right : List String) (g : Group) : FullPair :=
  ⟨ofRange left g.changesLeft g.leftFrom (g.leftTo left),
    ofRange right g.changesRight g.rightFrom (g.rightTo right)⟩

def single (r : Region) : Group :=
  ⟨r, []⟩

def add (g : Group) (r : Region) : Group :=
  ⟨g.first, g.more ++ [r]⟩

@[simp] theorem first_single (r : Region) : (single r).first = r := rfl

@[simp] theorem last_single (r : Region) : (single r).last = r := rfl

@[simp] theorem regions_add (g : Group) (r : Region) : (g.add r).regions = g.regions ++ [r] := rfl

@[simp] theorem first_add (g : Group) (r : Region) : (g.add r).first = g.first := rfl

@[simp] theorem last_add (g : Group) (r : Region) : (g.add r).last = r := by
  rw [last, add, getLastD_concat]

theorem last_mem (g : Group) : g.last ∈ g.regions :=
  getLastD_mem_cons

theorem changesLeft_add (g : Group) (r : Region) :
    (g.add r).changesLeft = fun i => g.changesLeft i || (Group.single r).changesLeft i := by
  funext i
  rw [changesLeft, regions_add, any_append]
  rfl

theorem changesLeft_eq_true {g : Group} :
    g.changesLeft i = true ↔ ∃ r ∈ g.regions, r.leftStart ≤ i ∧ i < r.leftStop := by
  simp [changesLeft]

@[simp] theorem last_swap (g : Group) : g.swap.last = g.last.swap :=
  getLastD_map

theorem rightFrom_eq (g : Group) : g.rightFrom = g.first.rightStart - 5 := rfl

theorem rightTo_eq (g : Group) (right : List String) :
    g.rightTo right = min right.length (g.last.rightStop + 5) := by
  rw [rightTo, leftTo, last_swap]
  rfl

theorem leftTo_le (g : Group) (left : List String) : g.leftTo left ≤ left.length :=
  Nat.min_le_left _ _

theorem rightTo_le (g : Group) (right : List String) : g.rightTo right ≤ right.length :=
  Nat.min_le_left _ _

theorem swap_add (g : Group) (r : Region) : (g.add r).swap = g.swap.add r.swap := by
  rw [add, swap, map_append]
  rfl

end Group

/-- Differences after one, each at most ten shared lines behind the one before. -/
def Chained (r : Region) : List Region → Prop
  | [] => True
  | next :: rest =>
    (∃ k, k ≤ 10 ∧ next.leftStart = r.leftStop + k ∧ next.rightStart = r.rightStop + k) ∧
      next.IsDifference ∧ Chained next rest

variable {rest : List Region}

theorem Chained.concat {next : Region} (h : Chained r rest) (hnext : next.IsDifference)
    (hnear : ∃ k, k ≤ 10 ∧ next.leftStart = (rest.getLastD r).leftStop + k ∧
      next.rightStart = (rest.getLastD r).rightStop + k) : Chained r (rest ++ [next]) := by
  induction rest generalizing r with
  | nil => exact ⟨hnear, hnext, trivial⟩
  | cons r' rest ih =>
    rw [getLastD_cons] at hnear
    exact ⟨h.1, h.2.1, ih h.2.2 hnear⟩

theorem Chained.bounds (h : Chained r rest) (hr : r.IsDifference) :
    ∀ x ∈ r :: rest, x.IsDifference ∧ r.leftStart ≤ x.leftStart ∧ r.rightStart ≤ x.rightStart ∧
      x.leftStop ≤ (rest.getLastD r).leftStop ∧ x.rightStop ≤ (rest.getLastD r).rightStop := by
  induction rest generalizing r with
  | nil =>
    intro x hx
    rw [mem_singleton.1 hx]
    exact ⟨hr, Nat.le_refl _, Nat.le_refl _, Nat.le_refl _, Nat.le_refl _⟩
  | cons next rest ih =>
    obtain ⟨⟨k, -, hleft, hright⟩, hnext, hrest⟩ := h
    have hbounds := ih hrest hnext
    have hfirst := hbounds next mem_cons_self
    have hle := hr.left_le
    have hle' := hr.right_le
    have hle'' := hnext.left_le
    have hle''' := hnext.right_le
    rw [getLastD_cons]
    intro x hx
    rcases mem_cons.1 hx with rfl | hx
    · exact ⟨hr, Nat.le_refl _, Nat.le_refl _, by omega, by omega⟩
    · obtain ⟨hx', hbound⟩ := hbounds x hx
      exact ⟨hx', by omega, by omega, by omega, by omega⟩

theorem Chained.swap (h : Chained r rest) : Chained r.swap (rest.map Region.swap) := by
  induction rest generalizing r with
  | nil => trivial
  | cons next rest ih =>
    obtain ⟨⟨k, hk, hleft, hright⟩, hnext, hrest⟩ := h
    exact ⟨⟨k, hk, hright, hleft⟩, hnext.swap, ih hrest⟩

structure Group.InText (left right : List String) (g : Group) : Prop where
  first : g.first.IsDifference
  chained : Chained g.first g.more
  left_le : g.last.leftStop ≤ left.length
  right_le : g.last.rightStop ≤ right.length

namespace Group.InText

variable {g : Group}

theorem bounds (h : g.InText left right) : ∀ r ∈ g.regions, r.IsDifference ∧
    g.first.leftStart ≤ r.leftStart ∧ g.first.rightStart ≤ r.rightStart ∧
    r.leftStop ≤ g.last.leftStop ∧ r.rightStop ≤ g.last.rightStop :=
  h.chained.bounds h.first

theorem swap (h : g.InText left right) : g.swap.InText right left := by
  refine ⟨h.first.swap, h.chained.swap, ?_, ?_⟩
  · rw [Group.last_swap]
    exact h.right_le
  · rw [Group.last_swap]
    exact h.left_le

theorem single (hr : r.IsDifference) (hleft : r.leftStop ≤ left.length)
    (hright : r.rightStop ≤ right.length) : (Group.single r).InText left right :=
  ⟨hr, trivial, hleft, hright⟩

/-- Changed lines are shown. -/
theorem changesLeft_bounds (h : g.InText left right) (hi : g.changesLeft i = true) :
    g.leftFrom ≤ i ∧ i < g.leftTo left := by
  obtain ⟨r, hr, hstart, hstop⟩ := Group.changesLeft_eq_true.1 hi
  obtain ⟨-, hfirst, -, hlast, -⟩ := h.bounds r hr
  have hle := h.left_le
  unfold Group.leftFrom Group.leftTo
  omega

/-- A text that is not empty has a line to show. -/
theorem leftFrom_lt (h : g.InText left right) (hleft : 0 < left.length) :
    g.leftFrom < g.leftTo left := by
  obtain ⟨-, hstart, -, -, -⟩ := h.bounds g.last g.last_mem
  have hle := (h.bounds g.last g.last_mem).1.left_le
  have hstop := h.left_le
  unfold Group.leftFrom Group.leftTo
  omega

theorem rightFrom_lt (h : g.InText left right) (hright : 0 < right.length) :
    g.rightFrom < g.rightTo right :=
  h.swap.leftFrom_lt hright

end Group.InText

/-! ### Merging -/

/-- Groups after the group `g` was begun. -/
def groupsFrom (g : Group) : List Region → List Group
  | [] => [g]
  | r :: rest =>
    if r.leftStart ≤ g.last.leftStop + 10 then groupsFrom (g.add r) rest
    else g :: groupsFrom (.single r) rest

def groups : List Region → List Group
  | [] => []
  | r :: rest => groupsFrom (.single r) rest

section Merging

variable {g : Group}

/-- The group takes in a difference that is near its last one. -/
theorem Group.InText.add (h : g.InText left right) (hr : r.IsDifference)
    (hleft : r.leftStop ≤ left.length) (hright : r.rightStop ≤ right.length)
    (hk : k ≤ 10) (hstart : r.leftStart = g.last.leftStop + k)
    (hstart' : r.rightStart = g.last.rightStop + k) : (g.add r).InText left right := by
  refine ⟨h.first, h.chained.concat hr ⟨k, hk, hstart, hstart'⟩, ?_, ?_⟩
  · rwa [Group.last_add]
  · rwa [Group.last_add]

def Group.InText.slice (h : g.InText left right) (hleft : 0 < left.length) : Hunk.Slice left where
  lo := g.leftFrom
  hi := g.leftTo left
  mark := Hunk.changeMark g.changesLeft
  lo_lt := h.leftFrom_lt hleft
  hi_le := g.leftTo_le left
  mark_outside i hi := if_neg fun hchanged => by
    have hbounds := h.changesLeft_bounds hchanged
    omega

variable (h : g.InText left right) (hr : (Group.single r).InText left right)
  (hstart : r.leftStart = g.last.leftStop + k) (hstart' : r.rightStart = g.last.rightStop + k)
  (hleft : 0 < left.length) (hright : 0 < right.length)

def Group.InText.slices : SlicePair left right :=
  ⟨h.slice hleft, h.swap.slice hright⟩

include h hleft hright in
theorem full?_toPair_hunks : (g.hunks left right).toPair.full? = some (g.hunks left right) :=
  (h.slices hleft hright).full?_hunks

include hstart

/-- Where a slice of a near difference starts, and what it gives with that of the group. -/
theorem slice_single : g.leftFrom ≤ (Group.single r).leftFrom ∧
    ((Group.single r).leftFrom ≤ g.leftTo left ↔ k ≤ 10) ∧
    ((h.slice hleft).join (hr.slice hleft)).hunk =
      ofRange left (g.add r).changesLeft (g.add r).leftFrom ((g.add r).leftTo left) := by
  obtain ⟨hlast, hfirst, -, -, -⟩ := h.bounds g.last g.last_mem
  have hle := hlast.left_le
  have hle' : r.leftStart ≤ r.leftStop := hr.first.left_le
  have hstop : r.leftStop ≤ left.length := hr.left_le
  have hlo : min g.leftFrom (Group.single r).leftFrom = (g.add r).leftFrom := by
    simp only [Group.leftFrom, Group.first_single, Group.first_add]
    omega
  have hhi : max (g.leftTo left) ((Group.single r).leftTo left) = (g.add r).leftTo left := by
    simp only [Group.leftTo, Group.last_single, Group.last_add]
    omega
  have hmark : Hunk.overlay (Hunk.changeMark g.changesLeft)
      (Hunk.changeMark (Group.single r).changesLeft) = Hunk.changeMark (g.add r).changesLeft := by
    funext i
    rw [Group.changesLeft_add]
    cases hi : g.changesLeft i <;> simp [Hunk.overlay, Hunk.changeMark, hi]
  refine ⟨?_, ?_, ?_⟩
  · simp only [Group.leftFrom, Group.first_single]
    omega
  · simp only [Group.leftFrom, Group.leftTo, Group.first_single]
    omega
  · rw [Hunk.ofRange_eq_ofMarks, ← hlo, ← hhi, ← hmark]
    rfl

include h hr hleft hright hstart'

/-- Hunks are joined just when ten lines or fewer lie between their differences. -/
theorem join?_hunks :
    join? left right (g.hunks left right) ((Group.single r).hunks left right) =
      .ok (if r.leftStart ≤ g.last.leftStop + 10 then some ((g.add r).hunks left right)
        else none) := by
  have hnext : r.swap.leftStart = g.swap.last.leftStop + k := by
    rw [Group.last_swap]
    exact hstart'
  obtain ⟨hle, hmeets, hjoined⟩ := slice_single h hr hstart hleft
  obtain ⟨hle', hmeets', hjoined'⟩ := slice_single h.swap hr.swap hnext hright
  rw [← Group.swap_add] at hjoined'
  have hjoin := SlicePair.join?_hunks (p := h.slices hleft hright) (q := hr.slices hleft hright)
    ⟨hle, hle'⟩
  have htouches : (h.slices hleft hright).Touches (hr.slices hleft hright) ↔
      r.leftStart ≤ g.last.leftStop + 10 := by
    refine (or_congr hmeets hmeets').trans ?_
    omega
  have hpair : ((h.slices hleft hright).join (hr.slices hleft hright)).hunks =
      (g.add r).hunks left right := congrArg₂ FullPair.mk hjoined hjoined'
  simp only [hpair, htouches] at hjoin
  exact hjoin

end Merging

section Assembled

variable {j : Nat}

theorem aligned_le {rs : List Region} (h : Aligned left right i j rs) :
    i ≤ left.length ∧ j ≤ right.length ∧
      ∀ r ∈ rs, r.leftStop ≤ left.length ∧ r.rightStop ≤ right.length := by
  induction rs generalizing i j with
  | nil =>
    obtain ⟨k, hi, hj, -⟩ := h
    exact ⟨by omega, by omega, fun r hr => by cases hr⟩
  | cons r rest ih =>
    obtain ⟨⟨k, hi, hj, -⟩, hle, hle', hrest⟩ := h
    obtain ⟨hstop, hstop', hall⟩ := ih hrest
    refine ⟨by omega, by omega, fun x hx => ?_⟩
    rcases mem_cons.1 hx with rfl | hx
    · exact ⟨hstop, hstop'⟩
    · exact hall x hx

/-- Merging the hunks of differences gives the hunks of the groups. -/
theorem mergePairsFrom_hunks {g : Group} {rest : List Region} (hg : g.InText left right)
    (hrest : ∀ r ∈ rest, r.IsDifference)
    (haligned : Aligned left right g.last.leftStop g.last.rightStop rest)
    (hleft : 0 < left.length) (hright : 0 < right.length) :
    mergePairsFrom left right (some (g.hunks left right))
        (rest.map fun r => ((Group.single r).hunks left right).toPair) =
      .ok ((groupsFrom g rest).map fun g => (g.hunks left right).toPair) := by
  induction rest generalizing g with
  | nil => rfl
  | cons r rest ih =>
    obtain ⟨hstop, hstop'⟩ := (aligned_le haligned).2.2 r mem_cons_self
    obtain ⟨⟨k, hstart, hstart', -⟩, -, -, hlater⟩ := haligned
    have hr : r.IsDifference := hrest r mem_cons_self
    have hrest' : ∀ r ∈ rest, r.IsDifference := fun x hx => hrest x (mem_cons_of_mem _ hx)
    have hsingle : (Group.single r).InText left right := .single hr hstop hstop'
    have hfull := full?_toPair_hunks hsingle hleft hright
    have hjoin := join?_hunks hg hsingle hstart hstart' hleft hright
    rw [map_cons, groupsFrom]
    by_cases hnear : r.leftStart ≤ g.last.leftStop + 10
    · rw [if_pos hnear] at hjoin ⊢
      have hadded := hg.add hr hstop hstop' (by omega) hstart hstart'
      rw [← Group.last_add g r] at hlater
      rw [mergePairsFrom_joined hfull hjoin, ih hadded hrest' hlater]
    · rw [if_neg hnear] at hjoin ⊢
      rw [mergePairsFrom_apart hfull hjoin, ih hsingle hrest' hlater]
      rfl

theorem cut_left_span (hr : (Group.single r).InText left right) :
    Hunk.cut left r.spans.left shownContext = .ok ((Group.single r).hunks left right).left := by
  have hchanged : (Group.single r).changesLeft = fun i => r.leftStart ≤ i && i < r.leftStop := by
    funext i
    simp [Group.changesLeft, Group.regions, Group.single]
  rw [Group.hunks, hchanged]
  exact @Hunk.cut_eq_ofRange left r.leftStart r.leftStop 5 hr.first.left_le hr.left_le

/-- The pairs of hunks for some spans before their edges are trimmed. -/
def untrimmed (left right : List String) (spans : List ShownSpans) :
    Except Fault (List HunkPair) := do
  let pairs ← spans.mapM fun s => do
    return HunkPair.mk (← cutSide left s.left?) (← cutSide right s.right?)
  mergePairs left right pairs

/-- Trimming comes last, pair by pair. -/
theorem assemble_eq_map_untrimmed (left right : List String) (spans : List ShownSpans) :
    assemble left right spans = (untrimmed left right spans).map (List.map trimPair) := by
  unfold assemble untrimmed
  cases spans.mapM fun s => do
    return HunkPair.mk (← cutSide left s.left?) (← cutSide right s.right?) with
  | error fault => rfl
  | ok pairs =>
    change (do return (← mergePairs left right pairs).map trimPair) =
      (mergePairs left right pairs).map (List.map trimPair)
    cases mergePairs left right pairs <;> rfl

def differenceSpans (left right : List String) : List ShownSpans :=
  (TextDiff.of left right).spans.map fun p => .both p.left p.right

/-- Before trimming, each group of differences has its pair of hunks. -/
theorem untrimmed_differenceSpans (left right : List String) :
    untrimmed left right (differenceSpans left right) =
      .ok ((groups (differences left right)).map fun g => (g.hunks left right).toPair) := by
  have haligned := aligned_differences left right
  have hpairwise : (differences left right).Pairwise Region.Precedes :=
    differences_pairwise (ordered_all left right)
  have hdifference : ∀ r ∈ differences left right, r.IsDifference :=
    fun r hr => isDifference_of_mem hr
  have hsingle : ∀ r ∈ differences left right, (Group.single r).InText left right := by
    intro r hr
    obtain ⟨hstop, hstop'⟩ := (aligned_le haligned).2.2 r hr
    exact .single (hdifference r hr) hstop hstop'
  have hcut : (differenceSpans left right).mapM (fun s => do
      return HunkPair.mk (← cutSide left s.left?) (← cutSide right s.right?)) =
      .ok ((differences left right).map fun r => ((Group.single r).hunks left right).toPair) := by
    unfold differenceSpans TextDiff.of
    rw [map_map, mapM_map]
    apply mapM_eq_ok
    intro r hr
    have hleft := cut_left_span (hsingle r hr)
    have hright : Hunk.cut right r.spans.right shownContext =
        .ok ((Group.single r).hunks left right).right := cut_left_span (hsingle r hr).swap
    change (do
      let x ← cutSide left (some r.spans.left)
      let y ← cutSide right (some r.spans.right)
      return HunkPair.mk x y) = _
    rw [cutSide, cutSide, hleft, hright]
    rfl
  unfold untrimmed
  rw [hcut]
  change mergePairs left right _ = _
  unfold mergePairs
  -- a pair without neighbours is left as it is, so that a side may be empty there only
  rcases hdifferences : differences left right with _ | ⟨r, _ | ⟨r', rest⟩⟩
  · rfl
  · rfl
  · rw [hdifferences] at haligned hdifference hsingle hpairwise
    obtain ⟨hprecedes, hprecedes'⟩ := rel_of_pairwise_cons hpairwise mem_cons_self
    have hr' := hsingle r' (by simp)
    have hle := (hdifference r' (by simp)).left_le
    have hle' := (hdifference r' (by simp)).right_le
    have hstop := hr'.left_le
    have hstop' := hr'.right_le
    rw [Group.last_single] at hstop hstop'
    have hleft : 0 < left.length := by omega
    have hright : 0 < right.length := by omega
    have hr := hsingle r mem_cons_self
    rw [if_neg (by simp), map_cons, mergePairsFrom.eq_def]
    simp only [full?_toPair_hunks hr hleft hright]
    exact mergePairsFrom_hunks hr (fun x hx => hdifference x (mem_cons_of_mem _ hx))
      haligned.2.2.2 hleft hright

/-! ### Spacing -/

/-- Groups that follow one another from `i` and `j` to the ends, with a shared run before each. It
has more than ten lines, unless it starts with the texts. -/
def Spaced (left right : List String) (i j : Nat) : List Group → Prop
  | [] => ∃ k, left.length = i + k ∧ right.length = j + k ∧ Match.IsMatch left right ⟨i, j, k⟩
  | g :: rest =>
    (∃ k, g.first.leftStart = i + k ∧ g.first.rightStart = j + k ∧
      Match.IsMatch left right ⟨i, j, k⟩ ∧ (k ≤ 10 → i = 0 ∧ j = 0)) ∧
    g.InText left right ∧ Spaced left right g.last.leftStop g.last.rightStop rest

theorem spaced_groupsFrom {g : Group} {rest : List Region}
    (hrun : Match.IsMatch left right ⟨i, j, k⟩) (hlong : k ≤ 10 → i = 0 ∧ j = 0)
    (hstart : g.first.leftStart = i + k) (hstart' : g.first.rightStart = j + k)
    (hg : g.InText left right) (hrest : ∀ r ∈ rest, r.IsDifference)
    (haligned : Aligned left right g.last.leftStop g.last.rightStop rest) :
    Spaced left right i j (groupsFrom g rest) := by
  induction rest generalizing g i j k with
  | nil => exact ⟨⟨k, hstart, hstart', hrun, hlong⟩, hg, haligned⟩
  | cons r rest ih =>
    obtain ⟨hstop, hstop'⟩ := (aligned_le haligned).2.2 r mem_cons_self
    obtain ⟨⟨l, hnext, hnext', hshared⟩, -, -, hlater⟩ := haligned
    have hr : r.IsDifference := hrest r mem_cons_self
    have hrest' : ∀ r ∈ rest, r.IsDifference := fun x hx => hrest x (mem_cons_of_mem _ hx)
    rw [groupsFrom]
    by_cases hnear : r.leftStart ≤ g.last.leftStop + 10
    · rw [if_pos hnear]
      have hadded := hg.add hr hstop hstop' (by omega) hnext hnext'
      rw [← Group.last_add g r] at hlater
      rw [← Group.first_add g r] at hstart hstart'
      exact ih hrun hlong hstart hstart' hadded hrest' hlater
    · rw [if_neg hnear]
      have hlong' : l ≤ 10 → g.last.leftStop = 0 ∧ g.last.rightStop = 0 :=
        fun hl => absurd (by omega) hnear
      exact ⟨⟨k, hstart, hstart', hrun, hlong⟩, hg,
        ih hshared hlong' hnext hnext' (.single hr hstop hstop') hrest' hlater⟩

/-- The groups of two texts are spaced. -/
theorem spaced_groups_differences (left right : List String) :
    Spaced left right 0 0 (groups (differences left right)) := by
  have haligned := aligned_differences left right
  have hdifference : ∀ r ∈ differences left right, r.IsDifference :=
    fun r hr => isDifference_of_mem hr
  cases hdifferences : differences left right with
  | nil =>
    rw [hdifferences] at haligned
    exact haligned
  | cons r rest =>
    rw [hdifferences] at haligned hdifference
    obtain ⟨hstop, hstop'⟩ := (aligned_le haligned).2.2 r mem_cons_self
    obtain ⟨⟨k, hstart, hstart', hrun⟩, -, -, hlater⟩ := haligned
    exact spaced_groupsFrom hrun (fun _ => ⟨rfl, rfl⟩) hstart hstart'
      (.single (hdifference r mem_cons_self) hstop hstop')
      (fun x hx => hdifference x (mem_cons_of_mem _ hx)) hlater

/-- Grouping loses no difference. -/
theorem flatMap_regions_groupsFrom (g : Group) (rest : List Region) :
    (groupsFrom g rest).flatMap Group.regions = g.regions ++ rest := by
  induction rest generalizing g with
  | nil => simp [groupsFrom]
  | cons r rest ih =>
    rw [groupsFrom]
    split
    · rw [ih, Group.regions_add, append_assoc, singleton_append]
    · rw [flatMap_cons, ih]
      rfl

/-- No difference is lost in the groups. -/
theorem flatMap_regions_groups (rs : List Region) : (groups rs).flatMap Group.regions = rs := by
  cases rs with
  | nil => rfl
  | cons r rest => exact flatMap_regions_groupsFrom (.single r) rest

end Assembled

end Display

end MovieDiff
