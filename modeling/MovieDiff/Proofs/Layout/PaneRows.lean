import MovieDiff.Layout.Split
import MovieDiff.Proofs.Layout.ReadBack

/-!
The rows of two panes side by side. Each line is followed by as many fillers as it is lower than the
line opposite. Main statement: every line is shown once and in order, lines opposite each other
start at the same height, and so do corresponding segments, so that both panes end together and no
gap is left to fill.
-/
namespace MovieDiff.Layout

open List

def totalHeight (height : PaneRow → Nat) (rows : List PaneRow) : Nat :=
  (rows.map height).sum

/-- The rows that are no fillers, each with the height at which it starts; the first row starts at
`top`. -/
def linesFrom (height : PaneRow → Nat) (top : Nat) : List PaneRow → List (Nat × PaneRow)
  | [] => []
  | row :: rest =>
    (if row = filler then [] else [(top, row)]) ++ linesFrom height (top + height row) rest

/-- The rows of two panes show their segments side by side. -/
structure AreOpposite (leftHeight rightHeight : PaneRow → Nat) (left right : List (List PaneRow))
    (rows : List PaneRow × List PaneRow) : Prop where
  /-- Each line is shown once, in order, and a line and the one opposite start at one height. -/
  lines : ∃ top : Nat → Nat → Nat,
    linesFrom leftHeight 0 rows.1 =
      (left.mapIdx fun i segment => segment.mapIdx fun k row => (top i k, row)).flatten ∧
    linesFrom rightHeight 0 rows.2 =
      (right.mapIdx fun i segment => segment.mapIdx fun k row => (top i k, row)).flatten
  /-- The rows of the first segments, however many, come first and are equally high. -/
  segments : ∀ i, ∃ front, front = alignRows leftHeight rightHeight (left.take i) (right.take i) ∧
    front.1 <+: rows.1 ∧ front.2 <+: rows.2 ∧
    totalHeight leftHeight front.1 = totalHeight rightHeight front.2
  height : totalHeight leftHeight rows.1 = totalHeight rightHeight rows.2

def startingWith {α : Type} (first : α) (rest : Nat → α) : Nat → α
  | 0 => first
  | n + 1 => rest n

/-! ### Rows of one pane -/

section Rows

variable {height : PaneRow → Nat} {top : Nat}

@[simp] theorem totalHeight_append (front back : List PaneRow) :
    totalHeight height (front ++ back) = totalHeight height front + totalHeight height back := by
  simp [totalHeight]

theorem linesFrom_append (front back : List PaneRow) :
    linesFrom height top (front ++ back) =
      linesFrom height top front ++ linesFrom height (top + totalHeight height front) back := by
  induction front generalizing top with
  | nil => rfl
  | cons row front ih =>
    rw [cons_append, linesFrom, linesFrom, ih, append_assoc]
    simp [totalHeight, Nat.add_assoc]

theorem linesFrom_fillers (n : Nat) :
    linesFrom height top (List.replicate n filler) = [] := by
  induction n generalizing top with
  | zero => rfl
  | succ n ih => rw [replicate_succ, linesFrom, if_pos rfl, ih, nil_append]

theorem totalHeight_fillers (h : height filler = 1) (n : Nat) :
    totalHeight height (List.replicate n filler) = n := by
  simp [totalHeight, h]

def heightOf (height : PaneRow → Nat) (line : Option PaneRow) : Nat :=
  (line.map height).getD 0

theorem totalHeight_toList (line : Option PaneRow) :
    totalHeight height line.toList = heightOf height line := by
  cases line <;> simp [totalHeight, heightOf]

/-- The first line of a segment starts where its rows do, and the others where the rest does. -/
theorem linesFrom_segment {segment rest : List PaneRow} {n : Nat} {tops : Nat → Nat}
    (hsegment : ∀ row ∈ segment, row ≠ filler) (hfiller : height filler = 1)
    (hrest : linesFrom height (top + (heightOf height segment.head? + n)) rest =
      segment.tail.mapIdx fun k row => (tops k, row)) :
    linesFrom height top ((segment.head?.toList ++ List.replicate n filler) ++ rest) =
      segment.mapIdx fun k row => (startingWith top tops k, row) := by
  rw [linesFrom_append, linesFrom_append, linesFrom_fillers, totalHeight_append,
    totalHeight_toList, totalHeight_fillers hfiller, hrest, append_nil]
  cases segment with
  | nil => rfl
  | cons row segment =>
    have hrow : row ≠ filler := hsegment row mem_cons_self
    simp [linesFrom, hrow, mapIdx_cons, startingWith]

end Rows

/-! ### Rows of two panes -/

section Pairs

variable {leftHeight rightHeight : PaneRow → Nat}

/-- Lines are taken from two segments in pairs until both are over. -/
theorem pairs_induction {motive : List PaneRow → List PaneRow → Prop} (nil : motive [] [])
    (pair : ∀ xs ys, motive xs.tail ys.tail → motive xs ys) (xs ys : List PaneRow) :
    motive xs ys := by
  induction xs generalizing ys with
  | nil =>
    induction ys with
    | nil => exact nil
    | cons y ys ih => exact pair [] (y :: ys) ih
  | cons x xs ih => exact pair (x :: xs) ys (ih ys.tail)

theorem alignSegments_nil : alignSegments leftHeight rightHeight [] [] = ([], []) := by
  simp [alignSegments]

theorem alignSegments_eq (xs ys : List PaneRow) :
    alignSegments leftHeight rightHeight xs ys =
      ((alignLines leftHeight rightHeight xs.head? ys.head?).1 ++
        (alignSegments leftHeight rightHeight xs.tail ys.tail).1,
      (alignLines leftHeight rightHeight xs.head? ys.head?).2 ++
        (alignSegments leftHeight rightHeight xs.tail ys.tail).2) := by
  cases xs <;> cases ys <;> simp [alignSegments, alignLines]

theorem alignRows_cons (xs ys : List PaneRow) (left right : List (List PaneRow)) :
    alignRows leftHeight rightHeight (xs :: left) (ys :: right) =
      ((alignSegments leftHeight rightHeight xs ys).1 ++
        (alignRows leftHeight rightHeight left right).1,
      (alignSegments leftHeight rightHeight xs ys).2 ++
        (alignRows leftHeight rightHeight left right).2) :=
  rfl

theorem alignRows_append {front back front' back' : List (List PaneRow)}
    (h : front.length = front'.length) :
    alignRows leftHeight rightHeight (front ++ back) (front' ++ back') =
      ((alignRows leftHeight rightHeight front front').1 ++
        (alignRows leftHeight rightHeight back back').1,
      (alignRows leftHeight rightHeight front front').2 ++
        (alignRows leftHeight rightHeight back back').2) := by
  simp [alignRows, zip_append h]

variable (hleft : leftHeight filler = 1) (hright : rightHeight filler = 1)
include hleft hright

/-- Two lines with their fillers are as high as the higher line. -/
theorem totalHeight_alignLines (x y : Option PaneRow) :
    totalHeight leftHeight (alignLines leftHeight rightHeight x y).1 =
        max (heightOf leftHeight x) (heightOf rightHeight y) ∧
      totalHeight rightHeight (alignLines leftHeight rightHeight x y).2 =
        max (heightOf leftHeight x) (heightOf rightHeight y) := by
  simp only [alignLines, totalHeight_append, totalHeight_toList, totalHeight_fillers hleft,
    totalHeight_fillers hright]
  unfold heightOf
  omega

theorem totalHeight_alignSegments (xs ys : List PaneRow) :
    totalHeight leftHeight (alignSegments leftHeight rightHeight xs ys).1 =
      totalHeight rightHeight (alignSegments leftHeight rightHeight xs ys).2 := by
  induction xs, ys using pairs_induction with
  | nil => rw [alignSegments_nil]; rfl
  | pair xs ys ih =>
    obtain ⟨hl, hr⟩ := totalHeight_alignLines hleft hright xs.head? ys.head?
    rw [alignSegments_eq, totalHeight_append, totalHeight_append, hl, hr, ih]

/-- Both panes are equally high. -/
theorem totalHeight_alignRows (left right : List (List PaneRow)) :
    totalHeight leftHeight (alignRows leftHeight rightHeight left right).1 =
      totalHeight rightHeight (alignRows leftHeight rightHeight left right).2 := by
  unfold alignRows
  induction left.zip right with
  | nil => rfl
  | cons pair rest ih =>
    dsimp only at ih
    simp only [map_cons, flatten_cons, totalHeight_append,
      totalHeight_alignSegments hleft hright, ih]

/-- Lines opposite each other start at one height. -/
theorem exists_tops_alignSegments {xs ys : List PaneRow} (hxs : ∀ row ∈ xs, row ≠ filler)
    (hys : ∀ row ∈ ys, row ≠ filler) (top : Nat) :
    ∃ tops : Nat → Nat,
      linesFrom leftHeight top (alignSegments leftHeight rightHeight xs ys).1 =
        xs.mapIdx (fun k row => (tops k, row)) ∧
      linesFrom rightHeight top (alignSegments leftHeight rightHeight xs ys).2 =
        ys.mapIdx (fun k row => (tops k, row)) := by
  induction xs, ys using pairs_induction generalizing top with
  | nil => exact ⟨fun _ => top, by rw [alignSegments_nil]; rfl, by rw [alignSegments_nil]; rfl⟩
  | pair xs ys ih =>
    -- the rest starts below the higher of the two lines, whichever side it is on
    obtain ⟨tops, hl, hr⟩ := ih (fun row hrow => hxs row (mem_of_mem_tail hrow))
      (fun row hrow => hys row (mem_of_mem_tail hrow))
      (top + max (heightOf leftHeight xs.head?) (heightOf rightHeight ys.head?))
    refine ⟨startingWith top tops, ?_, ?_⟩
    · rw [alignSegments_eq]
      refine linesFrom_segment hxs hleft ?_
      rw [← hl]
      congr 2
      unfold heightOf
      omega
    · rw [alignSegments_eq]
      refine linesFrom_segment hys hright ?_
      rw [← hr]
      congr 2
      unfold heightOf
      omega

variable {left right : List (List PaneRow)}

/-- So do the lines of segments one below the other. -/
theorem exists_tops_alignRows (hlength : left.length = right.length)
    (hl : ∀ segment ∈ left, ∀ row ∈ segment, row ≠ filler)
    (hr : ∀ segment ∈ right, ∀ row ∈ segment, row ≠ filler) (top : Nat) :
    ∃ tops : Nat → Nat → Nat,
      linesFrom leftHeight top (alignRows leftHeight rightHeight left right).1 =
        (left.mapIdx fun i segment => segment.mapIdx fun k row => (tops i k, row)).flatten ∧
      linesFrom rightHeight top (alignRows leftHeight rightHeight left right).2 =
        (right.mapIdx fun i segment => segment.mapIdx fun k row => (tops i k, row)).flatten := by
  induction left generalizing right top with
  | nil =>
    cases length_eq_zero_iff.1 hlength.symm
    exact ⟨fun _ _ => top, rfl, rfl⟩
  | cons xs left ih =>
    obtain ⟨ys, right, rfl⟩ := exists_cons_of_length_eq_add_one hlength.symm
    rw [forall_mem_cons] at hl hr
    obtain ⟨first, hfirst, hfirst'⟩ := exists_tops_alignSegments hleft hright hl.1 hr.1 top
    obtain ⟨tops, hrest, hrest'⟩ := ih (Nat.succ.inj hlength) hl.2 hr.2
      (top + totalHeight leftHeight (alignSegments leftHeight rightHeight xs ys).1)
    refine ⟨startingWith first tops, ?_, ?_⟩
    · simp only [alignRows_cons, linesFrom_append, hfirst, hrest, mapIdx_cons,
        flatten_cons, startingWith]
    · rw [totalHeight_alignSegments hleft hright] at hrest'
      simp only [alignRows_cons, linesFrom_append, hfirst', hrest', mapIdx_cons,
        flatten_cons, startingWith]

/-- Aligned rows are opposite. -/
theorem areOpposite_alignRows (hlength : left.length = right.length)
    (hl : ∀ segment ∈ left, ∀ row ∈ segment, row ≠ filler)
    (hr : ∀ segment ∈ right, ∀ row ∈ segment, row ≠ filler) :
    AreOpposite leftHeight rightHeight left right
      (alignRows leftHeight rightHeight left right) := by
  refine ⟨exists_tops_alignRows hleft hright hlength hl hr 0, fun i => ?_,
    totalHeight_alignRows hleft hright left right⟩
  have htake : (left.take i).length = (right.take i).length := by
    rw [length_take, length_take, hlength]
  have hrows : alignRows leftHeight rightHeight (left.take i ++ left.drop i)
      (right.take i ++ right.drop i) = _ := alignRows_append htake
  rw [take_append_drop, take_append_drop] at hrows
  refine ⟨_, rfl, ?_, ?_, totalHeight_alignRows hleft hright _ _⟩
  · rw [hrows]
    exact prefix_append _ _
  · rw [hrows]
    exact prefix_append _ _

end Pairs

/-! ### Annotated hunks -/

/-- A line of a hunk has its number in the gutter, where a filler has nothing. -/
theorem rowOfLine_ne_filler (line : HunkLine) : rowOfLine line ≠ filler := by
  intro heq
  have hkept : Text.dropControls (toString line.number) = toString line.number := by
    refine Text.dropControls_eq_self fun c hc => ?_
    rcases mem_toString hc with rfl | hdigit
    · decide
    · have hlow : '0' ≤ c := of_decide_eq_true (Bool.and_eq_true_iff.1 hdigit).1
      have hcode : 48 ≤ c.toNat := UInt32.le_iff_toNat_le.1 (Char.le_def.1 hlow)
      simp only [Text.isDropped, Bool.or_eq_false_iff, beq_eq_false_iff_ne]
      omega
  have hgutter : toString line.number = "" := hkept.symm.trans (congrArg PaneRow.gutter heq)
  have hnil : (toString line.number).toList = [] := by rw [hgutter]; rfl
  rw [Text.Json.toList_toString, append_eq_nil_iff] at hnil
  exact Nat.toDigits_ne_nil hnil.2

theorem ne_filler_of_mem_segments {hunk : AnnotatedHunk} :
    ∀ segment ∈ (Pane.ofAnnotated hunk).segments, ∀ row ∈ segment, row ≠ filler := by
  intro segment hsegment row hrow
  obtain ⟨lines, -, rfl⟩ := mem_map.1 hsegment
  obtain ⟨line, -, rfl⟩ := mem_map.1 hrow
  exact rowOfLine_ne_filler line

/-- A filler is one line high at every width. -/
theorem rowHeight_filler (wrap : Bool) (width : Nat) : rowHeight wrap width filler = 1 := by
  cases wrap with
  | false => rfl
  | true => rfl

/-- The split layout keeps two annotated hunks aligned. Whatever the heights of lines, as long as a
filler is one line high, corresponding lines and segments start at the same height. So it is at
every width, with and without wrapping: both panes are equally high, and no gap is left. -/
theorem split_keeps_opposite (left right : AnnotatedHunk) (hlength : left.length = right.length)
    (leftHeight rightHeight : PaneRow → Nat) (hleft : leftHeight filler = 1)
    (hright : rightHeight filler = 1) :
    AreOpposite leftHeight rightHeight (Pane.ofAnnotated left).segments
      (Pane.ofAnnotated right).segments
      (alignRows leftHeight rightHeight (Pane.ofAnnotated left).segments
        (Pane.ofAnnotated right).segments) ∧
    ∀ width spacing wrap, ∃ shown rows,
      split width spacing wrap (.ofAnnotated left) (.ofAnnotated right) = .ok shown ∧
      shown.left = .rows rows.1 ∧ shown.right = .rows rows.2 ∧
      AreOpposite (rowHeight wrap (textWidth (.ofAnnotated left) shown.widths.1))
        (rowHeight wrap (textWidth (.ofAnnotated right) shown.widths.2))
        (Pane.ofAnnotated left).segments (Pane.ofAnnotated right).segments rows ∧
      shown.heights.1 = shown.heights.2 ∧
      shown.height - shown.heights.1 = 0 ∧ shown.height - shown.heights.2 = 0 := by
  have hsegments :
      (Pane.ofAnnotated left).segments.length = (Pane.ofAnnotated right).segments.length := by
    simpa [Pane.ofAnnotated, Pane.segments] using hlength
  refine ⟨areOpposite_alignRows hleft hright hsegments ne_filler_of_mem_segments
    ne_filler_of_mem_segments, fun width spacing wrap => ?_⟩
  have hrows := areOpposite_alignRows
    (rowHeight_filler wrap (textWidth (.ofAnnotated left) (paneWidths width spacing).1))
    (rowHeight_filler wrap (textWidth (.ofAnnotated right) (paneWidths width spacing).2))
    hsegments ne_filler_of_mem_segments ne_filler_of_mem_segments
  have hheights := congrArg (· + 2) hrows.height
  refine ⟨_, _, rfl, rfl, rfl, hrows, hheights, ?_, ?_⟩
  · exact Nat.sub_eq_zero_of_le (Nat.max_le.2 ⟨Nat.le_refl _, Nat.le_of_eq hheights.symm⟩)
  · exact Nat.sub_eq_zero_of_le (Nat.max_le.2 ⟨Nat.le_of_eq hheights, Nat.le_refl _⟩)

/-- A long line against two short ones, then a segment that only the right side has. -/
def longLine : AnnotatedHunk :=
  [[⟨0, "stop the clip and go on", .deletion⟩], []]

def shortLines : AnnotatedHunk :=
  [[⟨0, "stop", .addition⟩, ⟨1, "go", .addition⟩], [⟨2, "on", .addition⟩]]

theorem longLine_keeps_opposite :
    longLine.length = shortLines.length ∧ rowHeight true 6 filler = 1 ∧
      rowHeight true 9 filler = 1 ∧
      AreOpposite (rowHeight true 6) (rowHeight true 9) (Pane.ofAnnotated longLine).segments
        (Pane.ofAnnotated shortLines).segments
        (alignRows (rowHeight true 6) (rowHeight true 9) (Pane.ofAnnotated longLine).segments
          (Pane.ofAnnotated shortLines).segments) ∧
      ∃ shown, split 31 1 true (.ofAnnotated longLine) (.ofAnnotated shortLines) = .ok shown ∧
        shown.heights.1 = shown.heights.2 := by
  obtain ⟨hrows, hsplit⟩ :=
    split_keeps_opposite longLine shortLines rfl (rowHeight true 6) (rowHeight true 9) rfl rfl
  obtain ⟨shown, rows, hshown, -, -, -, hheights, -⟩ := hsplit 31 1 true
  exact ⟨rfl, rfl, rfl, hrows, shown, hshown, hheights⟩

end MovieDiff.Layout
