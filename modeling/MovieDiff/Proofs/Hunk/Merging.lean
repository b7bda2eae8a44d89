import MovieDiff.Hunk.Basic
import Mathlib.Data.List.Nodup
import Mathlib.Data.List.Sort

/-!
The laws of merging. What merging makes of some lines is settled for each index alone: by the first
line there that is not context, or else by the first line. Merging fails exactly when two lines of
one index differ in text, and gives the one sorted hunk with the lines so settled. Hence it does not
matter in which steps hunks are merged; nor in which order, as long as the marks at each index
agree.
-/
namespace MovieDiff.Hunk

open List

variable {lines others : List HunkLine} {merged out : Hunk} {index : Int} {line : HunkLine}
  {hunks' : List Hunk}

/-- The line that stands for all lines of an index: the first that is not context, or the first. -/
def standing? (lines : List HunkLine) (index : Int) : Option HunkLine :=
  let found := lines.filter fun line => line.index == index
  (found.find? fun line => !line.isContext).or found.head?

/-- Lines of one index have one text. -/
def Agree (lines : List HunkLine) : Prop :=
  ∀ a ∈ lines, ∀ b ∈ lines, a.index = b.index → a.text = b.text

def Sorted (hunk : Hunk) : Prop :=
  hunk.Pairwise fun a b => a.index < b.index

/-- A hunk with one line for each index of some lines, in order: the one that stands for them. -/
structure IsMerged (lines : List HunkLine) (merged : Hunk) : Prop where
  sorted : Sorted merged
  indices : ∀ index, index ∈ merged.map HunkLine.index ↔ index ∈ lines.map HunkLine.index
  standing : ∀ line ∈ merged, standing? lines line.index = some line

/-! ### The standing line -/

/-- Of two standing lines, the second stands for both only where the first is context. -/
def prefer : Option HunkLine → Option HunkLine → Option HunkLine
  | some a, some b => if a.isContext && !b.isContext then some b else some a
  | some a, none => some a
  | none, second => second

@[simp] theorem prefer_none (first : Option HunkLine) : prefer first none = first := by
  cases first <;> rfl

@[simp] theorem none_prefer (second : Option HunkLine) : prefer none second = second := rfl

section Standing

theorem standing?_eq_none_iff : standing? lines index = none ↔ ∀ a ∈ lines, a.index ≠ index := by
  simp only [standing?, Option.or_eq_none_iff, head?_eq_none_iff, filter_eq_nil_iff,
    beq_iff_eq]
  constructor
  · exact fun h => h.2
  · intro h
    rw [filter_eq_nil_iff.2 (by simpa using h)]
    exact ⟨rfl, h⟩

/-- The standing line has the index, and is context only if all lines of the index are. -/
theorem of_standing? (h : standing? lines index = some line) :
    line ∈ lines ∧ line.index = index ∧
      (line.isContext → ∀ other ∈ lines, other.index = index → other.isContext) := by
  have hmem : ∀ {a : HunkLine}, a ∈ (lines.filter fun line => line.index == index) →
      a ∈ lines ∧ a.index = index := by
    intro a ha
    rw [mem_filter, beq_iff_eq] at ha
    exact ha
  unfold standing? at h
  dsimp only at h
  cases hfind : (lines.filter fun line => line.index == index).find?
      fun line => !line.isContext with
  | some found =>
    rw [hfind] at h
    cases h
    have hplain := find?_some hfind
    obtain ⟨hline, hindex⟩ := hmem (mem_of_find?_eq_some hfind)
    refine ⟨hline, hindex, fun hcontext => ?_⟩
    rw [hcontext] at hplain
    cases hplain
  | none =>
    rw [hfind, Option.none_or] at h
    obtain ⟨hline, hindex⟩ := hmem (mem_of_mem_head? h)
    refine ⟨hline, hindex, fun _ other hother hindex' => ?_⟩
    have hcontext := find?_eq_none.1 hfind other (mem_filter.2 ⟨hother, by simpa using hindex'⟩)
    simpa using hcontext

theorem prefer_assoc (first second third : Option HunkLine) :
    prefer (prefer first second) third = prefer first (prefer second third) := by
  cases first <;> cases second <;> cases third <;> grind [prefer]

/-- Later lines change what stands for an index only where it is context so far. -/
theorem standing?_cons (line : HunkLine) (lines : List HunkLine) (index : Int) :
    standing? (line :: lines) index =
      prefer (if line.index = index then some line else none) (standing? lines index) := by
  unfold standing?
  dsimp only
  by_cases hindex : line.index = index
  · rw [if_pos hindex, filter_cons_of_pos (by simpa using hindex)]
    generalize (lines.filter fun line => line.index == index) = found
    cases hline : line.isContext with
    | false => cases (found.find? fun line => !line.isContext).or found.head? <;> simp [prefer, hline]
    | true =>
      cases hfind : found.find? fun line => !line.isContext with
      | some first =>
        have hplain : first.isContext = false := by simpa using find?_some hfind
        simp [prefer, hline, hfind, hplain]
      | none =>
        cases hhead : found.head? with
        | none => simp [prefer, hline, hfind]
        | some first =>
          have hcontext : first.isContext := by
            simpa using find?_eq_none.1 hfind first (mem_of_mem_head? hhead)
          simp [prefer, hline, hfind, hcontext]
  · rw [if_neg hindex, filter_cons_of_neg (by simpa using hindex), none_prefer]

theorem standing?_singleton (line : HunkLine) (index : Int) :
    standing? [line] index = if line.index = index then some line else none :=
  (standing?_cons line [] index).trans (prefer_none _)

theorem standing?_append (lines others : List HunkLine) (index : Int) :
    standing? (lines ++ others) index = prefer (standing? lines index) (standing? others index) := by
  induction lines with
  | nil => rfl
  | cons line lines ih => rw [cons_append, standing?_cons, standing?_cons, ih, prefer_assoc]

/-- The standing line has the text of every line of its index, if these agree. -/
theorem Agree.exists_standing? (h : Agree lines) (hline : line ∈ lines) :
    ∃ known, standing? lines line.index = some known ∧ known.text = line.text := by
  cases hknown : standing? lines line.index with
  | none => exact absurd rfl (standing?_eq_none_iff.1 hknown line hline)
  | some known =>
    obtain ⟨hmem, hindex, -⟩ := of_standing? hknown
    exact ⟨known, rfl, h known hmem line hline hindex⟩

/-- Two agreeing lists agree with each other when their standing lines do. -/
theorem agree_append_iff : Agree (lines ++ others) ↔ Agree lines ∧ Agree others ∧
    ∀ index a b, standing? lines index = some a → standing? others index = some b →
      a.text = b.text := by
  constructor
  · intro h
    refine ⟨fun a ha b hb => h a (mem_append_left _ ha) b (mem_append_left _ hb),
      fun a ha b hb => h a (mem_append_right _ ha) b (mem_append_right _ hb), ?_⟩
    intro index a b ha hb
    obtain ⟨hamem, haindex, -⟩ := of_standing? ha
    obtain ⟨hbmem, hbindex, -⟩ := of_standing? hb
    exact h a (mem_append_left _ hamem) b (mem_append_right _ hbmem)
      (haindex.trans hbindex.symm)
  · rintro ⟨hlines, hothers, hstanding⟩
    have hacross : ∀ a ∈ lines, ∀ b ∈ others, a.index = b.index → a.text = b.text := by
      intro a ha b hb hindex
      obtain ⟨known, hknown, htext⟩ := hlines.exists_standing? ha
      obtain ⟨known', hknown', htext'⟩ := hothers.exists_standing? hb
      rw [← hindex] at hknown'
      rw [← htext, ← htext']
      exact hstanding a.index known known' hknown hknown'
    intro a ha b hb hindex
    rcases mem_append.1 ha with ha | ha
    · rcases mem_append.1 hb with hb | hb
      · exact hlines a ha b hb hindex
      · exact hacross a ha b hb hindex
    · rcases mem_append.1 hb with hb | hb
      · exact (hacross b hb a ha hindex.symm).symm
      · exact hothers a ha b hb hindex

end Standing

/-! ### Sorted hunks -/

namespace Sorted

variable {hunk other : Hunk}

theorem eq_of_index_eq (h : Sorted hunk) {a b : HunkLine} (ha : a ∈ hunk) (hb : b ∈ hunk)
    (hindex : a.index = b.index) : a = b := by
  have hnodup : (hunk.map HunkLine.index).Nodup :=
    pairwise_map.2 (h.imp fun hlt => Int.ne_of_lt hlt)
  exact inj_on_of_nodup_map hnodup ha hb hindex

theorem agree (h : Sorted hunk) : Agree hunk :=
  fun _ ha _ hb hindex => congrArg HunkLine.text (h.eq_of_index_eq ha hb hindex)

/-- In a sorted hunk every line stands for itself alone. -/
theorem mem_iff (h : Sorted hunk) : line ∈ hunk ↔ standing? hunk line.index = some line := by
  constructor
  · intro hline
    cases hknown : standing? hunk line.index with
    | none => exact absurd rfl (standing?_eq_none_iff.1 hknown line hline)
    | some known =>
      obtain ⟨hmem, hindex, -⟩ := of_standing? hknown
      rw [h.eq_of_index_eq hmem hline hindex]
  · exact fun hknown => (of_standing? hknown).1

/-- A sorted hunk is settled by the lines that stand for each index. -/
theorem eq_of_standing? (h : Sorted hunk) (hother : Sorted other)
    (hsame : ∀ index, standing? hunk index = standing? other index) : hunk = other := by
  have : Std.Irrefl fun a b : HunkLine => a.index < b.index := ⟨fun a => Int.lt_irrefl a.index⟩
  have : Std.Antisymm fun a b : HunkLine => a.index < b.index :=
    ⟨fun _ _ hab hba => absurd hab (Int.lt_asymm hba)⟩
  refine List.Pairwise.eq_of_mem_iff h hother fun line => ?_
  rw [h.mem_iff, hother.mem_iff, hsame]

end Sorted

/-- A merged hunk is sorted and has the standing lines. -/
theorem isMerged_iff : IsMerged lines merged ↔
    Sorted merged ∧ ∀ index, standing? merged index = standing? lines index := by
  constructor
  · intro h
    refine ⟨h.sorted, fun index => ?_⟩
    cases hknown : standing? merged index with
    | none =>
      symm
      rw [standing?_eq_none_iff] at hknown ⊢
      intro line hline hindex
      obtain ⟨known, hmem, hsame⟩ :=
        mem_map.1 ((h.indices index).2 (mem_map.2 ⟨line, hline, hindex⟩))
      exact hknown known hmem hsame
    | some known =>
      obtain ⟨hmem, rfl, -⟩ := of_standing? hknown
      exact (h.standing known hmem).symm
  · rintro ⟨hsorted, hsame⟩
    refine ⟨hsorted, fun index => ?_, fun line hline => ?_⟩
    · have hnone : standing? merged index = none ↔ standing? lines index = none := by
        rw [hsame]
      rw [standing?_eq_none_iff, standing?_eq_none_iff] at hnone
      simpa using not_congr hnone
    · rw [← hsame]
      exact hsorted.mem_iff.1 hline

/-! ### One more line -/

section Insertion

variable {first : HunkLine} {rest : Hunk}

/-- Nothing stands for an index below those of a hunk. -/
theorem standing?_of_lt (h : ∀ known ∈ merged, index < known.index) :
    standing? merged index = none :=
  standing?_eq_none_iff.2 fun known hknown => Int.ne_of_gt (h known hknown)

theorem isMerged_before (hsorted : Sorted merged) (h : ∀ known ∈ merged, line.index < known.index) :
    IsMerged (merged ++ [line]) (line :: merged) := by
  refine isMerged_iff.2 ⟨pairwise_cons.2 ⟨h, hsorted⟩, fun index => ?_⟩
  rw [standing?_cons, standing?_append, standing?_singleton]
  split
  next hindex =>
    rw [← hindex, standing?_of_lt h]
    rfl
  · simp

theorem isMerged_past (h : ∀ known ∈ rest ++ [line], first.index < known.index)
    (hout : IsMerged (rest ++ [line]) out) : IsMerged (first :: rest ++ [line]) (first :: out) := by
  obtain ⟨hsorted, hsame⟩ := isMerged_iff.1 hout
  refine isMerged_iff.2 ⟨pairwise_cons.2 ⟨fun known hknown => ?_, hsorted⟩, fun index => ?_⟩
  · obtain ⟨before, hmem, hindex⟩ :=
      mem_map.1 ((hout.indices known.index).1 (mem_map_of_mem hknown))
    rw [← hindex]
    exact h before hmem
  · rw [standing?_cons, hsame, cons_append, ← standing?_cons]

/-- A line of an index that is there already replaces it if only the old one is context. -/
theorem isMerged_meet (hsorted : Sorted (first :: rest)) (hindex : first.index = line.index) :
    IsMerged (first :: rest ++ [line])
      ((if first.isContext && !line.isContext then line else first) :: rest) := by
  obtain ⟨hfirst, hrest⟩ := pairwise_cons.1 hsorted
  generalize hnew : (if first.isContext && !line.isContext then line else first) = new
  have hsame : new.index = first.index := by
    rw [← hnew]
    split
    · exact hindex.symm
    · rfl
  refine isMerged_iff.2 ⟨pairwise_cons.2 ⟨?_, hrest⟩, fun index => ?_⟩
  · rwa [hsame]
  · rw [standing?_cons, cons_append, standing?_cons, standing?_append, standing?_singleton,
      hsame, ← hindex]
    by_cases hhere : first.index = index
    · have hnone : standing? rest index = none := standing?_of_lt (hhere ▸ hfirst)
      rw [if_pos hhere, if_pos hhere, if_pos hhere, hnone, ← hnew]
      simp only [prefer]
      split <;> rfl
    · simp [hhere]

/-- A line is put in its place, unless it contradicts the line there. -/
theorem insertLine_cases (line : HunkLine) (hsorted : Sorted merged) :
    (∃ known ∈ merged, known.index = line.index ∧ known.text ≠ line.text ∧
        insertLine line merged = .error (.conflictingLine line.index known.text line.text)) ∨
      (∃ out, insertLine line merged = .ok out ∧ IsMerged (merged ++ [line]) out ∧
        ∀ known ∈ merged, known.index = line.index → known.text = line.text) := by
  induction merged with
  | nil => exact .inr ⟨[line], rfl, isMerged_before hsorted (by simp), by simp⟩
  | cons first rest ih =>
    obtain ⟨hfirst, hrest⟩ := pairwise_cons.1 hsorted
    rw [insertLine]
    by_cases hbefore : line.index < first.index
    · have hall : ∀ known ∈ first :: rest, line.index < known.index := by
        intro known hknown
        rcases mem_cons.1 hknown with rfl | hknown
        · exact hbefore
        · exact Int.lt_trans hbefore (hfirst known hknown)
      rw [if_pos hbefore]
      refine .inr ⟨_, rfl, isMerged_before hsorted hall, fun known hknown hindex => ?_⟩
      exact absurd hindex (Int.ne_of_gt (hall known hknown))
    rw [if_neg hbefore]
    by_cases hafter : first.index < line.index
    · rw [if_pos hafter]
      rcases ih hrest with ⟨known, hknown, hindex, htext, herror⟩ | ⟨out, hok, hout, hagree⟩
      · exact .inl ⟨known, mem_cons_of_mem _ hknown, hindex, htext, by rw [herror]; rfl⟩
      · refine .inr ⟨first :: out, by rw [hok]; rfl, isMerged_past ?_ hout, ?_⟩
        · intro known hknown
          rcases mem_append.1 hknown with hknown | hknown
          · exact hfirst known hknown
          · rw [mem_singleton.1 hknown]
            exact hafter
        · intro known hknown hindex
          rcases mem_cons.1 hknown with rfl | hknown
          · exact absurd hindex (Int.ne_of_lt hafter)
          · exact hagree known hknown hindex
    · have hindex : first.index = line.index := by omega
      rw [if_neg hafter]
      by_cases htext : first.text ≠ line.text
      · rw [if_pos htext]
        exact .inl ⟨first, mem_cons_self, hindex, htext, rfl⟩
      · rw [if_neg htext]
        refine .inr ⟨_, ?_, isMerged_meet hsorted hindex, fun known hknown hsame => ?_⟩
        · split <;> rfl
        · rw [hsorted.eq_of_index_eq hknown mem_cons_self (hsame.trans hindex.symm)]
          exact not_not.1 htext

end Insertion

/-! ### All lines -/

theorem IsMerged.append (h : IsMerged lines merged) (hout : IsMerged (merged ++ others) out) :
    IsMerged (lines ++ others) out := by
  obtain ⟨-, hsame⟩ := isMerged_iff.1 h
  obtain ⟨hsorted, hsame'⟩ := isMerged_iff.1 hout
  refine isMerged_iff.2 ⟨hsorted, fun index => ?_⟩
  rw [hsame', standing?_append, hsame, ← standing?_append]

/-- Lines put in one after the other are merged, up to the first that contradicts one before it. -/
theorem foldlM_insertLine_cases {seen : Hunk} (lines : List HunkLine)
    (hmerged : IsMerged seen merged) (hseen : Agree seen) :
    (Agree (seen ++ lines) ∧ ∃ out,
        lines.foldlM (fun merged line => insertLine line merged) merged = .ok out ∧
          IsMerged (seen ++ lines) out) ∨
      ∃ a ∈ seen ++ lines, ∃ b ∈ seen ++ lines, a.index = b.index ∧ a.text ≠ b.text ∧
        lines.foldlM (fun merged line => insertLine line merged) merged =
          .error (.conflictingLine b.index a.text b.text) := by
  induction lines generalizing seen merged with
  | nil =>
    rw [append_nil]
    exact .inl ⟨hseen, merged, rfl, hmerged⟩
  | cons line lines ih =>
    rw [foldlM_cons]
    rcases insertLine_cases line hmerged.sorted with
      ⟨known, hknown, hindex, htext, herror⟩ | ⟨out, hok, hout, hagree⟩
    · obtain ⟨hmem, -, -⟩ := of_standing? (hmerged.standing known hknown)
      refine .inr ⟨known, mem_append_left _ hmem, line, by simp, hindex, htext, ?_⟩
      rw [herror]
      rfl
    · have hnext : Agree (seen ++ [line]) := by
        refine agree_append_iff.2 ⟨hseen, by simp [Agree], fun index a b ha hb => ?_⟩
        rw [← (isMerged_iff.1 hmerged).2] at ha
        obtain ⟨hamem, haindex, -⟩ := of_standing? ha
        obtain ⟨hbmem, hbindex, -⟩ := of_standing? hb
        rw [mem_singleton.1 hbmem] at hbindex ⊢
        exact hagree a hamem (haindex.trans hbindex.symm)
      rw [hok]
      have hrest := ih (hmerged.append hout) hnext
      rwa [append_assoc, singleton_append] at hrest

section Merge

variable {hunks : List Hunk}

/-- Merging succeeds, or two lines disagree. -/
theorem merge_cases (hunks : List Hunk) :
    (Agree hunks.flatten ∧ ∃ merged, merge hunks = .ok merged ∧ IsMerged hunks.flatten merged) ∨
      ∃ a ∈ hunks.flatten, ∃ b ∈ hunks.flatten, a.index = b.index ∧ a.text ≠ b.text ∧
        merge hunks = .error (.conflictingLine b.index a.text b.text) :=
  foldlM_insertLine_cases hunks.flatten (isMerged_iff.2 ⟨List.Pairwise.nil, fun _ => rfl⟩)
    (by simp [Agree])

theorem exists_merge_of_agree (h : Agree hunks.flatten) :
    ∃ merged, merge hunks = .ok merged ∧ IsMerged hunks.flatten merged := by
  rcases merge_cases hunks with ⟨-, hmerged⟩ | ⟨a, ha, b, hb, hindex, htext, -⟩
  · exact hmerged
  · exact absurd (h a ha b hb hindex) htext

/-- What is merged, and when. -/
theorem merge_eq_ok_iff :
    merge hunks = .ok merged ↔ Agree hunks.flatten ∧ IsMerged hunks.flatten merged := by
  constructor
  · intro h
    rcases merge_cases hunks with ⟨hagree, out, hok, hout⟩ | ⟨a, -, b, -, -, -, herror⟩
    · cases hok.symm.trans h
      exact ⟨hagree, hout⟩
    · cases herror.symm.trans h
  · rintro ⟨hagree, hmerged⟩
    obtain ⟨out, hok, hout⟩ := exists_merge_of_agree hagree
    have hsame : out = merged := by
      apply hout.sorted.eq_of_standing? hmerged.sorted
      intro index
      rw [(isMerged_iff.1 hout).2, (isMerged_iff.1 hmerged).2]
    rw [hok, hsame]

def outcome (result : Except Fault Hunk) : Except FaultKind Hunk :=
  result.mapError Fault.kind

theorem outcome_merge_of_not_agree (h : ¬ Agree hunks.flatten) :
    outcome (merge hunks) = .error .invalidValue := by
  rcases merge_cases hunks with ⟨hagree, -⟩ | ⟨a, -, b, -, -, -, herror⟩
  · exact absurd hagree h
  · rw [herror]
    rfl

/-- Hunks whose lines agree alike and have the same standing lines are merged alike. -/
theorem outcome_merge_congr (hagree : Agree hunks.flatten ↔ Agree hunks'.flatten)
    (hsame : Agree hunks.flatten →
      ∀ index, standing? hunks.flatten index = standing? hunks'.flatten index) :
    outcome (merge hunks) = outcome (merge hunks') := by
  by_cases h : Agree hunks.flatten
  · obtain ⟨merged, hok, hmerged⟩ := exists_merge_of_agree h
    have hok' : merge hunks' = .ok merged := by
      obtain ⟨hsorted, hstanding⟩ := isMerged_iff.1 hmerged
      refine merge_eq_ok_iff.2 ⟨hagree.1 h, isMerged_iff.2 ⟨hsorted, fun index => ?_⟩⟩
      rw [hstanding, hsame h]
    rw [hok, hok']
  · rw [outcome_merge_of_not_agree h, outcome_merge_of_not_agree (mt hagree.2 h)]

/-! ### Merging again -/

/-- A merged hunk absorbs lines that it was merged from. -/
theorem merge_cons_of_subset (h : merge hunks = .ok merged) {parts : List Hunk}
    (hparts : parts.flatten ⊆ hunks.flatten) : merge (merged :: parts) = .ok merged := by
  obtain ⟨hagree, hmerged⟩ := merge_eq_ok_iff.1 h
  obtain ⟨hsorted, hsame⟩ := isMerged_iff.1 hmerged
  rw [merge_eq_ok_iff, flatten_cons]
  constructor
  · refine agree_append_iff.2 ⟨hsorted.agree, ?_, fun index a b ha hb => ?_⟩
    · exact fun a ha b hb => hagree a (hparts ha) b (hparts hb)
    · rw [hsame] at ha
      obtain ⟨hamem, haindex, -⟩ := of_standing? ha
      obtain ⟨hbmem, hbindex, -⟩ := of_standing? hb
      exact hagree a hamem b (hparts hbmem) (haindex.trans hbindex.symm)
  · refine isMerged_iff.2 ⟨hsorted, fun index => ?_⟩
    rw [standing?_append]
    cases hknown : standing? merged index with
    | none =>
      -- an index that the hunk lacks is none of its parts' either
      rw [hsame, standing?_eq_none_iff] at hknown
      rw [none_prefer, eq_comm, standing?_eq_none_iff]
      exact fun line hline => hknown line (hparts hline)
    | some known =>
      cases hpart : standing? parts.flatten index with
      | none => rfl
      | some line =>
        rw [hsame] at hknown
        obtain ⟨-, -, hcontext⟩ := of_standing? hknown
        obtain ⟨hmem, hindex, -⟩ := of_standing? hpart
        have hkept : (known.isContext && !line.isContext) = false := by
          cases hk : known.isContext with
          | false => rfl
          | true => simp [hcontext hk line (hparts hmem) hindex]
        simp [prefer, hkept]

/-- Merging from left to right in several steps is merging at once, faults included. -/
theorem merge_append (hunks others : List Hunk) :
    merge (hunks ++ others) = (merge hunks).bind fun merged => merge (merged :: others) := by
  have hsplit : ∀ before after : List Hunk, merge (before ++ after) =
      (merge before).bind fun merged =>
        after.flatten.foldlM (fun merged line => insertLine line merged) merged := by
    intro before after
    rw [merge, flatten_append, foldlM_append]
    rfl
  rw [hsplit]
  cases hfirst : merge hunks with
  | error fault => rfl
  | ok merged =>
    have hagain : merge [merged] = .ok merged := merge_cons_of_subset hfirst (by simp)
    have hnext := hsplit [merged] others
    rw [hagain] at hnext
    exact hnext.symm

end Merge

/-! ### Groupings -/

/-- Hunks merged in several steps: each step merges hunks and the results of other steps. -/
inductive Grouping where
  | hunk (lines : Hunk)
  | merged (parts : List Grouping)

namespace Grouping

mutual

def hunks : Grouping → List Hunk
  | .hunk lines => [lines]
  | .merged parts => hunksOf parts

def hunksOf : List Grouping → List Hunk
  | [] => []
  | part :: parts => part.hunks ++ hunksOf parts

end

mutual

/-- Merges step by step, from the inside. -/
def run : Grouping → Except Fault Hunk
  | .hunk lines => .ok lines
  | .merged parts => (runAll parts).bind merge

def runAll : List Grouping → Except Fault (List Hunk)
  | [] => .ok []
  | part :: parts => part.run.bind fun first => (runAll parts).map (first :: ·)

end

end Grouping

/-- Lines that merging cannot tell apart. -/
structure Alike (lines others : List HunkLine) : Prop where
  agree : Agree lines ↔ Agree others
  standing : ∀ index, standing? lines index = standing? others index

theorem Alike.append {lines' others' : List HunkLine} (h : Alike lines lines')
    (h' : Alike others others') : Alike (lines ++ others) (lines' ++ others') where
  agree := by
    simp only [agree_append_iff, h.agree, h'.agree, h.standing, h'.standing]
  standing index := by
    rw [standing?_append, standing?_append, h.standing, h'.standing]

theorem IsMerged.alike (h : IsMerged lines merged) (hagree : Agree lines) : Alike merged lines where
  agree := iff_of_true h.sorted.agree hagree
  standing := (isMerged_iff.1 h).2

/-- A step that succeeds gives lines like those that went into it; one that fails had lines that
do not agree. -/
def StepsLike {α : Type} (lines : α → List HunkLine) (all : List HunkLine) :
    Except Fault α → Prop
  | .ok result => Alike (lines result) all
  | .error fault => fault.kind = .invalidValue ∧ ¬ Agree all

theorem stepsLike_merge {results : List Hunk} {all : List HunkLine}
    (h : Alike results.flatten all) : StepsLike id all (merge results) := by
  rcases merge_cases results with
    ⟨hagree, merged, hok, hmerged⟩ | ⟨a, ha, b, hb, hindex, htext, herror⟩
  · rw [hok]
    have halike := hmerged.alike hagree
    exact ⟨halike.agree.trans h.agree, fun index => (halike.standing index).trans (h.standing index)⟩
  · rw [herror]
    exact ⟨rfl, fun hall => htext (h.agree.2 hall a ha b hb hindex)⟩

namespace Grouping

mutual

/-- Every grouping steps like its lines. -/
theorem stepsLike_run (group : Grouping) : StepsLike id group.hunks.flatten group.run := by
  cases group with
  | hunk lines =>
    simp only [hunks, run, List.flatten_singleton]
    exact ⟨Iff.rfl, fun _ => rfl⟩
  | merged parts =>
    have hparts := stepsLike_runAll parts
    simp only [hunks, run]
    cases hrun : runAll parts with
    | error fault =>
      rw [hrun] at hparts
      exact hparts
    | ok results =>
      rw [hrun] at hparts
      exact stepsLike_merge hparts

theorem stepsLike_runAll (parts : List Grouping) :
    StepsLike List.flatten (hunksOf parts).flatten (runAll parts) := by
  cases parts with
  | nil => exact ⟨Iff.rfl, fun _ => rfl⟩
  | cons part parts =>
    have hfirst := stepsLike_run part
    have hothers := stepsLike_runAll parts
    simp only [hunksOf, runAll, List.flatten_append]
    cases hrun : part.run with
    | error fault =>
      rw [hrun] at hfirst
      exact ⟨hfirst.1, fun hall => hfirst.2 (agree_append_iff.1 hall).1⟩
    | ok first =>
      rw [hrun] at hfirst
      cases hruns : runAll parts with
      | error fault =>
        rw [hruns] at hothers
        exact ⟨hothers.1, fun hall => hothers.2 (agree_append_iff.1 hall).2.1⟩
      | ok results =>
        rw [hruns] at hothers
        exact hfirst.append hothers

end

/-- Grouping does not matter. -/
theorem outcome_run_merged (parts : List Grouping) :
    outcome (Grouping.merged parts).run = outcome (merge (hunksOf parts)) := by
  have hparts := stepsLike_runAll parts
  rw [run]
  cases hrun : runAll parts with
  | error fault =>
    rw [hrun] at hparts
    rw [outcome_merge_of_not_agree hparts.2]
    exact congrArg Except.error hparts.1
  | ok results =>
    rw [hrun] at hparts
    exact outcome_merge_congr hparts.agree fun _ => hparts.standing

end Grouping

/-- Merging at once and in two steps may report different faults: the inner step goes first. -/
example :
    merge [[⟨0, "a", .plain⟩], [⟨0, "b", .plain⟩, ⟨1, "a", .plain⟩], [⟨1, "b", .plain⟩]] =
        .error (.conflictingLine 0 "a" "b") ∧
      (Grouping.merged [.hunk [⟨0, "a", .plain⟩], .merged [.hunk [⟨0, "b", .plain⟩, ⟨1, "a", .plain⟩],
        .hunk [⟨1, "b", .plain⟩]]]).run = .error (.conflictingLine 1 "a" "b") :=
  ⟨rfl, rfl⟩

/-! ### Any order -/

def MarksAgree (lines : List HunkLine) : Prop :=
  ∀ a ∈ lines, ∀ b ∈ lines, a.index = b.index → a.mark ≠ .context → b.mark ≠ .context →
    a.mark = b.mark

theorem isContext_iff : line.isContext ↔ line.mark = .context :=
  beq_iff_eq

/-- Where texts and marks agree, only one line can stand for an index, whatever the order. -/
theorem standing?_perm (hperm : lines.Perm others)
    (hagree : Agree lines) (hmarks : MarksAgree lines) (index : Int) :
    standing? lines index = standing? others index := by
  have hmem : ∀ {a : HunkLine}, a ∈ others → a ∈ lines := fun ha => hperm.mem_iff.2 ha
  cases hfirst : standing? lines index with
  | none =>
    rw [eq_comm]
    rw [standing?_eq_none_iff] at hfirst ⊢
    exact fun a ha => hfirst a (hmem ha)
  | some a =>
    obtain ⟨ha, haindex, hacontext⟩ := of_standing? hfirst
    cases hsecond : standing? others index with
    | none => exact absurd haindex (standing?_eq_none_iff.1 hsecond a (hperm.mem_iff.1 ha))
    | some b =>
      obtain ⟨hb, hbindex, hbcontext⟩ := of_standing? hsecond
      have hindex : a.index = b.index := haindex.trans hbindex.symm
      have htext : a.text = b.text := hagree a ha b (hmem hb) hindex
      have hcontext : a.isContext ↔ b.isContext :=
        ⟨fun h => hacontext h b (hmem hb) hbindex,
          fun h => hbcontext h a (hperm.mem_iff.1 ha) haindex⟩
      have hmark : a.mark = b.mark := by
        by_cases h : a.mark = .context
        · rw [h, isContext_iff.1 (hcontext.1 (isContext_iff.2 h))]
        · refine hmarks a ha b (hmem hb) hindex h fun h' => h ?_
          exact isContext_iff.1 (hcontext.2 (isContext_iff.2 h'))
      obtain ⟨i, t, m⟩ := a
      obtain ⟨i', t', m'⟩ := b
      cases hindex
      cases htext
      cases hmark
      rfl

/-- Order does not matter where marks agree. -/
theorem outcome_merge_perm {hunks : List Hunk} (hperm : hunks.Perm hunks')
    (hmarks : MarksAgree hunks.flatten) : outcome (merge hunks) = outcome (merge hunks') := by
  have hlines : hunks.flatten.Perm hunks'.flatten := hperm.flatten
  refine outcome_merge_congr ?_ fun hagree => standing?_perm hlines hagree hmarks
  simp only [Agree, hlines.mem_iff]

/-! ### The laws -/

/-- Merging fails exactly when two lines of one index differ in text, and otherwise gives the sorted
hunk of the lines that stand for each index. It may be done in several steps, in any grouping, and
from left to right even with the same fault; lines merged already change nothing; and the order of
the hunks matters only where marks other than context differ. -/
theorem merge_laws (hunks : List Hunk) :
    (outcome (merge hunks) = .error .invalidValue ↔
      ∃ a ∈ hunks.flatten, ∃ b ∈ hunks.flatten, a.index = b.index ∧ a.text ≠ b.text) ∧
    (Agree hunks.flatten → ∃ merged, merge hunks = .ok merged ∧ IsMerged hunks.flatten merged) ∧
    (∀ parts, Grouping.hunksOf parts = hunks →
      outcome (Grouping.merged parts).run = outcome (merge hunks)) ∧
    (∀ others, merge (hunks ++ others) = (merge hunks).bind fun merged => merge (merged :: others)) ∧
    (∀ merged parts, merge hunks = .ok merged → parts.flatten ⊆ hunks.flatten →
      merge (merged :: parts) = .ok merged) ∧
    (∀ hunks', hunks.Perm hunks' → MarksAgree hunks.flatten →
      outcome (merge hunks) = outcome (merge hunks')) := by
  refine ⟨?_, exists_merge_of_agree, ?_, merge_append hunks, ?_, ?_⟩
  · rcases merge_cases hunks with
      ⟨hagree, merged, hok, -⟩ | ⟨a, ha, b, hb, hindex, htext, herror⟩
    · rw [hok]
      refine iff_of_false (fun h => by cases h) ?_
      rintro ⟨a, ha, b, hb, hindex, htext⟩
      exact htext (hagree a ha b hb hindex)
    · rw [herror]
      exact iff_of_true rfl ⟨a, ha, b, hb, hindex, htext⟩
  · rintro parts rfl
    exact Grouping.outcome_run_merged parts
  · exact fun merged parts h hparts => merge_cons_of_subset h hparts
  · exact fun hunks' hperm hmarks => outcome_merge_perm hperm hmarks

end MovieDiff.Hunk
