import Mathlib.Data.List.Chain
import Mathlib.Data.List.Forall2
import MovieDiff.Proofs.Hunk.Table
import MovieDiff.Proofs.Hunk.Trimming
import MovieDiff.Proofs.Matching.Regions

/-!
Every pairing accounts for the hunks of both sides: each stands in one pair, in its order, and what
stands opposite no hunk is empty. Trimming the pairs keeps this, with a part of each hunk in its
place. The best pairing lists the hunks that only the left side has before those of the right side.
-/
namespace MovieDiff.Hunk

open List

def present (side : List Hunk) : List Hunk :=
  side.filter fun hunk => !hunk.isEmpty

/-- Each hunk of both lists stands in one pair, in its order; all else is empty, and no pair is
empty on both sides. -/
structure PairsUp (as bs : List Hunk) (pairs : Pairs) : Prop where
  lefts : present (pairs.map Prod.fst) = as
  rights : present (pairs.map Prod.snd) = bs
  nonempty : ∀ p ∈ pairs, p.1 ≠ [] ∨ p.2 ≠ []

variable {hunks : List Hunk}

theorem present_of_ne_nil (h : ∀ hunk ∈ hunks, hunk ≠ []) : present hunks = hunks := by
  apply filter_eq_self.2
  intro hunk hmem
  simpa using h hunk hmem

variable {hunk : Hunk}

theorem mem_present (h : hunk ∈ hunks) (hne : hunk ≠ []) : hunk ∈ present hunks :=
  mem_filter.2 ⟨h, by simpa using hne⟩

variable {as bs as' bs' : List Hunk} {pairs pairs' : Pairs}

namespace PairsUp

theorem nil : PairsUp [] [] [] :=
  ⟨rfl, rfl, by simp⟩

theorem append (h : PairsUp as bs pairs) (h' : PairsUp as' bs' pairs') :
    PairsUp (as ++ as') (bs ++ bs') (pairs ++ pairs') where
  lefts := by
    rw [present, map_append, filter_append, ← h.lefts, ← h'.lefts]
    rfl
  rights := by
    rw [present, map_append, filter_append, ← h.rights, ← h'.rights]
    rfl
  nonempty := fun p hp => (mem_append.1 hp).elim (h.nonempty p) (h'.nonempty p)

theorem unmatchedLeft (h : ∀ a ∈ as, a ≠ []) : PairsUp as [] (unmatchedLeft as) where
  lefts := by
    simpa [Hunk.unmatchedLeft, Function.comp_def] using present_of_ne_nil h
  rights := by
    simp [Hunk.unmatchedLeft, Function.comp_def, present]
  nonempty := by
    simpa [Hunk.unmatchedLeft] using h

theorem unmatchedRight (h : ∀ b ∈ bs, b ≠ []) : PairsUp [] bs (unmatchedRight bs) where
  lefts := by
    simp [Hunk.unmatchedRight, Function.comp_def, present]
  rights := by
    simpa [Hunk.unmatchedRight, Function.comp_def] using present_of_ne_nil h
  nonempty := by
    simpa [Hunk.unmatchedRight] using h

theorem zip (ha : ∀ a ∈ as, a ≠ []) (hb : ∀ b ∈ bs, b ≠ []) (hlength : as.length = bs.length) :
    PairsUp as bs (as.zip bs) where
  lefts := by
    rw [map_fst_zip (Nat.le_of_eq hlength), present_of_ne_nil ha]
  rights := by
    rw [map_snd_zip (Nat.le_of_eq hlength.symm), present_of_ne_nil hb]
  nonempty := fun p hp => .inl (ha p.1 (of_mem_zip hp).1)

theorem flatMap {ι : Type} {parts : List ι} {f g : ι → List Hunk} {pairsOf : ι → Pairs}
    (h : ∀ part ∈ parts, PairsUp (f part) (g part) (pairsOf part)) :
    PairsUp (parts.flatMap f) (parts.flatMap g) (parts.flatMap pairsOf) := by
  induction parts with
  | nil => exact nil
  | cons part parts ih =>
    simp only [flatMap_cons]
    exact (h part (by simp)).append (ih fun other hother => h other (by simp [hother]))

end PairsUp

/-! ### Looking ahead -/

variable {k : Nat}

/-- The best candidate is one of those seen, or the one to start with. -/
theorem bestAhead_lt (score : Hunk → Similarity) (hunks : List Hunk) {best : Nat × Similarity}
    (h : best.1 < k) :
    (bestAhead score k best hunks).1 < k + hunks.length := by
  induction hunks generalizing k best with
  | nil => exact h
  | cons hunk hunks ih =>
    have hnext : (if best.2.lt (score hunk) then (k, score hunk) else best).1 < k + 1 := by
      split
      · exact Nat.lt_succ_self k
      · exact Nat.lt_succ_of_lt h
    have hrest := ih hnext
    rw [bestAhead, length_cons]
    omega

theorem skip_le (score : Hunk → Similarity) {count skip : Nat} {here best : Similarity}
    (h : bestAhead score 1 (0, here) (hunks.take count) = (skip, best)) :
    skip ≤ hunks.length := by
  have hlt : (bestAhead score 1 (0, here) (hunks.take count)).1 < 1 + (hunks.take count).length :=
    bestAhead_lt score _ Nat.one_pos
  rw [h, length_take] at hlt
  simp only at hlt
  omega

/-- A list around one of its elements. -/
theorem take_append_getD_drop (x : Hunk) (xs : List Hunk) (hk : k ≤ xs.length) :
    (x :: xs).take k ++ ([(x :: xs).getD k x] ++ xs.drop k) = x :: xs := by
  have hlt : k < (x :: xs).length := Nat.lt_succ_of_le hk
  have hget : (x :: xs).getD k x = (x :: xs)[k] := by
    rw [getD_eq_getElem?_getD, getElem?_eq_getElem hlt, Option.getD_some]
  have hdrop : xs.drop k = (x :: xs).drop (k + 1) := rfl
  rw [hget, hdrop, singleton_append, ← drop_eq_getElem_cons hlt, take_append_drop]

/-- Looking ahead loses no hunk. -/
theorem pairsUp_pairAhead (lookahead : Int) (ha : ∀ a ∈ as, a ≠ []) (hb : ∀ b ∈ bs, b ≠ []) :
    PairsUp as bs (pairAhead lookahead as bs) := by
  fun_induction pairAhead lookahead as bs with
  | case1 bs => exact .unmatchedRight hb
  | case2 as => exact .unmatchedLeft ha
  | case3 a as b bs here skipB scoreB hskipB skipA scoreA hskipA hbetter ih =>
    have hsplit := take_append_getD_drop a as (skip_le _ hskipA)
    generalize (a :: as).getD skipA a = partner, (a :: as).take skipA = skipped at hsplit ⊢
    rw [← hsplit] at ha ⊢
    simp only [mem_append, mem_cons, not_mem_nil] at ha hb
    have hskipped : PairsUp skipped [] (unmatchedLeft skipped) := .unmatchedLeft (by grind)
    have hpair : PairsUp [partner] [b] [(partner, b)] := .zip (by grind) (by grind) rfl
    exact hskipped.append (hpair.append (ih (by grind) (by grind)))
  | case4 a as b bs here skipB scoreB hskipB skipA scoreA hskipA hworse ih =>
    have hsplit := take_append_getD_drop b bs (skip_le _ hskipB)
    generalize (b :: bs).getD skipB b = partner, (b :: bs).take skipB = skipped at hsplit ⊢
    rw [← hsplit] at hb ⊢
    simp only [mem_append, mem_cons, not_mem_nil] at ha hb
    have hskipped : PairsUp [] skipped (unmatchedRight skipped) := .unmatchedRight (by grind)
    have hpair : PairsUp [a] [partner] [(a, partner)] := .zip (by grind) (by grind) rfl
    exact hskipped.append (hpair.append (ih (by grind) (by grind)))

/-! ### The best pairing -/

theorem pairsUp_opposite {columns : List (Sides Hunk)}
    (ha : ∀ a ∈ columns.filterMap Sides.left?, a ≠ [])
    (hb : ∀ b ∈ columns.filterMap Sides.right?, b ≠ []) :
    PairsUp (columns.filterMap Sides.left?) (columns.filterMap Sides.right?)
      (columns.map opposite) := by
  induction columns with
  | nil => exact .nil
  | cons column columns ih =>
    cases column with
    | left a =>
      simp only [filterMap_cons, Sides.left?, Sides.right?, mem_cons] at ha hb ⊢
      have hfirst : PairsUp [a] [] [(a, [])] := .unmatchedLeft (by simpa using ha a (.inl rfl))
      exact hfirst.append (ih (fun x hx => ha x (.inr hx)) hb)
    | right b =>
      simp only [filterMap_cons, Sides.left?, Sides.right?, mem_cons] at ha hb ⊢
      have hfirst : PairsUp [] [b] [([], b)] := .unmatchedRight (by simpa using hb b (.inl rfl))
      exact hfirst.append (ih ha (fun x hx => hb x (.inr hx)))
    | both a b =>
      simp only [filterMap_cons, Sides.left?, Sides.right?, mem_cons] at ha hb ⊢
      have hfirst : PairsUp [a] [b] [(a, b)] :=
        .zip (by simpa using ha a (.inl rfl)) (by simpa using hb b (.inl rfl)) rfl
      exact hfirst.append (ih (fun x hx => ha x (.inr hx)) (fun x hx => hb x (.inr hx)))

variable {σ : Type} (scores : ScoreArithmetic σ)

/-- The best pairing loses no hunk. -/
theorem pairsUp_pairBest (ha : ∀ a ∈ as, a ≠ []) (hb : ∀ b ∈ bs, b ≠ []) :
    PairsUp as bs (pairBest scores as bs) := by
  have halign := isAlignment_bestColumns scores as bs
  have hpairs := @pairsUp_opposite (bestColumns scores as bs)
  rw [halign.lefts, halign.rights, ← pairBest_eq] at hpairs
  exact hpairs ha hb

/-! ### Aligned pairs -/

variable {a b : Hunk}

/-- Trimming empties no hunk. -/
theorem alignEdges_fst_eq_nil_iff (ha : Ascends a) (hb : Ascends b) :
    (alignEdges a b).1 = [] ↔ a = [] := by
  rcases alignEdges_cases ha hb with ⟨-, h⟩ | ⟨p, q, rfl, rfl, h⟩
  · rw [h]
  · obtain ⟨head, tail, hhunk⟩ := p.exists_hunk_eq_cons
    obtain ⟨head', tail', htrim⟩ := (p.trim q).exists_hunk_eq_cons
    rw [h, hhunk]
    simp [htrim]

theorem alignEdges_snd_eq_nil_iff (ha : Ascends a) (hb : Ascends b) :
    (alignEdges a b).2 = [] ↔ b = [] := by
  rw [alignEdges_swap b a]
  exact alignEdges_fst_eq_nil_iff hb ha

/-- Parts of hunks that are empty just where the hunks are. -/
theorem forall₂_present {ι : Type} {entries : List ι} {part whole : ι → Hunk}
    (htrimmed : ∀ e ∈ entries, IsTrimmed (part e) (whole e))
    (hempty : ∀ e ∈ entries, part e = [] ↔ whole e = []) :
    Forall₂ IsTrimmed (present (entries.map part)) (present (entries.map whole)) := by
  induction entries with
  | nil => exact .nil
  | cons e entries ih =>
    simp only [forall_mem_cons] at htrimmed hempty
    have hrest := ih htrimmed.2 hempty.2
    by_cases h : whole e = []
    · simpa [present, h, hempty.1.2 h] using hrest
    · have hpart : part e ≠ [] := fun hnil => h (hempty.1.1 hnil)
      simpa [present, h, hpart] using ⟨htrimmed.1, hrest⟩

theorem ascends_of_present {side : List Hunk} (h : present side = hunks)
    (hascends : ∀ hunk ∈ hunks, Ascends hunk) (hmem : hunk ∈ side) :
    Ascends hunk := by
  by_cases hne : hunk = []
  · rw [hne]
    exact List.Pairwise.nil
  · apply hascends
    rw [← h]
    exact mem_present hmem hne

/-- Trimming the pairs puts a part of each hunk in its place. -/
theorem PairsUp.trim (h : PairsUp as bs pairs) (ha : ∀ a ∈ as, Ascends a)
    (hb : ∀ b ∈ bs, Ascends b) :
    ∃ as' bs', Forall₂ IsTrimmed as' as ∧ Forall₂ IsTrimmed bs' bs ∧
      PairsUp as' bs' (pairs.map fun (a, b) => alignEdges a b) := by
  have hascends : ∀ p ∈ pairs, Ascends p.1 ∧ Ascends p.2 := fun p hp =>
    ⟨ascends_of_present h.lefts ha (mem_map_of_mem hp),
      ascends_of_present h.rights hb (mem_map_of_mem hp)⟩
  have hleft : ∀ p ∈ pairs, (alignEdges p.1 p.2).1 = [] ↔ p.1 = [] := fun p hp =>
    alignEdges_fst_eq_nil_iff (hascends p hp).1 (hascends p hp).2
  have hright : ∀ p ∈ pairs, (alignEdges p.1 p.2).2 = [] ↔ p.2 = [] := fun p hp =>
    alignEdges_snd_eq_nil_iff (hascends p hp).1 (hascends p hp).2
  have htrimmed : ∀ p ∈ pairs, IsTrimmed (alignEdges p.1 p.2).1 p.1 ∧
      IsTrimmed (alignEdges p.1 p.2).2 p.2 := fun p hp =>
    isTrimmed_alignEdges (hascends p hp).1 (hascends p hp).2
  refine ⟨_, _, ?_, ?_, rfl, rfl, ?_⟩
  · rw [← h.lefts, map_map]
    exact forall₂_present (fun p hp => (htrimmed p hp).1) hleft
  · rw [← h.rights, map_map]
    exact forall₂_present (fun p hp => (htrimmed p hp).2) hright
  · intro p' hp'
    obtain ⟨p, hp, rfl⟩ := mem_map.1 hp'
    exact (h.nonempty p hp).imp (mt (hleft p hp).1) (mt (hright p hp).1)

variable {α β : Type}

theorem left_map (r : Region) (f : α → β) (xs : List α) :
    r.left (xs.map f) = (r.left xs).map f := by
  rw [Region.left, Region.left, map_drop, map_take]

theorem right_map (r : Region) (f : α → β) (xs : List α) :
    r.right (xs.map f) = (r.right xs).map f := by
  rw [Region.right, Region.right, map_drop, map_take]

/-- Pairing what is the same and the best of what is not. -/
theorem pairsUp_regions {κ : Type} [DecidableEq κ] (key : Hunk → κ) (ha : ∀ a ∈ as, a ≠ [])
    (hb : ∀ b ∈ bs, b ≠ []) :
    PairsUp as bs ((regions (as.map key) (bs.map key)).flatMap fun r =>
      if r.same then (r.left as).zip (r.right bs)
      else pairBest scores (r.left as) (r.right bs)) := by
  have hparts : ∀ r ∈ regions (as.map key) (bs.map key), PairsUp (r.left as) (r.right bs)
      (if r.same then (r.left as).zip (r.right bs)
        else pairBest scores (r.left as) (r.right bs)) := by
    intro r hr
    have hleft : ∀ a ∈ r.left as, a ≠ [] := fun a h =>
      ha a (mem_of_mem_take (mem_of_mem_drop h))
    have hright : ∀ b ∈ r.right bs, b ≠ [] := fun b h =>
      hb b (mem_of_mem_take (mem_of_mem_drop h))
    split
    next hsame =>
      have hkeys := (left_eq_right_of_same hr hsame).1
      rw [left_map, right_map] at hkeys
      exact .zip hleft hright (by simpa using congrArg List.length hkeys)
    next => exact pairsUp_pairBest scores hleft hright
  have hall := PairsUp.flatMap hparts
  obtain ⟨hleft, hright⟩ := flatMap_regions (length_map key).symm (length_map key).symm
  rwa [hleft, hright] at hall

/-- No pairing loses, repeats or reorders a hunk; where the pairs are trimmed, a part of each hunk
that lacks nothing but context stands for it. -/
theorem pairings_account (lookahead : Int) (ha : ∀ a ∈ as, a ≠ [] ∧ Ascends a)
    (hb : ∀ b ∈ bs, b ≠ [] ∧ Ascends b) :
    PairsUp as bs (pairAhead lookahead as bs) ∧ PairsUp as bs (pairBest scores as bs) ∧
      ∃ as' bs', Forall₂ IsTrimmed as' as ∧ Forall₂ IsTrimmed bs' bs ∧
        PairsUp as' bs' (alignPairs scores as bs) := by
  have hleft : ∀ a ∈ as, a ≠ [] := fun a h => (ha a h).1
  have hright : ∀ b ∈ bs, b ≠ [] := fun b h => (hb b h).1
  exact ⟨pairsUp_pairAhead lookahead hleft hright, pairsUp_pairBest scores hleft hright,
    (pairsUp_regions scores _ hleft hright).trim (fun a h => (ha a h).2) fun b h => (hb b h).2⟩

def editedLeft : List Hunk :=
  [[⟨2, "Pop", .plain⟩],
    [⟨7, "Not", .context⟩, ⟨8, "Jump a", .context⟩, ⟨9, "Push 1", .plain⟩],
    [⟨20, "Stop", .plain⟩]]

def editedRight : List Hunk :=
  [[⟨2, "Return", .plain⟩],
    [⟨6, "Jump a", .context⟩, ⟨7, "Push 2", .plain⟩],
    [⟨15, "Add", .plain⟩]]

theorem editedLeft_valid : ∀ a ∈ editedLeft, a ≠ [] ∧ Ascends a := by
  unfold editedLeft Ascends
  decide

theorem editedRight_valid : ∀ b ∈ editedRight, b ≠ [] ∧ Ascends b := by
  unfold editedRight Ascends
  decide

theorem pairings_account_edited :
    (∀ a ∈ editedLeft, a ≠ [] ∧ Ascends a) ∧ (∀ b ∈ editedRight, b ≠ [] ∧ Ascends b) ∧
      (alignPairs roundedScores editedLeft editedRight).map Prod.fst =
        [[⟨2, "Pop", .plain⟩], [], [⟨8, "Jump a", .context⟩, ⟨9, "Push 1", .plain⟩],
          [⟨20, "Stop", .plain⟩], []] ∧
      PairsUp editedLeft editedRight (pairAhead defaultLookahead editedLeft editedRight) ∧
      PairsUp editedLeft editedRight (pairBest roundedScores editedLeft editedRight) ∧
      ∃ as' bs', Forall₂ IsTrimmed as' editedLeft ∧ Forall₂ IsTrimmed bs' editedRight ∧
        PairsUp as' bs' (alignPairs roundedScores editedLeft editedRight) :=
  ⟨editedLeft_valid, editedRight_valid, by decide +kernel,
    pairings_account roundedScores defaultLookahead editedLeft_valid editedRight_valid⟩

/-! ### Deletions before insertions -/

/-- A way back that starts with a right hunk left alone has the score without that hunk. -/
theorem score_of_head?_route (h : (route scores as bs).head? = some (.right b)) :
    ∃ rest, bs = b :: rest ∧ (cellOf scores as bs).score = (cellOf scores as rest).score := by
  cases as with
  | nil =>
    cases bs with
    | nil => simp [route] at h
    | cons b' bs =>
      rw [route] at h
      cases h
      exact ⟨bs, rfl, by rw [cellOf]⟩
  | cons a as =>
    cases bs with
    | nil => simp [route] at h
    | cons b' bs =>
      rw [route] at h
      split at h
      next => cases h
      next hstep =>
        cases h
        exact ⟨bs, rfl, (isBestStep_cellOf scores a as b bs).of_skipB hstep⟩
      next => cases h

/-- On the way back, no right hunk left alone comes right after a left hunk left alone. -/
theorem isChain_route (as bs : List Hunk) :
    (route scores as bs).IsChain fun c d => ∀ a b, c = .left a → d ≠ .right b := by
  fun_induction route scores as bs with
  | case1 => exact .nil
  | case2 b bs ih => exact ih.cons fun d _ a' b' hc => by cases hc
  | case3 a as ih =>
    refine ih.cons fun d hd a' b' _ hright => ?_
    rw [hright] at hd
    obtain ⟨rest, hnil, -⟩ := score_of_head?_route scores hd
    cases hnil
  | case4 a as b bs hstep ih => exact ih.cons fun d _ a' b' hc => by cases hc
  | case5 a as b bs hstep ih => exact ih.cons fun d _ a' b' hc => by cases hc
  | case6 a as b bs hstep ih =>
    refine ih.cons fun d hd a' b' _ hright => ?_
    rw [hright] at hd
    -- leaving both alone was possible with a score that is no less
    obtain ⟨rest, hrest, hscore⟩ := score_of_head?_route scores hd
    cases hrest
    have hless := ((isBestStep_cellOf scores a as b bs).of_skipA hstep).2
    rw [hscore, score_cons_left] at hless
    cases hless

variable {columns : List (Sides Hunk)} {column : Sides Hunk}

theorem eq_right_of_opposite_fst (halign : IsAlignment as bs columns) (ha : ∀ a ∈ as, a ≠ [])
    (hmem : column ∈ columns) (h : (opposite column).1 = []) : ∃ b, column = .right b := by
  cases column with
  | right b => exact ⟨b, rfl⟩
  | left a =>
    have ha' : a ∈ as := halign.lefts ▸ mem_filterMap.2 ⟨_, hmem, rfl⟩
    exact absurd h (ha a ha')
  | both a b =>
    have ha' : a ∈ as := halign.lefts ▸ mem_filterMap.2 ⟨_, hmem, rfl⟩
    exact absurd h (ha a ha')

theorem eq_left_of_opposite_snd (halign : IsAlignment as bs columns) (hb : ∀ b ∈ bs, b ≠ [])
    (hmem : column ∈ columns) (h : (opposite column).2 = []) : ∃ a, column = .left a := by
  cases column with
  | left a => exact ⟨a, rfl⟩
  | right b =>
    have hb' : b ∈ bs := halign.rights ▸ mem_filterMap.2 ⟨_, hmem, rfl⟩
    exact absurd h (hb b hb')
  | both a b =>
    have hb' : b ∈ bs := halign.rights ▸ mem_filterMap.2 ⟨_, hmem, rfl⟩
    exact absurd h (hb b hb')

/-- Deletions come before additions. -/
theorem isChain_pairBest (ha : ∀ a ∈ as, a ≠ []) (hb : ∀ b ∈ bs, b ≠ []) :
    (pairBest scores as bs).IsChain fun p q => ¬ (p.1 = [] ∧ q.2 = []) := by
  have halign := isAlignment_bestColumns scores as bs
  rw [pairBest_eq, isChain_map]
  have hchain : (bestColumns scores as bs).IsChain
      fun c d => ∀ a b, d = .left a → c ≠ .right b := by
    rw [bestColumns, isChain_reverse]
    exact isChain_route scores _ _
  refine hchain.imp_of_mem_imp fun c d hc hd hcd hempty => ?_
  obtain ⟨b, rfl⟩ := eq_right_of_opposite_fst halign ha hc hempty.1
  obtain ⟨a, rfl⟩ := eq_left_of_opposite_snd halign hb hd hempty.2
  exact hcd a b rfl rfl

/-- Unmatched pairs in which no insertion is followed by a deletion. -/
theorem exists_unmatched_eq {run : Pairs} (hchain : run.IsChain fun p q => ¬ (p.1 = [] ∧ q.2 = []))
    (hone : ∀ p ∈ run, p.1 = [] ∨ p.2 = []) :
    ∃ xs ys, run = unmatchedLeft xs ++ unmatchedRight ys := by
  induction run with
  | nil => exact ⟨[], [], rfl⟩
  | cons p run ih =>
    obtain ⟨hhead, htail⟩ := isChain_cons.1 hchain
    obtain ⟨xs, ys, rfl⟩ := ih htail fun q hq => hone q (mem_cons_of_mem _ hq)
    rcases p with ⟨a, b⟩
    rcases hone (a, b) mem_cons_self with rfl | rfl
    · -- an insertion: no deletion follows
      cases xs with
      | nil => exact ⟨[], b :: ys, rfl⟩
      | cons x xs => exact absurd ⟨rfl, rfl⟩ (hhead (x, []) rfl)
    · exact ⟨a :: xs, ys, rfl⟩

/-- No insertion is directly followed by a deletion, so that in each run of unmatched hunks those of
the left side come first. -/
theorem pairBest_deletions_first (ha : ∀ a ∈ as, a ≠ []) (hb : ∀ b ∈ bs, b ≠ []) :
    (pairBest scores as bs).IsChain (fun p q => ¬ (p.1 = [] ∧ q.2 = [])) ∧
      ∀ run, run <:+: pairBest scores as bs → (∀ p ∈ run, p.1 = [] ∨ p.2 = []) →
        ∃ xs ys, run = unmatchedLeft xs ++ unmatchedRight ys := by
  have hchain := isChain_pairBest scores ha hb
  refine ⟨hchain, fun run hrun hone => ?_⟩
  have hrunChain := List.IsChain.infix hchain hrun
  exact exists_unmatched_eq hrunChain hone

theorem pairBest_deletions_first_edited :
    (∀ a ∈ editedLeft, a ≠ []) ∧ (∀ b ∈ editedRight, b ≠ []) ∧
      (pairBest roundedScores editedLeft editedRight).map (fun p => (p.1.isEmpty, p.2.isEmpty)) =
        [(false, true), (true, false), (false, false), (false, true), (true, false)] ∧
      (pairBest roundedScores editedLeft editedRight).IsChain
        (fun p q => ¬ (p.1 = [] ∧ q.2 = [])) ∧
      ∀ run, run <:+: pairBest roundedScores editedLeft editedRight →
        (∀ p ∈ run, p.1 = [] ∨ p.2 = []) →
          ∃ xs ys, run = unmatchedLeft xs ++ unmatchedRight ys := by
  have hleft : ∀ a ∈ editedLeft, a ≠ [] := fun a h => (editedLeft_valid a h).1
  have hright : ∀ b ∈ editedRight, b ≠ [] := fun b h => (editedRight_valid b h).1
  exact ⟨hleft, hright, by decide +kernel, pairBest_deletions_first roundedScores hleft hright⟩

end MovieDiff.Hunk
