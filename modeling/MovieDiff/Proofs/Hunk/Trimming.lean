import Mathlib.Data.List.Basic
import MovieDiff.Hunk.Edges
import MovieDiff.Proofs.Matching.Longest

/-!
Trimming the edges of any two hunks. A hunk with a changed line is its context at the start, what
lies from the first changed line to the last, and its context at the end; trimming shortens the two
contexts only, to the lines next to the changes that both sides share.
-/
namespace MovieDiff.Hunk

open List
open HunkLine (isContext)

variable (xs ys : List HunkLine) {head last : HunkLine} {a b : Hunk}

def Ascends (hunk : Hunk) : Prop :=
  hunk.Pairwise fun x y => x.index < y.index

/-- A part in one piece that lacks nothing but context. -/
def IsTrimmed (part whole : Hunk) : Prop :=
  ∃ before after, whole = before ++ (part ++ after) ∧
    (∀ line ∈ before, line.isContext = true) ∧ ∀ line ∈ after, line.isContext = true

theorem IsTrimmed.refl (hunk : Hunk) : IsTrimmed hunk hunk :=
  ⟨[], [], by simp, by simp, by simp⟩

/-! ### Shared context -/

/-- How many lines from the start on have the same texts. -/
def agreement (xs ys : List HunkLine) : Nat :=
  Match.sharedFront (texts xs) (texts ys)

/-- What is kept of the context at an edge, the innermost line first: the lines that agree, or all
of it where none do. -/
def kept (xs ys : List HunkLine) : List HunkLine :=
  xs.take (if agreement xs ys = 0 then xs.length else agreement xs ys)

theorem length_texts (hunk : Hunk) : (texts hunk).length = hunk.length :=
  length_map _

theorem agreement_comm : agreement xs ys = agreement ys xs :=
  Match.sharedFront_comm _ _

theorem agreement_le : agreement xs ys ≤ xs.length := by
  have hle := Match.sharedFront_le (texts xs) (texts ys)
  rwa [length_texts] at hle

theorem texts_take_agreement :
    texts (xs.take (agreement xs ys)) = texts (ys.take (agreement xs ys)) := by
  simp only [texts, map_take]
  exact Match.take_sharedFront _ _

/-- After the agreement the texts differ. -/
theorem text_ne_of_agreement_lt (hxs : agreement xs ys < xs.length)
    (hys : agreement xs ys < ys.length) :
    (texts xs)[agreement xs ys]? ≠ (texts ys)[agreement xs ys]? := by
  apply Match.getElem?_sharedFront_ne
  · rwa [length_texts]
  · rwa [length_texts]

theorem lastAgreeing_fst :
    (lastAgreeing xs ys).map Prod.fst = (xs.take (agreement xs ys)).getLast? := by
  induction xs generalizing ys with
  | nil => cases ys <;> rfl
  | cons x xs ih =>
    cases ys with
    | nil => rfl
    | cons y ys =>
      by_cases htext : x.text = y.text
      · have hnext : agreement (x :: xs) (y :: ys) = agreement xs ys + 1 := if_pos htext
        rw [lastAgreeing, if_pos htext, hnext, take_succ_cons, getLast?_cons, ← ih]
        cases lastAgreeing xs ys <;> rfl
      · have hnone : agreement (x :: xs) (y :: ys) = 0 := if_neg htext
        rw [lastAgreeing, if_neg htext, hnone]
        rfl

theorem lastAgreeing_swap : lastAgreeing ys xs = (lastAgreeing xs ys).map Prod.swap := by
  induction xs generalizing ys with
  | nil => cases ys <;> rfl
  | cons x xs ih =>
    cases ys with
    | nil => rfl
    | cons y ys =>
      by_cases htext : x.text = y.text
      · rw [lastAgreeing, lastAgreeing, if_pos htext, if_pos htext.symm, ih]
        cases lastAgreeing xs ys <;> rfl
      · rw [lastAgreeing, lastAgreeing, if_neg htext, if_neg (Ne.symm htext)]
        rfl

theorem kept_isPrefix : kept xs ys <+: xs :=
  take_prefix _ _

theorem kept_of_disagree {xs ys : List HunkLine} (h : agreement xs ys = 0) : kept xs ys = xs := by
  rw [kept, if_pos h, take_length]

theorem kept_of_agree {xs ys : List HunkLine} (h : agreement xs ys ≠ 0) :
    kept xs ys = xs.take (agreement xs ys) := by
  rw [kept, if_neg h]

theorem length_kept_of_agree {xs ys : List HunkLine} (h : agreement xs ys ≠ 0) :
    (kept xs ys).length = agreement xs ys := by
  rw [kept_of_agree h, length_take, Nat.min_eq_left (agreement_le xs ys)]

/-- Nothing is cut off on either side, or as many lines are kept on both sides as have the same
texts. -/
theorem kept_cases : kept xs ys = xs ∧ kept ys xs = ys ∨
    ∃ n, 0 < n ∧ n ≤ xs.length ∧ n ≤ ys.length ∧ kept xs ys = xs.take n ∧ kept ys xs = ys.take n ∧
      texts (xs.take n) = texts (ys.take n) ∧
      (n < xs.length → n < ys.length → (texts xs)[n]? ≠ (texts ys)[n]?) := by
  have hcomm := agreement_comm ys xs
  have hle := agreement_le ys xs
  by_cases h : agreement xs ys = 0
  · exact .inl ⟨kept_of_disagree h, kept_of_disagree (hcomm.trans h)⟩
  · have hkept := kept_of_agree (hcomm ▸ h : agreement ys xs ≠ 0)
    rw [hcomm] at hle hkept
    exact .inr ⟨_, Nat.pos_of_ne_zero h, agreement_le xs ys, hle, kept_of_agree h, hkept,
      texts_take_agreement xs ys, text_ne_of_agreement_lt xs ys⟩

theorem texts_kept :
    texts (kept xs ys) = texts (kept ys xs) ∨ kept xs ys = xs ∧ kept ys xs = ys := by
  rcases kept_cases xs ys with h | ⟨n, -, -, -, h, h', htexts, -⟩
  · exact .inr h
  · exact .inl (by rw [h, h', htexts])

/-- Of what is kept all is kept again. -/
theorem kept_kept : kept (kept xs ys) (kept ys xs) = kept xs ys := by
  rcases texts_kept xs ys with h | ⟨h, h'⟩
  · have hall : agreement (kept xs ys) (kept ys xs) = (kept xs ys).length := by
      rw [agreement, ← h, Match.sharedFront_self, length_texts]
    rw [kept, hall, ite_id, take_length]
  · rw [h, h', h]

/-- The outermost line that is kept; `outer` is the outermost of all lines, which go on with `inner`
where there is no context. -/
theorem getLast?_kept_or {xs ys : List HunkLine} {inner : Option HunkLine} {outer : HunkLine}
    (h : xs.getLast?.or inner = some outer) :
    (kept xs ys).getLast?.or inner =
      some (((lastAgreeing xs ys).map Prod.fst).getD outer) := by
  rw [lastAgreeing_fst]
  by_cases hagree : agreement xs ys = 0
  · rw [kept_of_disagree hagree, hagree, take_zero, h]
    rfl
  · have hlength := length_kept_of_agree hagree
    rw [kept_of_agree hagree] at hlength ⊢
    cases hlast : (xs.take (agreement xs ys)).getLast? with
    | none =>
      rw [getLast?_eq_none_iff.1 hlast] at hlength
      exact absurd hlength.symm hagree
    | some last => rfl

/-! ### A hunk by its parts -/

/-- A hunk that has a changed line. The contexts are given with the innermost line first. -/
structure Parts where
  lead : List HunkLine
  core : Hunk
  trail : List HunkLine
  lead_context : ∀ line ∈ lead, line.isContext = true
  trail_context : ∀ line ∈ trail, line.isContext = true
  starts_changed : ∃ line rest, core = line :: rest ∧ line.isContext = false
  ends_changed : ∃ front line, core = front ++ [line] ∧ line.isContext = false

/-- The first line that is not context. -/
theorem exists_first_changed {hunk : Hunk} (h : hunk.all isContext = false) :
    ∃ before line after, hunk = before ++ line :: after ∧ line.isContext = false ∧
      ∀ x ∈ before, x.isContext = true := by
  have hsome : (hunk.find? fun line => !line.isContext).isSome = true := by
    rw [find?_isSome]
    simpa using h
  obtain ⟨line, hline⟩ := Option.isSome_iff_exists.1 hsome
  obtain ⟨hchanged, before, after, heq, hbefore⟩ := find?_eq_some_iff_append.1 hline
  exact ⟨before, line, after, heq, by simpa using hchanged, by simpa using hbefore⟩

namespace Parts

def hunk (p : Parts) : Hunk :=
  p.lead.reverse ++ (p.core ++ p.trail)

theorem exists_hunk_eq {hunk : Hunk} (h : hunk.all isContext = false) :
    ∃ p : Parts, p.hunk = hunk := by
  obtain ⟨before, line, after, rfl, hline, hbefore⟩ := exists_first_changed h
  have hrest : (line :: after).reverse.all isContext = false := by
    simp [hline]
  -- from the end, the rest of the hunk has a first changed line too
  obtain ⟨trail, last, front, hsplit, hlast, htrail⟩ := exists_first_changed hrest
  have hcore : line :: after = (front.reverse ++ [last]) ++ trail.reverse := by
    have hreverse := congrArg List.reverse hsplit
    simpa using hreverse
  have hstarts : ∃ first rest, front.reverse ++ [last] = first :: rest ∧
      first.isContext = false := by
    cases hfront : front.reverse with
    | nil => exact ⟨last, [], rfl, hlast⟩
    | cons first rest =>
      rw [hfront] at hcore
      have hfirst : line = first := by simpa using congrArg List.head? hcore
      exact ⟨first, rest ++ [last], rfl, hfirst ▸ hline⟩
  refine ⟨⟨before.reverse, front.reverse ++ [last], trail.reverse, ?_, ?_, hstarts,
    front.reverse, last, rfl, hlast⟩, ?_⟩
  · simpa using hbefore
  · simpa using htrail
  · rw [hunk, reverse_reverse, hcore]

variable (p q : Parts)

theorem all_isContext_hunk : p.hunk.all isContext = false := by
  obtain ⟨line, rest, hcore, hline⟩ := p.starts_changed
  simp [hunk, hcore, hline]

@[simp] theorem leadingContext_hunk : leadingContext p.hunk = p.lead := by
  obtain ⟨line, rest, hcore, hline⟩ := p.starts_changed
  have hlead : ∀ x ∈ p.lead.reverse, x.isContext = true := by
    simpa using p.lead_context
  rw [leadingContext, hunk, takeWhile_append_of_pos hlead, hcore]
  simp [hline]

@[simp] theorem trailingContext_hunk : trailingContext p.hunk = p.trail := by
  obtain ⟨front, line, hcore, hline⟩ := p.ends_changed
  have htrail : ∀ x ∈ p.trail.reverse, x.isContext = true := by
    simpa using p.trail_context
  rw [trailingContext, hunk, reverse_append, reverse_append, append_assoc,
    takeWhile_append_of_pos htrail, hcore]
  simp [hline]

def trim : Parts where
  lead := kept p.lead q.lead
  core := p.core
  trail := kept p.trail q.trail
  lead_context := fun line h => p.lead_context line ((kept_isPrefix _ _).subset h)
  trail_context := fun line h => p.trail_context line ((kept_isPrefix _ _).subset h)
  starts_changed := p.starts_changed
  ends_changed := p.ends_changed

/-- Trimming twice is trimming once. -/
theorem trim_trim : (p.trim q).trim (q.trim p) = p.trim q := by
  simp only [trim, kept_kept]

/-- The whole hunk around the trimmed one. -/
theorem exists_hunk_eq_append : ∃ before after,
    p.lead = kept p.lead q.lead ++ before ∧ p.trail = kept p.trail q.trail ++ after ∧
      p.hunk = before.reverse ++ ((p.trim q).hunk ++ after) := by
  obtain ⟨before, hbefore⟩ := kept_isPrefix p.lead q.lead
  obtain ⟨after, hafter⟩ := kept_isPrefix p.trail q.trail
  refine ⟨before, after, hbefore.symm, hafter.symm, ?_⟩
  calc p.hunk = (kept p.lead q.lead ++ before).reverse ++
        (p.core ++ (kept p.trail q.trail ++ after)) := by rw [hbefore, hafter, hunk]
    _ = before.reverse ++ ((p.trim q).hunk ++ after) := by simp [hunk, trim]

/-- Only context is trimmed. -/
theorem isTrimmed_trim : IsTrimmed (p.trim q).hunk p.hunk := by
  obtain ⟨before, after, hlead, htrail, hwhole⟩ := p.exists_hunk_eq_append q
  refine ⟨before.reverse, after, hwhole, fun line h => ?_, fun line h => ?_⟩
  · apply p.lead_context
    rw [hlead]
    exact mem_append_right _ (mem_reverse.1 h)
  · apply p.trail_context
    rw [htrail]
    exact mem_append_right _ h

theorem trim_isPrefix (h : kept p.lead q.lead = p.lead) : (p.trim q).hunk <+: p.hunk := by
  obtain ⟨before, after, hlead, -, hwhole⟩ := p.exists_hunk_eq_append q
  rw [h, self_eq_append_right] at hlead
  exact ⟨after, by rw [hwhole, hlead, reverse_nil, nil_append]⟩

theorem trim_isSuffix (h : kept p.trail q.trail = p.trail) : (p.trim q).hunk <:+ p.hunk := by
  obtain ⟨before, after, -, htrail, hwhole⟩ := p.exists_hunk_eq_append q
  rw [h, self_eq_append_right] at htrail
  exact ⟨before.reverse, by rw [hwhole, htrail, append_nil]⟩

theorem ascends_trim (h : Ascends p.hunk) : Ascends (p.trim q).hunk := by
  obtain ⟨before, after, -, -, hwhole⟩ := p.exists_hunk_eq_append q
  rw [Ascends, hwhole, pairwise_append, pairwise_append] at h
  exact h.2.1.1

theorem head?_trim (h : p.hunk.head? = some head) :
    (p.trim q).hunk.head? = some (((lastAgreeing p.lead q.lead).map Prod.fst).getD head) := by
  rw [hunk, head?_append, head?_reverse, head?_append] at h ⊢
  obtain ⟨line, rest, hcore, -⟩ := p.starts_changed
  simp only [trim, hcore, head?_cons, Option.some_or] at h ⊢
  exact getLast?_kept_or h

theorem core_append_ne_nil (lines : List HunkLine) : p.core ++ lines ≠ [] := by
  obtain ⟨line, rest, hcore, -⟩ := p.starts_changed
  simp [hcore]

theorem getLast?_trim (h : p.hunk.getLast? = some last) :
    (p.trim q).hunk.getLast? = some (((lastAgreeing p.trail q.trail).map Prod.fst).getD last) := by
  rw [hunk, getLast?_append_of_ne_nil _ (core_append_ne_nil _ _), getLast?_append] at h ⊢
  exact getLast?_kept_or h

end Parts

/-! ### Trimming -/

/-- The lines from one to another are those that lie between them. -/
theorem between_middle {before middle after : Hunk} {first : HunkLine}
    (h : Ascends (before ++ (middle ++ after))) (hfirst : middle.head? = some first)
    (hlast : middle.getLast? = some last) :
    between first.index last.index (before ++ (middle ++ after)) = middle := by
  obtain ⟨-, hrest, hbefore⟩ := pairwise_append.1 h
  obtain ⟨hmiddle, -, hafter⟩ := pairwise_append.1 hrest
  have hmem : first ∈ middle := mem_of_head? hfirst
  have hmem' : last ∈ middle := mem_of_getLast? hlast
  have hfirst_le : ∀ line ∈ middle, first.index ≤ line.index := by
    intro line hline
    cases middle with
    | nil => cases hline
    | cons x rest =>
      cases hfirst
      rcases mem_cons.1 hline with rfl | hline
      · exact Int.le_refl _
      · exact Int.le_of_lt (rel_of_pairwise_cons hmiddle hline)
  have hle_last : ∀ line ∈ middle, line.index ≤ last.index := by
    intro line hline
    obtain ⟨front, rfl⟩ := getLast?_eq_some_iff.1 hlast
    rcases mem_append.1 hline with hline | hline
    · exact Int.le_of_lt ((pairwise_append.1 hmiddle).2.2 line hline last (by simp))
    · exact Int.le_of_eq (congrArg HunkLine.index (mem_singleton.1 hline))
  have hout : ∀ line ∈ before, line.index < first.index := fun line hline =>
    hbefore line hline first (mem_append_left _ hmem)
  have hout' : ∀ line ∈ after, last.index < line.index := fun line hline =>
    hafter last hmem' line hline
  rw [between, filter_append, filter_append, filter_eq_nil_iff.2,
    filter_eq_self.2, filter_eq_nil_iff.2, nil_append, append_nil]
  · intro line hline
    have := hout' line hline
    simp only [Bool.and_eq_true, decide_eq_true_eq]
    omega
  · intro line hline
    simp [hfirst_le line hline, hle_last line hline]
  · intro line hline
    have := hout line hline
    simp only [Bool.and_eq_true, decide_eq_true_eq]
    omega

theorem alignEdges_cons {tail tail' : Hunk} {head' : HunkLine} (ha : a = head :: tail)
    (hb : b = head' :: tail') (h : (a.all isContext || b.all isContext) = false) :
    alignEdges a b =
      (between ((lastAgreeing (leadingContext a) (leadingContext b)).getD (head, head')).1.index
        ((lastAgreeing (trailingContext a) (trailingContext b)).getD
          (a.getLastD head, b.getLastD head')).1.index a,
      between ((lastAgreeing (leadingContext a) (leadingContext b)).getD (head, head')).2.index
        ((lastAgreeing (trailingContext a) (trailingContext b)).getD
          (a.getLastD head, b.getLastD head')).2.index b) := by
  subst ha hb
  unfold alignEdges
  rw [h]
  rfl

theorem alignEdges_of_context (h : (a.all isContext || b.all isContext) = true) :
    alignEdges a b = (a, b) := by
  cases a <;> cases b <;> simp_all [alignEdges]

/-- Both sides are treated alike. -/
theorem alignEdges_swap (a b : Hunk) : alignEdges b a = (alignEdges a b).swap := by
  cases hall : a.all isContext || b.all isContext with
  | true =>
    rw [alignEdges_of_context hall, alignEdges_of_context (by rwa [Bool.or_comm])]
    rfl
  | false =>
    cases a with
    | nil => cases hall
    | cons head tail =>
      cases b with
      | nil => simp at hall
      | cons head' tail' =>
        rw [alignEdges_cons rfl rfl hall, alignEdges_cons rfl rfl (by rwa [Bool.or_comm]),
          lastAgreeing_swap (leadingContext (head :: tail)),
          lastAgreeing_swap (trailingContext (head :: tail))]
        cases lastAgreeing (leadingContext (head :: tail)) (leadingContext (head' :: tail')) <;>
          cases lastAgreeing (trailingContext (head :: tail)) (trailingContext (head' :: tail')) <;>
            rfl

namespace Parts

variable {p q : Parts}

theorem exists_hunk_eq_cons (p : Parts) : ∃ head tail, p.hunk = head :: tail := by
  apply exists_cons_of_ne_nil
  exact append_ne_nil_of_right_ne_nil _ (core_append_ne_nil _ _)

/-- Comparing indices finds the lines that the parts keep. -/
theorem alignEdges_hunk_fst (h : Ascends p.hunk) :
    (alignEdges p.hunk q.hunk).1 = (p.trim q).hunk := by
  obtain ⟨head, tail, hhunk⟩ := p.exists_hunk_eq_cons
  obtain ⟨head', tail', hhunk'⟩ := q.exists_hunk_eq_cons
  have hnot : (p.hunk.all isContext || q.hunk.all isContext) = false := by
    rw [all_isContext_hunk, all_isContext_hunk]
    rfl
  have hend : p.hunk.getLast? = some (p.hunk.getLastD head) := by
    rw [hhunk, getLast?_cons, getLastD_cons, getLastD_eq_getLast?]
  have hfirst := p.head?_trim q (congrArg List.head? hhunk)
  have hlast := p.getLast?_trim q hend
  obtain ⟨before, after, -, -, hwhole⟩ := p.exists_hunk_eq_append q
  rw [alignEdges_cons hhunk hhunk' hnot]
  simp only [leadingContext_hunk, trailingContext_hunk]
  rw [← Option.getD_map Prod.fst, ← Option.getD_map Prod.fst]
  have hmiddle := between_middle (hwhole ▸ h) hfirst hlast
  rwa [← hwhole] at hmiddle

/-- Aligning edges trims both hunks. -/
theorem alignEdges_hunk (hp : Ascends p.hunk) (hq : Ascends q.hunk) :
    alignEdges p.hunk q.hunk = ((p.trim q).hunk, (q.trim p).hunk) := by
  have hsnd := alignEdges_hunk_fst (q := p) hq
  rw [alignEdges_swap p.hunk q.hunk] at hsnd
  exact Prod.ext (alignEdges_hunk_fst hp) hsnd

end Parts

/-- Either a side has no changed line and nothing is trimmed, or the parts are. -/
theorem alignEdges_cases (ha : Ascends a) (hb : Ascends b) :
    (a.all isContext || b.all isContext) = true ∧ alignEdges a b = (a, b) ∨
      ∃ p q : Parts, a = p.hunk ∧ b = q.hunk ∧
        alignEdges a b = ((p.trim q).hunk, (q.trim p).hunk) := by
  cases hall : a.all isContext || b.all isContext with
  | true => exact .inl ⟨rfl, alignEdges_of_context hall⟩
  | false =>
    obtain ⟨hleft, hright⟩ := Bool.or_eq_false_iff.1 hall
    obtain ⟨p, rfl⟩ := Parts.exists_hunk_eq hleft
    obtain ⟨q, rfl⟩ := Parts.exists_hunk_eq hright
    exact .inr ⟨p, q, rfl, rfl, Parts.alignEdges_hunk ha hb⟩

theorem isTrimmed_alignEdges (ha : Ascends a) (hb : Ascends b) :
    IsTrimmed (alignEdges a b).1 a ∧ IsTrimmed (alignEdges a b).2 b := by
  rcases alignEdges_cases ha hb with ⟨-, h⟩ | ⟨p, q, rfl, rfl, h⟩
  · rw [h]
    exact ⟨.refl a, .refl b⟩
  · rw [h]
    exact ⟨p.isTrimmed_trim q, q.isTrimmed_trim p⟩

/-- Trimming again changes nothing. -/
theorem alignEdges_again (ha : Ascends a) (hb : Ascends b) :
    alignEdges (alignEdges a b).1 (alignEdges a b).2 = alignEdges a b := by
  rcases alignEdges_cases ha hb with ⟨-, h⟩ | ⟨p, q, rfl, rfl, h⟩
  · rw [h, h]
  · rw [h, Parts.alignEdges_hunk (p.ascends_trim q ha) (q.ascends_trim p hb), p.trim_trim q,
      q.trim_trim p]

/-- What is left of two hunks once their edges are aligned. At each edge the context has the same
texts on both sides, or all of it is left; where both hunks have a changed line, just the lines next
to the changes that agree are left, if there are any. -/
structure EdgesAligned (a b left right : Hunk) : Prop where
  trims_left : IsTrimmed left a
  trims_right : IsTrimmed right b
  lead : texts (leadingContext left) = texts (leadingContext right) ∨ left <+: a ∧ right <+: b
  trail : texts (trailingContext left) = texts (trailingContext right) ∨ left <:+ a ∧ right <:+ b
  lead_kept : a.all isContext = false → b.all isContext = false →
    leadingContext left = kept (leadingContext a) (leadingContext b) ∧
      leadingContext right = kept (leadingContext b) (leadingContext a)
  trail_kept : a.all isContext = false → b.all isContext = false →
    trailingContext left = kept (trailingContext a) (trailingContext b) ∧
      trailingContext right = kept (trailingContext b) (trailingContext a)

theorem Parts.edgesAligned_trim (p q : Parts) :
    EdgesAligned p.hunk q.hunk (p.trim q).hunk (q.trim p).hunk where
  trims_left := p.isTrimmed_trim q
  trims_right := q.isTrimmed_trim p
  lead := by
    simp only [leadingContext_hunk]
    exact (texts_kept p.lead q.lead).imp_right fun h =>
      ⟨p.trim_isPrefix q h.1, q.trim_isPrefix p h.2⟩
  trail := by
    simp only [trailingContext_hunk]
    exact (texts_kept p.trail q.trail).imp_right fun h =>
      ⟨p.trim_isSuffix q h.1, q.trim_isSuffix p h.2⟩
  lead_kept := fun _ _ => by
    simp only [leadingContext_hunk, trim, and_self]
  trail_kept := fun _ _ => by
    simp only [trailingContext_hunk, trim, and_self]

theorem edgesAligned_of_context
    (h : (a.all isContext || b.all isContext) = true) : EdgesAligned a b a b where
  trims_left := .refl a
  trims_right := .refl b
  lead := .inr ⟨prefix_rfl, prefix_rfl⟩
  trail := .inr ⟨suffix_rfl, suffix_rfl⟩
  lead_kept := fun ha hb => by simp [ha, hb] at h
  trail_kept := fun ha hb => by simp [ha, hb] at h

/-- Aligning the edges of two hunks trims context only. It does not matter which of them comes
first, and doing it again changes nothing. -/
theorem edgesAligned_alignEdges {a b : Hunk} (ha : Ascends a) (hb : Ascends b) :
    EdgesAligned a b (alignEdges a b).1 (alignEdges a b).2 ∧
      alignEdges b a = (alignEdges a b).swap ∧
      alignEdges (alignEdges a b).1 (alignEdges a b).2 = alignEdges a b := by
  refine ⟨?_, alignEdges_swap a b, alignEdges_again ha hb⟩
  rcases alignEdges_cases ha hb with ⟨hall, h⟩ | ⟨p, q, rfl, rfl, h⟩
  · rw [h]
    exact edgesAligned_of_context hall
  · rw [h]
    exact p.edgesAligned_trim q

/-- A hunk with more context before its changed line than the other one has; that one has more
after it. -/
def longLead : Hunk :=
  [⟨3, "Push x", .context⟩, ⟨4, "Jump a", .context⟩, ⟨5, "Pop", .deletion⟩,
    ⟨6, "Return", .context⟩]

def longTrail : Hunk :=
  [⟨7, "Jump a", .context⟩, ⟨8, "Add", .addition⟩, ⟨9, "Return", .context⟩,
    ⟨10, "Stop", .context⟩]

theorem edgesAligned_longLead :
    Ascends longLead ∧ Ascends longTrail ∧
      alignEdges longLead longTrail = (longLead.tail, longTrail.dropLast) ∧
      EdgesAligned longLead longTrail (alignEdges longLead longTrail).1
        (alignEdges longLead longTrail).2 ∧
      alignEdges longTrail longLead = (alignEdges longLead longTrail).swap ∧
      alignEdges (alignEdges longLead longTrail).1 (alignEdges longLead longTrail).2 =
        alignEdges longLead longTrail := by
  have hlead : Ascends longLead := by unfold Ascends; decide
  have htrail : Ascends longTrail := by unfold Ascends; decide
  exact ⟨hlead, htrail, by decide, edgesAligned_alignEdges hlead htrail⟩

end MovieDiff.Hunk
