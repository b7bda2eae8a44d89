import MovieDiff.Files.Rename

/-!
The notation for a renaming. Main statement: two different relative paths are written with what they
share outside the braces, and the two middles are not empty; only where nothing can be taken out so
do the whole paths stand side by side.
-/
namespace MovieDiff.Path

open List

/-- Whether two lists of parts are made of a shared start and stop and of two middles. -/
structure RenameParts.Factors (parts : RenameParts) (xs ys : List String) : Prop where
  old : parts.start ++ parts.old ++ parts.stop = xs
  new : parts.start ++ parts.new ++ parts.stop = ys
  shared : parts.start ≠ [] ∨ parts.stop ≠ []
  old_ne : parts.old ≠ []
  new_ne : parts.new ≠ []

/-- The shared parts and between them the middles in braces, all divided by slashes. -/
def RenameParts.written (parts : RenameParts) : String :=
  "/".intercalate (parts.start ++ ("\x7b" ++ "/".intercalate parts.old ++ " => " ++
    "/".intercalate parts.new ++ "\x7d") :: parts.stop)

theorem commonStart_spec (xs ys : List String) :
    (commonStart xs ys).1 ++ (commonStart xs ys).2.1 = xs ∧
      (commonStart xs ys).1 ++ (commonStart xs ys).2.2 = ys := by
  fun_induction commonStart xs ys with
  | case1 xs x ys common restX restY hcommon ih =>
    rw [hcommon] at ih
    exact ⟨congrArg (x :: ·) ih.1, congrArg (x :: ·) ih.2⟩
  | case2 | case3 => exact ⟨rfl, rfl⟩

theorem commonStart_cons_self (x : String) (xs ys : List String) :
    ∃ common restX restY, commonStart (x :: xs) (x :: ys) = (x :: common, restX, restY) := by
  rw [commonStart, if_pos rfl]
  exact ⟨_, _, _, rfl⟩

/-- What a shared start leaves of two different lists. -/
structure StartsShared (xs ys common restX restY : List String) : Prop where
  left : common ++ restX = xs
  right : common ++ restY = ys
  rests : common ≠ [] → restX ≠ [] ∧ restY ≠ []
  none : common = [] → ∀ z more more', xs = z :: more → ys = z :: more' → more = [] ∨ more' = []

theorem startsShared_sharedStart {xs ys : List String} (h : xs ≠ ys) :
    StartsShared xs ys (sharedStart xs ys).1 (sharedStart xs ys).2.1 (sharedStart xs ys).2.2 := by
  obtain ⟨hx, hy⟩ := commonStart_spec xs ys
  have hcons := commonStart_cons_self
  unfold sharedStart
  generalize hcommon : commonStart xs ys = cut at hx hy
  obtain ⟨common, restX, restY⟩ := cut
  dsimp only at hx hy ⊢
  rcases eq_nil_or_concat common with rfl | ⟨front, part, rfl⟩
  · refine ⟨hx, hy, fun hne => absurd rfl hne, fun _ z more more' hxs hys => ?_⟩
    obtain ⟨_, _, _, hstart⟩ := hcons z more more'
    rw [hxs, hys, hstart] at hcommon
    cases hcommon
  · rw [concat_eq_append] at hx hy ⊢
    rw [getLast?_concat]
    dsimp only
    split
    next hempty =>
      refine ⟨hx, hy, fun _ => ?_, fun hnil => absurd hnil (by simp)⟩
      -- Two empty rests would make the lists the same.
      cases restX with
      | nil =>
        have hnil : restY = [] := by simpa using hempty.symm
        exact absurd (hx.symm.trans (hnil ▸ hy)) h
      | cons x restX => exact ⟨cons_ne_nil x restX, by simpa using hempty⟩
    next hempty =>
      rw [append_assoc, singleton_append] at hx hy
      rw [dropLast_concat]
      refine ⟨hx, hy, fun _ => ⟨by simp, by simp⟩, ?_⟩
      rintro rfl z more more' rfl rfl
      obtain ⟨-, rfl⟩ := List.cons.inj hx
      obtain ⟨-, rfl⟩ := List.cons.inj hy
      cases restX with
      | nil => exact .inl rfl
      | cons => exact .inr (by simpa using hempty)

theorem joinParts_cons (part : String) (parts : List String) :
    joinParts (part :: parts) = part ++ (if parts.isEmpty then "" else "/") ++ joinParts parts := by
  apply String.toList_inj.1
  cases parts with
  | nil => simp [joinParts]
  | cons next parts => simp [joinParts, String.toList_intercalate]

theorem joinParts_append (front : List String) (middle : String) (back : List String) :
    joinParts (front ++ middle :: back) = joinParts front ++
      (if front.isEmpty then "" else "/") ++ joinParts (middle :: back) := by
  induction front with
  | nil => simp [joinParts]
  | cons part front ih =>
    rw [cons_append, joinParts_cons, joinParts_cons, ih]
    cases front <;> simp [String.append_assoc, joinParts]

theorem text_eq_written (parts : RenameParts) : parts.text = parts.written := by
  have hjoined := joinParts_append parts.start ("\x7b" ++ joinParts parts.old ++ " => " ++
    joinParts parts.new ++ "\x7d") parts.stop
  rw [joinParts_cons] at hjoined
  refine Eq.trans ?_ hjoined.symm
  simp only [RenameParts.text, String.append_assoc]

section Parts

variable {p q : Path} (h : p.parts ≠ q.parts)
include h

/-- What is taken out of two different paths in front, and then out of the rests at the end. -/
theorem startsShared_renameParts : ∃ restP restQ,
    StartsShared p.parts q.parts (renameParts p q).start restP restQ ∧
      StartsShared restP.reverse restQ.reverse (renameParts p q).stop.reverse
        (renameParts p q).old.reverse (renameParts p q).new.reverse := by
  have hstart := startsShared_sharedStart h
  unfold renameParts
  generalize sharedStart p.parts q.parts = cut at hstart
  obtain ⟨start, restP, restQ⟩ := cut
  have hrests : restP.reverse ≠ restQ.reverse := fun heq =>
    h (hstart.left.symm.trans (reverse_inj.1 heq ▸ hstart.right))
  refine ⟨restP, restQ, hstart, ?_⟩
  simp only [reverse_reverse]
  exact startsShared_sharedStart hrests

theorem factors_renameParts
    (hshared : (renameParts p q).start ≠ [] ∨ (renameParts p q).stop ≠ []) :
    (renameParts p q).Factors p.parts q.parts := by
  obtain ⟨restP, restQ, hstart, hstop⟩ := startsShared_renameParts h
  have hp : (renameParts p q).old ++ (renameParts p q).stop = restP := by
    rw [← reverse_inj, reverse_append, hstop.left]
  have hq : (renameParts p q).new ++ (renameParts p q).stop = restQ := by
    rw [← reverse_inj, reverse_append, hstop.right]
  have hmiddles : (renameParts p q).old ≠ [] ∧ (renameParts p q).new ≠ [] := by
    by_cases hnone : (renameParts p q).stop = []
    · rw [hnone, append_nil] at hp hq
      rw [hp, hq]
      exact hstart.rests (hshared.resolve_right fun hne => hne hnone)
    · simpa using hstop.rests (by simpa using hnone)
  refine ⟨?_, ?_, hshared, hmiddles.1, hmiddles.2⟩
  · rw [append_assoc, hp, hstart.left]
  · rw [append_assoc, hq, hstart.right]

/-- Without a shared part there are no braces. -/
theorem not_factors_of_nil (hnone : (renameParts p q).start = [])
    (hnone' : (renameParts p q).stop = []) :
    ¬ ∃ parts : RenameParts, parts.Factors p.parts q.parts := by
  rintro ⟨⟨start, old, new, stop⟩, hold, hnew, hshared, holdNe, hnewNe⟩
  obtain ⟨restP, restQ, hstart, hstop⟩ := startsShared_renameParts h
  have hp := hstart.left
  have hq := hstart.right
  rw [hnone, nil_append] at hp hq
  subst hp hq
  cases start with
  | cons part start =>
    have hone := hstart.none hnone part _ _ hold.symm hnew.symm
    simp [holdNe, hnewNe] at hone
  | nil =>
    -- Then something is shared at the end, which the second cut would have found.
    obtain ⟨stop, part, rfl⟩ := eq_nil_or_concat stop |>.resolve_left (by simpa using hshared)
    have hone := hstop.none (by rw [hnone']; rfl) part (stop.reverse ++ old.reverse)
      (stop.reverse ++ new.reverse) (by simp [← hold]) (by simp [← hnew])
    simp [holdNe, hnewNe] at hone

end Parts

/-- A renaming is written with what both paths share outside the braces; where nothing can be shared
with something left of both, the paths are written whole. -/
theorem renameText_isFaithful (p q : Path) (hp : p.root = .none) (hq : q.root = .none)
    (h : p ≠ q) :
    (renameText p (some q) = p.text ++ " => " ++ q.text ∧
      ¬ ∃ parts : RenameParts, parts.Factors p.parts q.parts) ∨
    ∃ parts : RenameParts, parts.Factors p.parts q.parts ∧
      renameText p (some q) = parts.written := by
  have hparts : p.parts ≠ q.parts := by
    obtain ⟨root, names⟩ := p
    obtain ⟨root', names'⟩ := q
    cases hp
    cases hq
    exact fun heq => h (congrArg (Path.mk .none) heq)
  simp only [renameText, if_neg h]
  split
  next hnone =>
    rw [Bool.and_eq_true, List.isEmpty_iff, List.isEmpty_iff] at hnone
    exact .inl ⟨rfl, not_factors_of_nil hparts hnone.1 hnone.2⟩
  next hsome =>
    rw [Bool.and_eq_true, List.isEmpty_iff, List.isEmpty_iff, Decidable.not_and_iff_or_not] at hsome
    exact .inr ⟨_, factors_renameParts hparts hsome, text_eq_written _⟩

/-- A script that is moved into a directory of its own name. -/
theorem renameText_nested : renameText ⟨.none, ["s", "x"]⟩ (some ⟨.none, ["s", "x", "x"]⟩) =
      "s/\x7bx => x/x\x7d" ∧
    ∃ parts : RenameParts, parts.Factors ["s", "x"] ["s", "x", "x"] ∧
      renameText ⟨.none, ["s", "x"]⟩ (some ⟨.none, ["s", "x", "x"]⟩) = parts.written := by
  refine ⟨by decide +kernel, ?_⟩
  rcases renameText_isFaithful ⟨.none, ["s", "x"]⟩ ⟨.none, ["s", "x", "x"]⟩ rfl rfl (by decide)
    with ⟨hwhole, -⟩ | hparts
  · exact absurd hwhole (by decide +kernel)
  · exact hparts

end MovieDiff.Path
