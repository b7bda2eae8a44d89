import MovieDiff.Proofs.Scripts.Outcome

/-!
Whether a script is paired with the one of its own path. Main statement: a script that is alike
enough to the one of its path is paired with it exactly when no other script is, and another one
can only be a script of the same directory that comes before it and could not keep its own path.
-/
namespace MovieDiff.Scripts

open List
open MovieDiff.Path (ofString sort)
open TreeDiff (SearchOrder)

variable {order : SearchOrder} {leftBlocks rightBlocks : Path → FileTree} {s t s' : Search}
  {path p q : Path} {left right paths : List Path} {set : DiffSet}

/-- Whether enough blocks of a left script have a partner in a right one. A script without blocks is
alike to none. -/
def AreAlike (order : SearchOrder) (leftBlocks rightBlocks : Path → FileTree) (a b : Path) : Prop :=
  leftBlocks a ≠ [] ∧
    isAlike (Candidate.mk b (TreeDiff.inOrder order (leftBlocks a) (rightBlocks b))).found
      (leftBlocks a).length

instance (order : SearchOrder) (leftBlocks rightBlocks : Path → FileTree) (a b : Path) :
    Decidable (AreAlike order leftBlocks rightBlocks a b) :=
  inferInstanceAs (Decidable (_ ∧ _))

/-! ### One script -/

/-- The script of the same path is tried first, and the search ends there if it is alike enough. -/
theorem choice_samePath (hpath : path ∈ right)
    (halike : AreAlike order leftBlocks rightBlocks path path) :
    choice order leftBlocks rightBlocks right path =
      .ok (some ⟨path, TreeDiff.inOrder order (leftBlocks path) (rightBlocks path)⟩) := by
  have hnear : ((right.mergeSort fun p q => p.name ≤ q.name).filter fun p =>
      p.parent == path.parent).contains path := by
    simp [mem_mergeSort, hpath]
  obtain ⟨others, hothers⟩ : ∃ others, candidatePaths path right = path :: others :=
    ⟨_, if_pos hnear⟩
  unfold choice
  rw [hothers, if_neg (by simp), if_neg (by simp [halike.1]), bestCandidate,
    if_pos ⟨rfl, halike.2⟩, Option.filter_some, if_pos halike.2]

/-! ### All scripts -/

/-- Whether the scripts paired so far are alike, each to its partner, and have left their own paths
only where these were taken or not alike enough. -/
def Chosen (order : SearchOrder) (leftBlocks rightBlocks : Path → FileTree) (right : List Path)
    (pairs : List Script) : Prop :=
  ∀ a b, .both a b ∈ pairs → AreAlike order leftBlocks rightBlocks a b ∧
    (a ∈ right → AreAlike order leftBlocks rightBlocks a a → ∃ r, .both r a ∈ pairs)

/-- A right script is still without a partner or in a pair. -/
theorem Tracks.right_cases (h : Tracks order leftBlocks rightBlocks left right s) (hp : p ∈ right) :
    p ∈ s.right ∨ ∃ q, .both q p ∈ s.set.paired := by
  rcases mem_append.1 (h.right.mem_iff.2 hp) with hpaired | hright
  · obtain ⟨script, hscript, hp⟩ := mem_filterMap.1 hpaired
    obtain ⟨a, b, rfl, -⟩ := h.paired script hscript
    cases hp
    exact .inr ⟨a, hscript⟩
  · exact .inl hright

/-- A script is in one pair at most. -/
theorem Tracks.pair_unique (h : Tracks order leftBlocks rightBlocks left right s)
    (hleft : left.Nodup) (hright : right.Nodup) {a b : Path} (hpair : .both p q ∈ s.set.paired)
    (hpair' : .both a b ∈ s.set.paired) (hsame : p = a ∨ q = b) : p = a ∧ q = b := by
  obtain ⟨pairs, hpairs⟩ := exists_pairs h.paired
  have hfst := (List.nodup_append.1 (h.left.nodup_iff.2 hleft)).1
  have hsnd := (List.nodup_append.1 (h.right.nodup_iff.2 hright)).1
  simp only [hpairs, filterMap_map, Function.comp_def, Sides.left?, Sides.right?] at hfst hsnd
  have hmem : ∀ a b, .both a b ∈ s.set.paired → (a, b) ∈ pairs := by
    intro a b hab
    rw [hpairs] at hab
    simpa using hab
  have heq : (p, q) = (a, b) := by
    rcases hsame with hsame | hsame
    · exact inj_on_of_nodup_map (by simpa using hfst) (hmem p q hpair) (hmem a b hpair') hsame
    · exact inj_on_of_nodup_map (by simpa using hsnd) (hmem p q hpair) (hmem a b hpair') hsame
  exact Prod.mk.inj heq

theorem Chosen.matchScript (h : Chosen order leftBlocks rightBlocks right s.set.paired)
    (htracks : Tracks order leftBlocks rightBlocks left right s)
    (hstep : Scripts.matchScript order leftBlocks rightBlocks s path = .ok s') :
    Chosen order leftBlocks rightBlocks right s'.set.paired := by
  rcases matchScript_cases hstep with ⟨-, rfl⟩ | ⟨other, -, -, halike, hchoice, rfl⟩
  · exact h
  intro a b hab
  rw [paired_join, mem_addScript] at hab
  simp only [paired_join, mem_addScript]
  rcases hab with hab | heq
  · obtain ⟨hab, htaken⟩ := h a b hab
    refine ⟨hab, fun ha hsame => ?_⟩
    obtain ⟨r, hr⟩ := htaken ha hsame
    exact ⟨r, .inl hr⟩
  · cases heq
    refine ⟨halike, fun ha hsame => ?_⟩
    -- The script could not keep its path because that was in a pair before, unless it kept it.
    rcases htracks.right_cases ha with hfree | ⟨r, hr⟩
    · rw [choice_samePath hfree hsame] at hchoice
      cases hchoice
      exact ⟨path, .inr rfl⟩
    · exact ⟨r, .inl hr⟩

/-- What a run does to the pairs: those before it stay, and the new ones are of its scripts. -/
theorem paired_foldlM (hrun : paths.foldlM (matchScript order leftBlocks rightBlocks) s = .ok s') :
    (∀ script ∈ s.set.paired, script ∈ s'.set.paired) ∧
      ∀ a b, .both a b ∈ s'.set.paired → .both a b ∈ s.set.paired ∨ a ∈ paths := by
  induction paths generalizing s with
  | nil =>
    cases hrun
    exact ⟨fun _ => id, fun _ _ => .inl⟩
  | cons path paths ih =>
    rw [foldlM_cons] at hrun
    obtain ⟨between, hfirst, hrest⟩ := exists_of_bind_eq_ok hrun
    obtain ⟨hstay, hnew⟩ := ih hrest
    rcases matchScript_cases hfirst with ⟨-, rfl⟩ | ⟨other, -, -, -, -, rfl⟩
    · exact ⟨hstay, fun a b hab => (hnew a b hab).imp_right (mem_cons_of_mem path)⟩
    · simp only [paired_join, mem_addScript] at hstay hnew
      refine ⟨fun script hscript => hstay script (.inl hscript), fun a b hab => ?_⟩
      rcases hnew a b hab with (hab | heq) | ha
      · exact .inl hab
      · cases heq
        exact .inr mem_cons_self
      · exact .inr (mem_cons_of_mem path ha)

section Run

variable (hleft : left.Nodup)
  (hrun : (sort left).foldlM (matchScript order leftBlocks rightBlocks) ⟨left, right, {}⟩ = .ok s)
include hleft hrun

theorem chosen_of_run : Chosen order leftBlocks rightBlocks right s.set.paired := by
  have hsorted : (sort left).Perm left := mergeSort_perm _ _
  have hempty : Chosen order leftBlocks rightBlocks right [] := by simp [Chosen]
  exact ((tracks_start ..).foldlM
    (P := fun s => Chosen order leftBlocks rightBlocks right s.set.paired)
    (fun htracks h => h.matchScript htracks) hempty hleft (hsorted.nodup_iff.2 hleft)
    (fun p hp => hsorted.subset hp) hrun).2

/-- The script of a path that is alike to itself gets a partner: if it is not the one of its path,
it is one that was looked at before. -/
theorem exists_partner {before after : List Path} (hsort : sort left = before ++ p :: after)
    (hp : p ∈ right) (halike : AreAlike order leftBlocks rightBlocks p p) :
    ∃ q, .both q p ∈ s.set.paired ∧ (q = p ∨ q ∈ before) := by
  have hsorted : (sort left).Perm left := mergeSort_perm _ _
  have hnodup := hsorted.nodup_iff.2 hleft
  rw [hsort] at hsorted hnodup hrun
  rw [foldlM_append] at hrun
  obtain ⟨found, hfirst, hrest⟩ := exists_of_bind_eq_ok hrun
  have htracks : Tracks order leftBlocks rightBlocks left right found :=
    ((tracks_start ..).foldlM (P := fun _ => True) (fun _ _ _ => trivial) trivial hleft
      (List.nodup_append.1 hnodup).1 (fun q hq => hsorted.subset (mem_append_left _ hq)) hfirst).1
  rcases htracks.right_cases hp with hfree | ⟨q, hq⟩
  · rw [foldlM_cons] at hrest
    obtain ⟨between, hstep, hlast⟩ := exists_of_bind_eq_ok hrest
    rw [matchScript_eq, choice_samePath hfree halike] at hstep
    cases hstep
    refine ⟨p, (paired_foldlM hlast).1 _ ?_, .inl rfl⟩
    dsimp only [Option.elim_some]
    rw [paired_join]
    exact mem_addScript.2 (.inr rfl)
  · refine ⟨q, (paired_foldlM hrest).1 _ hq, .inr ?_⟩
    exact ((paired_foldlM hfirst).2 q p hq).resolve_left not_mem_nil

/-- Scripts that may all have their own paths get these, as far as nothing that comes before them in
their directory can do without. -/
theorem both_mem_of_alike (hright : right.Nodup) {before after : List Path}
    (hsort : sort left = before ++ p :: after) (hp : p ∈ right)
    (halike : AreAlike order leftBlocks rightBlocks p p)
    (hbefore : ∀ q ∈ before, q.parent = p.parent →
      q ∈ right ∧ AreAlike order leftBlocks rightBlocks q q) : .both p p ∈ s.set.paired := by
  -- By induction on the scripts before: one that took the path would have lost its own one.
  induction hlength : before.length using Nat.strongRecOn generalizing before p after with
  | ind length ih =>
    have htracks := tracks_of_run hleft hrun
    obtain ⟨q, hq, rfl | hmem⟩ := exists_partner hleft hrun hsort hp halike
    · exact hq
    obtain ⟨a, b, heq, hparent⟩ := htracks.paired _ hq
    cases heq
    obtain ⟨hqright, hqalike⟩ := hbefore q hmem hparent
    obtain ⟨front, between, rfl⟩ := append_of_mem hmem
    have hown : .both q q ∈ s.set.paired := by
      have hsplit : sort left = front ++ q :: (between ++ p :: after) := by simpa using hsort
      refine ih front.length ?_ hsplit hqright hqalike (fun r hr hrq => ?_) rfl
      · rw [← hlength, length_append, length_cons]
        omega
      · exact hbefore r (mem_append_left _ hr) (hrq.trans hparent)
    obtain ⟨-, rfl⟩ := htracks.pair_unique hleft hright hq hown (.inl rfl)
    exact hq

end Run

/-! ### Keeping the path -/

def ComesBefore (left : List Path) (a b : Path) : Prop :=
  ∃ before after, sort left = before ++ b :: after ∧ a ∈ before

/-- A script that is alike to the one of its path is paired with it exactly when no other script is.
Another one can only be a script of the same directory that is looked at before, is alike to it too,
and could not keep its own path. If those that are looked at before can keep their paths, so does
it. -/
theorem exists_pair_samePath (hleft : left.Nodup) (hright : right.Nodup) (hp : p ∈ left)
    (hp' : p ∈ right) (halike : AreAlike order leftBlocks rightBlocks p p) :
    ((∃ set, pair order leftBlocks rightBlocks left right = .ok set ∧ .both p p ∈ set.paired) ↔
      ∃ set, pair order leftBlocks rightBlocks left right = .ok set ∧
        ∀ q, .both q p ∈ set.paired → q = p) ∧
    (∀ set, pair order leftBlocks rightBlocks left right = .ok set →
      ∀ q, .both q p ∈ set.paired → q ≠ p →
        ComesBefore left q p ∧ q.parent = p.parent ∧ AreAlike order leftBlocks rightBlocks q p ∧
        (q ∈ right → AreAlike order leftBlocks rightBlocks q q →
          ∃ r, r ≠ q ∧ .both r q ∈ set.paired)) ∧
    ((∀ q ∈ left, leftBlocks q ≠ []) →
      (∀ q, ComesBefore left q p → q.parent = p.parent →
        q ∈ right ∧ AreAlike order leftBlocks rightBlocks q q) →
      ∃ set, pair order leftBlocks rightBlocks left right = .ok set ∧ .both p p ∈ set.paired) := by
  have hsorted : (sort left).Perm left := List.mergeSort_perm _ _
  obtain ⟨before, after, hsort⟩ := List.append_of_mem (hsorted.mem_iff.2 hp)
  refine ⟨⟨?_, ?_⟩, ?_, ?_⟩
  · rintro ⟨set, hpair, hmem⟩
    obtain ⟨found, hrun, rfl⟩ := pair_eq_ok_iff.1 hpair
    refine ⟨_, hpair, fun q hq => ?_⟩
    exact ((tracks_of_run hleft hrun).pair_unique hleft hright hq hmem (.inr rfl)).1
  · rintro ⟨set, hpair, honly⟩
    obtain ⟨found, hrun, rfl⟩ := pair_eq_ok_iff.1 hpair
    obtain ⟨q, hq, -⟩ := exists_partner hleft hrun hsort hp' halike
    exact ⟨_, hpair, honly q hq ▸ hq⟩
  · intro set hpair q hq hne
    obtain ⟨found, hrun, rfl⟩ := pair_eq_ok_iff.1 hpair
    have htracks := tracks_of_run hleft hrun
    obtain ⟨hqp, htaken⟩ := chosen_of_run hleft hrun q p hq
    obtain ⟨partner, hpartner, hwhere⟩ := exists_partner hleft hrun hsort hp' halike
    obtain ⟨rfl, -⟩ := htracks.pair_unique hleft hright hq hpartner (.inr rfl)
    obtain ⟨a, b, heq, hparent⟩ := htracks.paired _ hq
    cases heq
    refine ⟨⟨before, after, hsort, hwhere.resolve_left hne⟩, hparent, hqp, fun hqr hown => ?_⟩
    obtain ⟨r, hr⟩ := htaken hqr hown
    refine ⟨r, fun hrq => hne ?_, hr⟩
    exact (htracks.pair_unique hleft hright hq (hrq ▸ hr) (.inl rfl)).2.symm
  · intro hblocks hbefore
    obtain ⟨set, hpair⟩ := exists_pair_eq_ok_iff.2 fun first path rest set hsplit hempty => by
      exact absurd hempty (hblocks path (hsorted.subset (hsplit ▸ by simp)))
    obtain ⟨found, hrun, rfl⟩ := pair_eq_ok_iff.1 hpair
    exact ⟨_, hpair, both_mem_of_alike hleft hrun hright hsort hp' halike fun q hq =>
      hbefore q ⟨before, after, hsort, hq⟩⟩

/-- Three movies of scripts with one block each, which has the same name in all of them. The second
movie lacks the first script, the third one has another text in its place. -/
def siblingFiles : FileSystem where
  entries := [(["a"], .directory), (["a", "s"], .directory), (["a", "s", "A"], .directory),
    (["a", "s", "A", "f.pcode"], .file (Text.encode "Push 1\n")), (["a", "s", "B"], .directory),
    (["a", "s", "B", "f.pcode"], .file (Text.encode "Push 2\n")),
    (["b"], .directory), (["b", "s"], .directory), (["b", "s", "B"], .directory),
    (["b", "s", "B", "f.pcode"], .file (Text.encode "Push 2\n")),
    (["c"], .directory), (["c", "s"], .directory), (["c", "s", "A"], .directory),
    (["c", "s", "A", "f.pcode"], .file (Text.encode "Pop\n")), (["c", "s", "B"], .directory),
    (["c", "s", "B", "f.pcode"], .file (Text.encode "Push 2\n"))]

def siblingTree (movie : String) : Path → FileTree :=
  blockTree siblingFiles (ofString movie)

def siblings : List Path :=
  [ofString "s/A", ofString "s/B"]

theorem exists_pair_samePath_siblings :
    AreAlike .listed (siblingTree "/a") (siblingTree "/c") (ofString "s/A") (ofString "s/B") ∧
      AreAlike .listed (siblingTree "/a") (siblingTree "/c") (ofString "s/B") (ofString "s/B") ∧
      ∃ set, pair .listed (siblingTree "/a") (siblingTree "/c") siblings siblings = .ok set ∧
        .both (ofString "s/B") (ofString "s/B") ∈ set.paired := by
  have hnodup : siblings.Nodup := by decide +kernel
  have halike : ∀ q ∈ siblings, AreAlike .listed (siblingTree "/a") (siblingTree "/c") q q := by
    decide +kernel
  have hmem : ofString "s/B" ∈ siblings := by simp [siblings]
  refine ⟨by decide +kernel, halike _ hmem, ?_⟩
  refine (exists_pair_samePath hnodup hnodup hmem hmem (halike _ hmem)).2.2
    (fun q hq => (halike q hq).1) ?_
  rintro q ⟨before, after, hsort, hq⟩ -
  have hsiblings : q ∈ siblings := by
    have hsorted : (sort siblings).Perm siblings := List.mergeSort_perm _ _
    exact hsorted.subset (hsort ▸ List.mem_append_left _ hq)
  exact ⟨hsiblings, halike q hsiblings⟩

/-- A script takes the path of one that did not change at all. -/
theorem pair_samePath_taken :
    ofString "s/B" ∈ siblings ∧
      AreAlike .listed (siblingTree "/a") (siblingTree "/b") (ofString "s/B") (ofString "s/B") ∧
      ∃ set, pair .listed (siblingTree "/a") (siblingTree "/b") siblings [ofString "s/B"] =
          .ok set ∧
        set.paired = [.both (ofString "s/A") (ofString "s/B")] ∧
        set.onlyLeft = [.left (ofString "s/B")] := by
  refine ⟨by simp [siblings], by decide +kernel, ?_⟩
  have hsort : sort siblings = siblings := Path.sort_eq_self (by decide +kernel)
  have hrun : ((siblings.foldlM (matchScript .listed (siblingTree "/a") (siblingTree "/b"))
      ⟨siblings, [ofString "s/B"], {}⟩).toOption.map fun found =>
        (found.set.paired, found.left)) =
          some ([.both (ofString "s/A") (ofString "s/B")], [ofString "s/B"]) := by
    decide +kernel
  obtain ⟨found, hfound, heq⟩ := Option.map_eq_some_iff.1 hrun
  obtain ⟨hpaired, hleft⟩ := Prod.mk.inj heq
  refine ⟨_, pair_eq_ok_iff.2 ⟨found, ?_, rfl⟩, hpaired, ?_⟩
  · rw [hsort]
    exact eq_ok_of_toOption hfound
  · rw [hleft]
    rfl

end MovieDiff.Scripts
