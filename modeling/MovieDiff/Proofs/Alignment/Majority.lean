import MovieDiff.Proofs.Alignment.Registers
import MovieDiff.Proofs.Matching.Regions
import Mathlib.Data.List.Count

/-!
Every elected pair has won both of its votes. The votes are counted at the matched places of two
texts: a label for a label, a target for a target, and every register of one line for every register
of the other. An entry of the table has strictly more votes than any other pair that shares a name
with it, which makes the table one-to-one.
-/
namespace MovieDiff.Alignment

open List
open Pcode (splitLabel)

variable {names : List String} {ballots : List Ballot} {votes : String → String → Nat}

/-! ### Counting votes -/

def matchedPlaces (anchorKeys textKeys : List String) : List (Nat × Nat) :=
  (Match.all anchorKeys textKeys).flatMap fun m =>
    (List.range m.size).map fun k => (m.left + k, m.right + k)

/-- The votes for a pair of names at all matched places, given the votes of two lines for it.
Matched places lie within both texts, so that the empty line is never looked at. -/
def votesAt (places : List (Nat × Nat)) (votes : String → String → Nat)
    (anchor text : List String) : Nat :=
  (places.map fun place => votes (anchor.getD place.1 "") (text.getD place.2 "")).foldr (· + ·) 0

/-- One vote if two lines have these names in one role. -/
def voteOf (found proposed : Option String) (name anchorName : String) : Nat :=
  if proposed = some anchorName ∧ found = some name then 1 else 0

/-- The votes that a name of the text stands for a label of the anchor. -/
def labelVotes (anchor text : List String) (name anchorName : String) : Nat :=
  votesAt (matchedPlaces (anchor.map neutralizeLabels) (text.map neutralizeLabels))
    (fun anchorLine line =>
      voteOf (splitLabel line).2 (splitLabel anchorLine).2 name anchorName +
        voteOf (jumpTarget? line) (jumpTarget? anchorLine) name anchorName)
    anchor text

def registerVotes (anchor text : List String) (name anchorName : String) : Nat :=
  votesAt (matchedPlaces (anchor.map neutralizeRegisters) (text.map neutralizeRegisters))
    (fun anchorLine line =>
      (registersOf anchorLine).count anchorName * (registersOf line).count name)
    anchor text

/-- A table of pairs that win their votes: the names come from the two texts, and each pair has more
votes than every other pair with one of its names. -/
structure IsMajority (table : Renaming) (votes : String → String → Nat)
    (names anchorNames : List String) : Prop where
  entries : ∀ name anchorName, (name, anchorName) ∈ table ↔ table.get? name = some anchorName
  injective : ∀ name name' anchorName,
    (name, anchorName) ∈ table → (name', anchorName) ∈ table → name = name'
  named : ∀ name anchorName, (name, anchorName) ∈ table → name ∈ names ∧ anchorName ∈ anchorNames
  beats_anchors : ∀ name anchorName, (name, anchorName) ∈ table →
    ∀ other, other ≠ anchorName → votes name other < votes name anchorName
  beats_names : ∀ name anchorName, (name, anchorName) ∈ table →
    ∀ other, other ≠ name → votes other anchorName < votes name anchorName

/-! ### Favourites -/

theorem le_foldl_max (xs : List Nat) (start : Nat) :
    start ≤ xs.foldl max start ∧ ∀ x ∈ xs, x ≤ xs.foldl max start := by
  induction xs generalizing start with
  | nil => simp
  | cons x xs ih =>
    obtain ⟨hstart, hall⟩ := ih (max start x)
    rw [foldl_cons]
    refine ⟨by omega, fun y hy => ?_⟩
    rcases mem_cons.1 hy with rfl | hy
    · omega
    · exact hall y hy

/-- The favourite occurs more often than any other name. -/
theorem count_lt_of_favourite? {winner : String}
    (h : favourite? names = some winner) {other : String} (hother : other ≠ winner) :
    names.count other < names.count winner := by
  have hwinner := mem_of_favourite? h
  by_cases hmem : other ∈ names
  · unfold favourite? at h
    dsimp only at h
    split at h
    next found hfound =>
      cases h
      have hbest : ∀ name ∈ names.eraseDups, names.count name ≤
          (names.eraseDups.map fun name => names.count name).foldl max 0 :=
        fun name hname => (le_foldl_max _ 0).2 _ (mem_map_of_mem hname)
      have hwon : names.count winner =
          (names.eraseDups.map fun name => names.count name).foldl max 0 := by
        have hin : winner ∈ [winner] := mem_singleton_self winner
        rw [← hfound] at hin
        exact beq_iff_eq.1 (mem_filter.1 hin).2
      have hlost : names.count other ≠
          (names.eraseDups.map fun name => names.count name).foldl max 0 := by
        intro htie
        have hin : other ∈ [winner] := by
          rw [← hfound]
          exact mem_filter.2 ⟨mem_eraseDups.2 hmem, beq_iff_eq.2 htie⟩
        exact hother (mem_singleton.1 hin)
      have hle := hbest other (mem_eraseDups.2 hmem)
      omega
    · cases h
  · rw [count_eq_zero.2 hmem]
    exact count_pos_iff.2 hwinner

/-- Proposals for a name are its ballots. -/
theorem count_proposalsFor (ballots : List Ballot) (name anchorName : String) :
    (proposalsFor ballots name).count anchorName = ballots.count (name, anchorName) := by
  rw [proposalsFor, List.count, countP_map, countP_filter, List.count]
  apply countP_congr
  intro ballot _
  simp [Prod.ext_iff, and_comm]

theorem count_proposersOf (ballots : List Ballot) (name anchorName : String) :
    (proposersOf ballots anchorName).count name = ballots.count (name, anchorName) := by
  rw [proposersOf, List.count, countP_map, countP_filter, List.count]
  apply countP_congr
  intro ballot _
  simp [Prod.ext_iff]

/-- A pair is in the table just if it is elected. -/
theorem mem_elect_iff {name anchorName : String} :
    (name, anchorName) ∈ elect ballots ↔ elected? ballots name = some anchorName := by
  simp only [elect, mem_filterMap, Option.map_eq_some_iff, Prod.mk.injEq]
  constructor
  · rintro ⟨voter, -, winner, helected, rfl, rfl⟩
    exact helected
  · intro h
    refine ⟨name, mem_eraseDups.2 ?_, anchorName, h, rfl, rfl⟩
    exact mem_map_of_mem (mem_of_elected? h)

/-- An election gives a majority table of the ballots it counts. -/
theorem isMajority_elect {anchorNames : List String}
    (hvotes : ∀ name anchorName, ballots.count (name, anchorName) = votes name anchorName)
    (hnames : ∀ name anchorName, (elect ballots).get? name = some anchorName →
      name ∈ names ∧ anchorName ∈ anchorNames) :
    IsMajority (elect ballots) votes names anchorNames where
  entries name anchorName := by rw [mem_elect_iff, get?_elect]
  injective name name' anchorName h h' :=
    elected?_injective (mem_elect_iff.1 h) (mem_elect_iff.1 h')
  named name anchorName h := by
    apply hnames
    rw [get?_elect]
    exact mem_elect_iff.1 h
  beats_anchors name anchorName h other hother := by
    obtain ⟨hfavourite, -⟩ := elected?_eq_some_iff.1 (mem_elect_iff.1 h)
    have hlt := count_lt_of_favourite? hfavourite hother
    rwa [count_proposalsFor, count_proposalsFor, hvotes, hvotes] at hlt
  beats_names name anchorName h other hother := by
    obtain ⟨-, hfavourite⟩ := elected?_eq_some_iff.1 (mem_elect_iff.1 h)
    have hlt := count_lt_of_favourite? hfavourite hother
    rwa [count_proposersOf, count_proposersOf, hvotes, hvotes] at hlt

/-! ### Ballots of two texts -/

theorem zip_take_drop_eq_map {xs ys : List String} {i j size : Nat} (hi : i + size ≤ xs.length)
    (hj : j + size ≤ ys.length) :
    ((xs.drop i).take size).zip ((ys.drop j).take size) =
      (List.range size).map fun k => (xs.getD (i + k) "", ys.getD (j + k) "") := by
  apply ext_getElem
  · simp only [length_zip, length_take, length_drop, length_map,
      length_range]
    omega
  · intro k hk hk'
    have hsize : k < size := by simpa using hk'
    have hleft : i + k < xs.length := by omega
    have hright : j + k < ys.length := by omega
    simp [getD_eq_getElem?_getD, hleft, hright]

/-- The matched lines are those at the matched places. -/
theorem matchedLines_eq_map {anchorKeys textKeys anchor text : List String}
    (hanchor : anchorKeys.length = anchor.length) (htext : textKeys.length = text.length) :
    matchedLines anchorKeys textKeys anchor text =
      (matchedPlaces anchorKeys textKeys).map fun place =>
        (anchor.getD place.1 "", text.getD place.2 "") := by
  rw [matchedLines, matchedPlaces, map_flatMap, flatMap_def, flatMap_def]
  congr 1
  apply map_congr_left
  intro m hm
  obtain ⟨hleft, hright, -⟩ := isMatch_of_mem_all hm
  rw [zip_take_drop_eq_map (hanchor ▸ hleft) (htext ▸ hright), map_map]
  rfl

/-- The ballots of the matched lines are counted place by place. -/
theorem count_ballots {keyOf : String → String} {ballotsOf : String × String → List Ballot}
    {ballot : Ballot}
    (h : ∀ anchorLine line, (ballotsOf (anchorLine, line)).count ballot = votes anchorLine line)
    (anchor text : List String) :
    ((matchedLines (anchor.map keyOf) (text.map keyOf) anchor text).flatMap ballotsOf).count ballot =
      votesAt (matchedPlaces (anchor.map keyOf) (text.map keyOf)) votes anchor text := by
  rw [matchedLines_eq_map (length_map _) (length_map _), flatMap_map, votesAt]
  generalize matchedPlaces (anchor.map keyOf) (text.map keyOf) = places
  induction places with
  | nil => rfl
  | cons place places ih =>
    rw [flatMap_cons, count_append, ih, h, map_cons, foldr_cons]

theorem count_ballotOf (found proposed : Option String) (name anchorName : String) :
    (ballotOf proposed found).count (name, anchorName) = voteOf found proposed name anchorName := by
  unfold ballotOf voteOf
  split
  next proposal voter =>
    rw [count_singleton]
    simp [Prod.ext_iff, and_comm]
  next hnone =>
    rw [count_nil, if_neg]
    rintro ⟨rfl, rfl⟩
    exact hnone _ _ rfl rfl

/-- Every register of one line meets every register of the other. -/
theorem count_registerBallots (anchorLine line name anchorName : String) :
    (registerBallots (anchorLine, line)).count (name, anchorName) =
      (registersOf anchorLine).count anchorName * (registersOf line).count name := by
  unfold registerBallots
  dsimp only
  induction registersOf anchorLine with
  | nil => simp
  | cons register registers ih =>
    have hfirst : ((registersOf line).map fun voter => (voter, register)).count (name, anchorName) =
        (if register == anchorName then 1 else 0) * (registersOf line).count name := by
      by_cases h : register = anchorName
      · rw [if_pos (beq_iff_eq.2 h), Nat.one_mul, h]
        exact count_map_of_injective _ _ (fun _ _ heq => (Prod.mk.inj heq).1) _
      · rw [if_neg (by simpa using h), Nat.zero_mul, count_eq_zero]
        simp [h]
    rw [flatMap_cons, count_append, ih, hfirst, count_cons, Nat.add_mul,
      Nat.add_comm]

/-- The tables for labels and for registers hold names of the two texts, one-to-one, and every entry
has strictly more votes at the matched places than any other pair with one of its names. -/
theorem isMajority_renamings (anchor text : List String) :
    IsMajority (labelRenaming anchor text) (labelVotes anchor text) (text.flatMap labelsOf)
        (anchor.flatMap labelsOf) ∧
      IsMajority (registerRenaming anchor text) (registerVotes anchor text)
        (text.flatMap registersOf) (anchor.flatMap registersOf) := by
  constructor
  · refine isMajority_elect (fun name anchorName => count_ballots ?_ anchor text) ?_
    · intro anchorLine line
      rw [labelBallots, List.count_append, count_ballotOf, count_ballotOf]
    · exact fun name anchorName => mem_of_get?_labelRenaming
  · refine isMajority_elect (fun name anchorName => count_ballots ?_ anchor text) ?_
    · exact fun anchorLine line => count_registerBallots anchorLine line name anchorName
    · exact fun name anchorName => mem_of_get?_registerRenaming

end MovieDiff.Alignment
