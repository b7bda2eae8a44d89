import Mathlib.Data.List.Nodup
import MovieDiff.Pcode.BlockFiles
import MovieDiff.Proofs.Pcode.Origin

/-!
Names of blocks. A name that occurred before gets the number of its occurrence, but the name that
comes out is not remembered, so that a later function may bear it. Main statement: the names of the
blocks, and of the files that hold them, differ in lower case exactly when no name of the file is
another one with a number that this one gets.
-/
namespace MovieDiff.Pcode

open List
open Text (lowercase)

variable {name : String} {n : Nat} {c : Char} {lines : List Line}

/-! ### Lower case of file names -/

def isAscii (name : String) : Bool :=
  name.toList.all fun c => c.val < 128

theorem isAscii_iff : isAscii name ↔ ∀ c ∈ name.toList, c.val < 128 := by
  simp [isAscii]

variable {cs : List Char}

theorem lowerFrom_of_ascii (h : ∀ c ∈ cs, c.val < 128) (before : List Char) :
    Text.lowerFrom before cs = cs.map Char.toLower := by
  induction cs generalizing before with
  | nil => rfl
  | cons c rest ih =>
    have hc := h c mem_cons_self
    have hrest := ih fun d hd => h d (mem_cons_of_mem c hd)
    have hsigma : c ≠ Text.capitalSigma := by
      rintro rfl
      exact absurd hc (by decide)
    have hdotted : c ≠ Text.capitalDottedI := by
      rintro rfl
      exact absurd hc (by decide)
    simp [Text.lowerFrom, hsigma, hdotted, Text.lowerChar, hc, hrest]

theorem lowercase_of_isAscii (h : isAscii name) :
    lowercase name = String.ofList (name.toList.map Char.toLower) := by
  rw [lowercase, lowerFrom_of_ascii (isAscii_iff.1 h)]

variable {more : String}

theorem isAscii_append (h : isAscii name) (hmore : isAscii more) : isAscii (name ++ more) := by
  rw [isAscii, String.toList_append, all_append, Bool.and_eq_true]
  exact ⟨h, hmore⟩

theorem lowercase_append (h : isAscii name) (hmore : isAscii more) :
    lowercase (name ++ more) = lowercase name ++ lowercase more := by
  rw [lowercase_of_isAscii h, lowercase_of_isAscii hmore,
    lowercase_of_isAscii (isAscii_append h hmore), String.toList_append, map_append,
    String.ofList_append]

theorem isDigit_of_mem_repr (h : c ∈ (toString n).toList) : c.isDigit := by
  rw [Nat.toString_eq_repr, Nat.toList_repr] at h
  exact Nat.isDigit_of_mem_toDigits (by decide) (by decide) h

theorem isAscii_toString (n : Nat) : isAscii (toString n) := by
  rw [isAscii_iff]
  intro c hc
  have hdigit := isDigit_of_mem_repr hc
  simp only [Char.isDigit, ge_iff_le, Bool.and_eq_true, decide_eq_true_eq] at hdigit
  exact UInt32.lt_of_le_of_lt hdigit.2 (by decide)

theorem toLower_of_isDigit (h : c.isDigit) : c.toLower = c := by
  simp only [Char.isDigit, ge_iff_le, Bool.and_eq_true, decide_eq_true_eq] at h
  have hsmall : ¬ (c.val ≥ 'A'.val ∧ c.val ≤ 'Z'.val) := by
    rintro ⟨hle, -⟩
    exact absurd (UInt32.le_trans hle h.2) (by decide)
  exact dif_neg hsmall

theorem lowercase_toString (n : Nat) : lowercase (toString n) = toString n := by
  have hsame : (toString n).toList.map Char.toLower = (toString n).toList.map id :=
    map_congr_left fun c hc => toLower_of_isDigit (isDigit_of_mem_repr hc)
  rw [lowercase_of_isAscii (isAscii_toString n), hsame, map_id, String.ofList_toList]

/-! ### Numbers after names -/

def numbered (name : String) (n : Nat) : String :=
  name ++ "_" ++ toString n

variable {name' : String}

/-- Name and number can be told apart. -/
theorem numbered_inj {n' : Nat} (h : numbered name n = numbered name' n') :
    name = name' ∧ n = n' := by
  have hlist : name.toList ++ '_' :: (toString n).toList =
      name'.toList ++ '_' :: (toString n').toList := by
    simpa [numbered] using congrArg String.toList h
  have hdigits := eq_of_append_digits (by decide +kernel) (fun _ => isDigit_of_mem_toString)
    (fun _ => isDigit_of_mem_toString) hlist
  rw [hdigits] at hlist
  exact ⟨String.toList_injective (append_cancel_right hlist),
    toString_number_inj (String.toList_injective hdigits)⟩

theorem lowercase_numbered (h : isAscii name) (n : Nat) :
    lowercase (numbered name n) = numbered (lowercase name) n := by
  have hunderscore : isAscii "_" := by decide
  rw [numbered, lowercase_append (isAscii_append h hunderscore) (isAscii_toString n),
    lowercase_append h hunderscore, lowercase_toString]
  rfl

/-- The keys with the number of each occurrence; `seen` holds the keys before. -/
def occurrences (seen : List String) : List String → List (String × Nat)
  | [] => []
  | key :: keys => (key, seen.count key + 1) :: occurrences (key :: seen) keys

/-- The first occurrence of a key stays as it is, a later one is numbered. -/
def occurrenceName (occurrence : String × Nat) : String :=
  if occurrence.2 = 1 then occurrence.1 else numbered occurrence.1 occurrence.2

/-- Occurrences are counted from one. -/
theorem mem_occurrences_iff {seen keys : List String} {key : String} :
    (key, n) ∈ occurrences seen keys ↔ seen.count key < n ∧ n ≤ seen.count key + keys.count key := by
  induction keys generalizing seen with
  | nil =>
    simp only [occurrences, not_mem_nil, count_nil, false_iff]
    omega
  | cons first keys ih =>
    rw [occurrences, mem_cons, ih, Prod.mk.injEq, count_cons, count_cons]
    by_cases hfirst : first = key
    · subst hfirst
      simp only [BEq.rfl, if_true, true_and]
      omega
    · have hne : ¬ key = first := fun heq => hfirst heq.symm
      simp [hfirst, hne]

theorem nodup_occurrences (seen keys : List String) : (occurrences seen keys).Nodup := by
  induction keys generalizing seen with
  | nil => exact nodup_nil
  | cons key keys ih =>
    rw [occurrences, nodup_cons, mem_occurrences_iff, count_cons_self]
    exact ⟨by omega, ih (key :: seen)⟩

/-- No key is what another one becomes by a number that it gets. -/
def NumbersFree (keys : List String) : Prop :=
  ∀ key n, 2 ≤ n → n ≤ keys.count key → numbered key n ∉ keys

/-- Two occurrences get the same name only where a first one bears the numbered name of a later
one. -/
theorem nodup_occurrenceNames_iff (keys : List String) :
    ((occurrences [] keys).map occurrenceName).Nodup ↔ NumbersFree keys := by
  rw [nodup_map_iff_inj_on (nodup_occurrences [] keys)]
  have hmem : ∀ {key n}, (key, n) ∈ occurrences [] keys ↔ 0 < n ∧ n ≤ keys.count key := by
    intro key n
    simp [mem_occurrences_iff]
  constructor
  · intro hinj key n htwo hcount hkey
    have hfirst : (numbered key n, 1) ∈ occurrences [] keys :=
      hmem.2 ⟨Nat.one_pos, one_le_count_iff.2 hkey⟩
    have hlater : (key, n) ∈ occurrences [] keys := hmem.2 ⟨by omega, hcount⟩
    have hne : n ≠ 1 := by omega
    have hsame := hinj _ hfirst _ hlater (by simp [occurrenceName, hne])
    exact hne (Prod.mk.inj hsame).2.symm
  · rintro hfree ⟨key, n⟩ hn ⟨key', n'⟩ hn' hsame
    rw [hmem] at hn hn'
    -- a numbered occurrence and a first one
    have hapart : ∀ {key key' : String} {n : Nat}, 0 < n ∧ n ≤ keys.count key → n ≠ 1 →
        0 < 1 ∧ 1 ≤ keys.count key' → numbered key n ≠ key' := by
      rintro key key' n ⟨hpos, hcount⟩ hne ⟨-, hone⟩ rfl
      exact hfree key n (by omega) hcount (one_le_count_iff.1 hone)
    by_cases hone : n = 1
    · by_cases hone' : n' = 1
      · subst hone hone'
        simpa [occurrenceName] using hsame
      · subst hone
        exact absurd (by simpa [occurrenceName, hone'] using hsame.symm) (hapart hn' hone' hn)
    · by_cases hone' : n' = 1
      · subst hone'
        exact absurd (by simpa [occurrenceName, hone] using hsame) (hapart hn hone hn')
      · have hnumbered : numbered key n = numbered key' n' := by
          simpa [occurrenceName, hone, hone'] using hsame
        obtain ⟨rfl, rfl⟩ := numbered_inj hnumbered
        rfl

/-! ### Blocks -/

structure IsFileName (name : String) : Prop where
  nonempty : name ≠ ""
  fit : name.toList.all isFileNameChar

theorem IsFileName.isAscii (h : IsFileName name) : isAscii name := by
  rw [isAscii_iff]
  intro c hc
  have hfit : ((c.isUpper || c.isLower || c.isDigit) || c == '.' || c == '_' || c == '-') = true :=
    all_eq_true.1 h.fit c hc
  simp only [Bool.or_eq_true, beq_iff_eq] at hfit
  rcases hfit with ((((hupper | hlower) | hdigit) | rfl) | rfl) | rfl
  · exact UInt32.lt_of_le_of_lt (of_decide_eq_true hupper).2 (by decide)
  · exact UInt32.lt_of_le_of_lt (of_decide_eq_true (Bool.and_eq_true_iff.1 hlower).2) (by decide)
  · exact UInt32.lt_of_le_of_lt (of_decide_eq_true (Bool.and_eq_true_iff.1 hdigit).2) (by decide)
  all_goals decide

theorem isFileNameChar_of_mem_squeezeFileName {inRun : Bool} (h : c ∈ squeezeFileName inRun cs) :
    isFileNameChar c := by
  induction cs generalizing inRun with
  | nil => cases h
  | cons d rest ih =>
    rw [squeezeFileName] at h
    split at h
    next hd =>
      rcases mem_cons.1 h with rfl | h
      · exact hd
      · exact ih h
    · split at h
      · exact ih h
      · rcases mem_cons.1 h with rfl | h
        · decide
        · exact ih h

theorem isFileName_toplevelName : IsFileName toplevelName := ⟨by decide, by decide⟩

theorem isFileName_anonymousName : IsFileName anonymousName := ⟨by decide, by decide⟩

theorem isFileName_blockName (functionName : String) : IsFileName (blockName functionName) := by
  unfold blockName
  split
  next name hsafe =>
    split
    · exact isFileName_anonymousName
    next hempty =>
      refine ⟨fun hname => hempty (by simp [hname]), all_eq_true.2 fun c hc => ?_⟩
      unfold safeFileName? at hsafe
      dsimp only at hsafe
      split at hsafe
      · cases hsafe
      · cases hsafe
        rw [String.toList_ofList] at hc
        exact isFileNameChar_of_mem_squeezeFileName hc
  · exact isFileName_anonymousName

variable {block : Block}

theorem isFileName_of_mem_gapBlock (h : block ∈ gapBlock lines) : IsFileName block.name := by
  unfold gapBlock at h
  split at h
  · cases h
  · cases mem_singleton.1 h
    exact isFileName_toplevelName

variable {blocks : List Block}

theorem isFileName_of_splitFrom {pending : List Line} (h : splitFrom pending lines = .ok blocks) :
    ∀ block ∈ blocks, IsFileName block.name := by
  induction pending, lines using splitFrom.induct generalizing blocks with
  | case1 pending =>
    rw [splitFrom] at h
    cases h
    exact fun block => isFileName_of_mem_gapBlock
  | case2 pending line rest hdefinition ih =>
    rw [splitFrom, if_pos hdefinition] at h
    obtain ⟨declared, hdeclared, h⟩ := exists_of_bind_eq_ok h
    dsimp only at h
    obtain ⟨later, hlater, h⟩ := exists_of_bind_eq_ok h
    cases h
    intro block hblock
    rcases mem_append.1 hblock with hgap | hblock
    · exact isFileName_of_mem_gapBlock hgap
    · rcases mem_cons.1 hblock with rfl | hblock
      · exact isFileName_blockName _
      · exact ih hlater block hblock
  | case3 pending line rest hdefinition ih =>
    rw [splitFrom, if_neg hdefinition] at h
    exact ih h

/-- The name as far as it tells files apart on every file system. -/
def Block.key (block : Block) : String :=
  lowercase block.name

/-- Blocks are numbered by their keys. -/
theorem map_key_numberBlocks (h : ∀ block ∈ blocks, isAscii block.name) (seen : List String) :
    (numberBlocks seen blocks).map Block.key =
      (occurrences seen (blocks.map Block.key)).map occurrenceName := by
  induction blocks generalizing seen with
  | nil => rfl
  | cons block blocks ih =>
    have hblock := h block mem_cons_self
    have hrest := ih (fun other hother => h other (mem_cons_of_mem block hother))
      (block.key :: seen)
    rw [numberBlocks, map_cons, map_cons, occurrences, map_cons]
    refine cons_eq_cons.2 ⟨?_, hrest⟩
    by_cases hcount : seen.count block.key = 0
    · have hcount' : seen.count (lowercase block.name) = 0 := hcount
      simp [occurrenceName, hcount', Block.key]
    · have hcount' : seen.count (lowercase block.name) ≠ 0 := hcount
      simp only [occurrenceName, hcount', if_false, Nat.add_eq_right, Block.key]
      exact lowercase_numbered hblock _

/-! ### Normal forms -/

theorem name_normalizeBlock {normal : Block} (h : normalizeBlock block = .ok normal) :
    normal.name = block.name := by
  obtain ⟨lines, -, h⟩ := exists_of_bind_eq_ok h
  cases h
  rfl

/-- Blocks and their normal forms, one by one. -/
abbrev AreNormalForms (blocks normal : List Block) : Prop :=
  Forall₂ (fun block normal => normalizeBlock block = .ok normal) blocks normal

variable {normal : List Block}

theorem AreNormalForms.map_name (h : AreNormalForms blocks normal) :
    normal.map Block.name = blocks.map Block.name := by
  induction h with
  | nil => rfl
  | cons hblock _ ih => rw [map_cons, map_cons, name_normalizeBlock hblock, ih]

theorem map_name_mapM_normalizeBlock (h : blocks.mapM normalizeBlock = .ok normal) :
    normal.map Block.name = blocks.map Block.name :=
  AreNormalForms.map_name (forall₂_of_mapM_eq_ok h)

theorem isFileName_numbered (h : IsFileName name) (n : Nat) : IsFileName (numbered name n) := by
  refine ⟨fun hempty => h.nonempty ?_, ?_⟩
  · have hlist := congrArg String.toList hempty
    simp [numbered] at hlist
  · have hdigits : (toString n).toList.all isFileNameChar := by
      refine all_eq_true.2 fun c hc => ?_
      simp [isFileNameChar, Char.isAlphanum, isDigit_of_mem_repr hc]
    simp only [numbered, String.toList_append, all_append, h.fit, hdigits, Bool.and_true]
    decide

theorem isFileName_of_numberBlocks (h : ∀ block ∈ blocks, IsFileName block.name)
    (seen : List String) :
    ∀ block ∈ numberBlocks seen blocks, IsFileName block.name := by
  induction blocks generalizing seen with
  | nil =>
    intro block hblock
    cases hblock
  | cons first blocks ih =>
    intro block hblock
    rw [numberBlocks] at hblock
    rcases mem_cons.1 hblock with rfl | hblock
    · have hfirst := h first mem_cons_self
      dsimp only
      split
      · exact hfirst
      · exact isFileName_numbered hfirst _
    · exact ih (fun other hother => h other (mem_cons_of_mem first hother)) _ block hblock

theorem splitBlocks_eq_ok {plain : List Block} (h : splitFrom [] lines = .ok plain) :
    splitBlocks lines = .ok (numberBlocks [] plain) := by
  rw [splitBlocks, h]
  rfl

/-! ### Files -/

theorem lowercase_blockFileName (h : isAscii name) :
    lowercase (blockFileName name) = blockFileName (lowercase name) := by
  rw [blockFileName, lowercase_append h (by decide)]
  rfl

theorem lowercase_sourceMapFileName (h : isAscii name) :
    lowercase (sourceMapFileName name) = sourceMapFileName (lowercase name) := by
  rw [sourceMapFileName, lowercase_append h (by decide)]
  rfl

def fileNamesOf (withSourceMaps : Bool) (name : String) : List String :=
  blockFileName name :: if withSourceMaps then [sourceMapFileName name] else []

variable {withSourceMaps : Bool}

theorem mem_fileNamesOf {file : String} (h : file ∈ fileNamesOf withSourceMaps name) :
    file = blockFileName name ∨ file = sourceMapFileName name := by
  unfold fileNamesOf at h
  cases withSourceMaps with
  | false => exact .inl (by simpa using h)
  | true => simpa using h

theorem blockFileName_ne_sourceMapFileName (name name' : String) :
    blockFileName name ≠ sourceMapFileName name' := by
  intro h
  have hlast := congrArg (fun file => file.toList.getLast?) h
  simp [blockFileName, sourceMapFileName] at hlast

theorem orderFileName_not_mem_fileNamesOf (withSourceMaps : Bool) (name : String) :
    orderFileName ∉ fileNamesOf withSourceMaps name := by
  intro h
  rcases mem_fileNamesOf h with h | h
  · have hlast := congrArg (fun file => file.toList.getLast?) h
    simp [blockFileName, orderFileName] at hlast
  · have hlast := congrArg (fun file => file.toList.getLast?) h
    simp [sourceMapFileName, orderFileName] at hlast

/-- Blocks of different names have no file in common. -/
theorem disjoint_fileNamesOf_iff :
    (fileNamesOf withSourceMaps name).Disjoint (fileNamesOf withSourceMaps name') ↔ name ≠ name' := by
  constructor
  · rintro hdisjoint rfl
    exact hdisjoint mem_cons_self mem_cons_self
  · intro hne file hfile hfile'
    rcases mem_fileNamesOf hfile with rfl | rfl
    · rcases mem_fileNamesOf hfile' with h | h
      · exact hne ((String.append_left_inj ".pcode").1 h)
      · exact blockFileName_ne_sourceMapFileName name name' h
    · rcases mem_fileNamesOf hfile' with h | h
      · exact blockFileName_ne_sourceMapFileName name' name h.symm
      · exact hne ((String.append_left_inj ".pcode.map").1 h)

/-- Files clash just where names do. -/
theorem nodup_fileNames_iff (withSourceMaps : Bool) (names : List String) :
    (names.flatMap (fileNamesOf withSourceMaps) ++ [orderFileName]).Nodup ↔ names.Nodup := by
  have hone : ∀ name ∈ names, (fileNamesOf withSourceMaps name).Nodup := by
    intro name _
    have hne := blockFileName_ne_sourceMapFileName name name
    cases withSourceMaps <;> simp [fileNamesOf, hne]
  have horder : ∀ file ∈ names.flatMap (fileNamesOf withSourceMaps), ∀ other ∈ [orderFileName],
      file ≠ other := by
    rintro file hfile other hother rfl
    obtain ⟨name, -, hname⟩ := mem_flatMap.1 hfile
    rw [mem_singleton.1 hother] at hname
    exact orderFileName_not_mem_fileNamesOf withSourceMaps name hname
  rw [List.nodup_append, nodup_flatMap, List.Nodup]
  have hpairwise : names.Pairwise (Function.onFun List.Disjoint (fileNamesOf withSourceMaps)) ↔
      names.Pairwise (· ≠ ·) :=
    List.Pairwise.iff fun _ _ => disjoint_fileNamesOf_iff
  rw [hpairwise]
  exact ⟨fun h => h.1.2, fun h => ⟨⟨hone, h⟩, nodup_singleton _, horder⟩⟩

theorem map_lowercase_scriptFiles (h : ∀ block ∈ blocks, isAscii block.name)
    (withSourceMaps : Bool) :
    (scriptFiles withSourceMaps blocks).map (fun file => lowercase file.1) =
      (blocks.map Block.key).flatMap (fileNamesOf withSourceMaps) ++ [orderFileName] := by
  have horder : lowercase orderFileName = orderFileName := by decide +kernel
  have hblocks : (blocks.flatMap (blockFiles withSourceMaps)).map (fun file => lowercase file.1) =
      (blocks.map Block.key).flatMap (fileNamesOf withSourceMaps) := by
    rw [map_flatMap, flatMap_map]
    refine flatMap_congr fun block hblock => ?_
    have hascii := h block hblock
    cases withSourceMaps <;>
      simp [blockFiles, fileNamesOf, Block.key, lowercase_blockFileName hascii,
        lowercase_sourceMapFileName hascii]
  rw [scriptFiles, map_append, hblocks, map_singleton, horder]

/-- The blocks of a file have different names in lower case, and their files do, exactly when no
block is named in the file as another one comes to be named by its number. -/
theorem splitBlocks_names_nodup_iff {lines : List Line} {plain : List Block}
    (h : splitFrom [] lines = .ok plain) :
    ∃ blocks, splitBlocks lines = .ok blocks ∧
      ((blocks.map fun block => lowercase block.name).Nodup ↔
        NumbersFree (plain.map fun block => lowercase block.name)) ∧
      ∀ normal withSourceMaps, blocks.mapM normalizeBlock = .ok normal →
        (((scriptFiles withSourceMaps normal).map fun file => lowercase file.1).Nodup ↔
          NumbersFree (plain.map fun block => lowercase block.name)) := by
  have hplain := isFileName_of_splitFrom h
  have hnodup : ((numberBlocks [] plain).map Block.key).Nodup ↔
      NumbersFree (plain.map Block.key) := by
    rw [map_key_numberBlocks fun block hblock => (hplain block hblock).isAscii]
    exact nodup_occurrenceNames_iff _
  refine ⟨numberBlocks [] plain, splitBlocks_eq_ok h, hnodup, fun normal withSourceMaps hnormal => ?_⟩
  have hnames := map_name_mapM_normalizeBlock hnormal
  have hkeys : normal.map Block.key = (numberBlocks [] plain).map Block.key := by
    have hmap := congrArg (List.map lowercase) hnames
    rwa [List.map_map, List.map_map] at hmap
  have hascii : ∀ block ∈ normal, isAscii block.name := by
    intro block hblock
    have hname : block.name ∈ (numberBlocks [] plain).map Block.name := by
      rw [← hnames]
      exact List.mem_map_of_mem hblock
    obtain ⟨other, hother, heq⟩ := List.mem_map.1 hname
    rw [← heq]
    exact (isFileName_of_numberBlocks hplain [] other hother).isAscii
  rw [map_lowercase_scriptFiles hascii, nodup_fileNames_iff, hkeys]
  exact hnodup

def emptyFunction (name : String) : List Line :=
  [⟨[], none, .instruction "DefineFunction" [.ofString name, .ofNumeral "0"]⟩,
    ⟨[], none, .structural "\x7d"⟩]

def emptyFunctionBlock (name : String) : Block := ⟨name, emptyFunction name⟩

theorem emptyFunctions_names_nodup :
    splitFrom [] (["f", "F", "f_3"].flatMap emptyFunction) =
        .ok (["f", "F", "f_3"].map emptyFunctionBlock) ∧
      ∃ blocks, splitBlocks (["f", "F", "f_3"].flatMap emptyFunction) = .ok blocks ∧
        blocks.map Block.name = ["f", "F_2", "f_3"] ∧
        (blocks.map fun block => lowercase block.name).Nodup ∧ NumbersFree ["f", "f", "f_3"] := by
  have hsplit : splitFrom [] (["f", "F", "f_3"].flatMap emptyFunction) =
      .ok (["f", "F", "f_3"].map emptyFunctionBlock) := eq_ok_of_toOption (by decide +kernel)
  obtain ⟨blocks, hblocks, hiff, -⟩ := splitBlocks_names_nodup_iff hsplit
  have hkeys : (["f", "F", "f_3"].map emptyFunctionBlock).map (fun block => lowercase block.name) =
      ["f", "f", "f_3"] := by decide +kernel
  have hnames : blocks.map Block.name = ["f", "F_2", "f_3"] := by
    rw [splitBlocks_eq_ok hsplit] at hblocks
    cases hblocks
    decide +kernel
  have hnodup : (blocks.map fun block => lowercase block.name).Nodup := by
    have hmap := congrArg (List.map lowercase) hnames
    rw [List.map_map] at hmap
    change (blocks.map (lowercase ∘ Block.name)).Nodup
    rw [hmap]
    decide +kernel
  rw [hkeys] at hiff
  exact ⟨hsplit, blocks, hblocks, hnames, hnodup, hiff.1 hnodup⟩

/-- Of three functions the second is numbered and gets the name of the third, so that the file of
the one is overwritten by that of the other. -/
theorem splitBlocks_number_taken :
    ∃ blocks, splitBlocks (["f", "f", "f_2"].flatMap emptyFunction) = .ok blocks ∧
      blocks.map Block.name = ["f", "f_2", "f_2"] ∧
      (scriptFiles true blocks).map Prod.fst = ["f.pcode", "f.pcode.map", "f_2.pcode",
        "f_2.pcode.map", "f_2.pcode", "f_2.pcode.map", "order.txt"] := by
  have hsplit : splitBlocks (["f", "f", "f_2"].flatMap emptyFunction) =
      .ok [⟨"f", emptyFunction "f"⟩, ⟨"f_2", emptyFunction "f"⟩, ⟨"f_2", emptyFunction "f_2"⟩] :=
    eq_ok_of_toOption (by decide +kernel)
  exact ⟨_, hsplit, rfl, by decide +kernel⟩

end MovieDiff.Pcode
