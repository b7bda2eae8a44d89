import MovieDiff.Proofs.Files.Tree

/-!
Outputs: files that are written into directories of their own, each made empty before. Main
statement: when several outputs are written one after the other, all of them stand at the end
exactly when none clears away an earlier one, and the tree in which they all stand does not depend
on the order.
-/
namespace MovieDiff

open List

abbrev Tree := List String → Option Entry

/-- Text files that are to stand in a directory of their own; of two of a name the later one
counts. -/
structure Output where
  dir : List String
  files : List (String × String)
  deriving DecidableEq, Repr

namespace Output

variable {start tree final : Tree} {out other earlier later : Output} {outs : List Output}
  {place front : List String} {content : Bytes}

def fileAt? (out : Output) (place : List String) : Option Bytes :=
  FileSystem.lastWritten? out.dir (out.files.map fun file => (file.1, Text.encode file.2)) place

/-- A tree after the directory of an output was made empty and its files were written. -/
def laidOn (tree : Tree) (out : Output) : Tree := fun place =>
  ((out.fileAt? place).map Entry.file).or
    (if place <+: out.dir then some .directory
      else if out.dir <+: place then none else tree place)

/-- Whether an output that is written later leaves an earlier one alone: it clears no directory that
the earlier one is in, and no file of the earlier one is in its way. -/
structure Spares (later earlier : Output) : Prop where
  outside : ¬ later.dir <+: earlier.dir
  clear : ∀ place content, earlier.fileAt? place = some content → ¬ place <+: later.dir

/-- Whether all outputs stand in a tree: each directory holds the files of its output and nothing
else but what leads to others, and what has nothing to do with them is as it was at the start. -/
structure Settled (start : Tree) (outs : List Output) (final : Tree) : Prop where
  files : ∀ out ∈ outs, ∀ place content, out.fileAt? place = some content →
    final place = some (.file content)
  directories : ∀ out ∈ outs, ∀ front, front <+: out.dir → final front = some .directory
  nothingElse : ∀ out ∈ outs, ∀ place, out.dir <+: place →
    (∀ other ∈ outs, other.fileAt? place = none ∧ ¬ place <+: other.dir) → final place = none
  elsewhere : ∀ place, (∀ out ∈ outs, ¬ place <+: out.dir ∧ ¬ out.dir <+: place) →
    final place = start place

theorem exists_of_fileAt? (h : out.fileAt? place = some content) :
    ∃ name, place = out.dir ++ [name] := by
  obtain ⟨name, -, hplace⟩ := FileSystem.lastWritten?_eq_some h
  exact ⟨name, hplace⟩

theorem below_of_fileAt? (h : out.fileAt? place = some content) : out.dir <+: place := by
  obtain ⟨name, rfl⟩ := exists_of_fileAt? h
  exact prefix_append _ _

theorem dir_eq_of_fileAt? {content' : Bytes} (h : out.fileAt? place = some content)
    (h' : other.fileAt? place = some content') : out.dir = other.dir := by
  obtain ⟨name, rfl⟩ := exists_of_fileAt? h
  obtain ⟨name', hplace⟩ := exists_of_fileAt? h'
  exact (append_inj' hplace rfl).1

theorem not_above_of_fileAt? (h : out.fileAt? place = some content) : ¬ place <+: out.dir := by
  intro habove
  obtain ⟨name, rfl⟩ := exists_of_fileAt? h
  exact FileSystem.ne_concat_of_above habove name rfl

theorem fileAt?_eq_none_of_above (h : place <+: out.dir) : out.fileAt? place = none := by
  cases hfile : out.fileAt? place with
  | none => rfl
  | some content => exact absurd h (not_above_of_fileAt? hfile)

theorem exists_fileAt? {file : String × String} (h : file ∈ out.files) :
    ∃ content, out.fileAt? (out.dir ++ [file.1]) = some content := by
  have hfound : ((out.files.map fun file => (file.1, Text.encode file.2)).reverse.find?
      fun written => out.dir ++ [written.1] == out.dir ++ [file.1]).isSome := by
    refine find?_isSome.2 ⟨(file.1, Text.encode file.2), ?_, by simp⟩
    exact mem_reverse.2 (mem_map_of_mem h)
  obtain ⟨written, hwritten⟩ := Option.isSome_iff_exists.1 hfound
  exact ⟨written.2, congrArg (Option.map Prod.snd) hwritten⟩

theorem spares_iff : later.Spares earlier ↔ ¬ later.dir <+: earlier.dir ∧
    ∀ file ∈ earlier.files, ¬ earlier.dir ++ [file.1] <+: later.dir := by
  constructor
  · intro h
    refine ⟨h.outside, fun file hfile => ?_⟩
    obtain ⟨content, hcontent⟩ := exists_fileAt? hfile
    exact h.clear _ content hcontent
  · rintro ⟨houtside, hclear⟩
    refine ⟨houtside, fun place content hcontent => ?_⟩
    obtain ⟨name, hname, rfl⟩ := FileSystem.lastWritten?_eq_some hcontent
    obtain ⟨file, hfile, heq⟩ := mem_map.1 hname
    cases heq
    exact hclear file hfile

instance (later earlier : Output) : Decidable (later.Spares earlier) :=
  decidable_of_iff _ spares_iff.symm

/-! ### One output -/

theorem laidOn_of_fileAt? (h : out.fileAt? place = some content) :
    laidOn tree out place = some (.file content) := by
  simp [laidOn, h]

theorem laidOn_of_above (h : place <+: out.dir) : laidOn tree out place = some .directory := by
  simp [laidOn, fileAt?_eq_none_of_above h, h]

/-- Away from the directory nothing changes. -/
theorem laidOn_of_apart (habove : ¬ place <+: out.dir) (hbelow : ¬ out.dir <+: place) :
    laidOn tree out place = tree place := by
  have hfile : out.fileAt? place = none := by
    cases hfile : out.fileAt? place with
    | none => rfl
    | some content => exact absurd (below_of_fileAt? hfile) hbelow
  simp [laidOn, hfile, habove, hbelow]

/-- Nothing else is left below the directory. -/
theorem laidOn_of_below (hfile : out.fileAt? place = none) (habove : ¬ place <+: out.dir)
    (hbelow : out.dir <+: place) : laidOn tree out place = none := by
  simp [laidOn, hfile, habove, hbelow]

/-- A file that an output leaves standing and is not its own was there before, away from it. -/
theorem apart_of_laidOn (hfile : out.fileAt? place = none)
    (h : laidOn tree out place = some (.file content)) :
    tree place = some (.file content) ∧ ¬ place <+: out.dir ∧ ¬ out.dir <+: place := by
  by_cases habove : place <+: out.dir
  · rw [laidOn_of_above habove] at h
    cases h
  by_cases hbelow : out.dir <+: place
  · rw [laidOn_of_below hfile habove hbelow] at h
    cases h
  rw [laidOn_of_apart habove hbelow] at h
  exact ⟨h, habove, hbelow⟩

theorem isTree_of_laidOn {fs fs' : FileSystem} (htree : fs.IsTree)
    (h : fs'.entryAt? = laidOn fs.entryAt? out) : fs'.IsTree := by
  intro place hplace front hfront hne
  rw [h] at hplace ⊢
  by_cases habove : front <+: out.dir
  · exact laidOn_of_above habove
  by_cases hbelow : out.dir <+: place
  · -- Below the directory there are files only, with nothing but the way to it above.
    cases hfile : out.fileAt? place with
    | none =>
      have hnot : ¬ place <+: out.dir := fun hway => habove (hfront.trans hway)
      exact absurd (laidOn_of_below hfile hnot hbelow) hplace
    | some content =>
      obtain ⟨name, rfl⟩ := exists_of_fileAt? hfile
      exact absurd ((prefix_concat_iff.1 hfront).resolve_left hne) habove
  · have hnot : ¬ place <+: out.dir := fun hway => habove (hfront.trans hway)
    rw [laidOn_of_apart hnot hbelow] at hplace
    rw [laidOn_of_apart habove fun hway => hbelow (hway.trans hfront)]
    exact htree place hplace front hfront hne

/-! ### Outputs one after the other -/

/-- What lies apart from all outputs stays. -/
theorem foldl_laidOn_of_apart (h : ∀ out ∈ outs, ¬ place <+: out.dir ∧ ¬ out.dir <+: place) :
    outs.foldl laidOn tree place = tree place := by
  induction outs generalizing tree with
  | nil => rfl
  | cons out outs ih =>
    obtain ⟨hout, hothers⟩ := forall_mem_cons.1 h
    rw [foldl_cons, ih hothers, laidOn_of_apart hout.1 hout.2]

theorem foldl_laidOn_directory (htree : tree front = some .directory)
    (h : ∀ out ∈ outs, ¬ out.dir <+: front) : outs.foldl laidOn tree front = some .directory := by
  induction outs generalizing tree with
  | nil => exact htree
  | cons out outs ih =>
    obtain ⟨hout, hothers⟩ := forall_mem_cons.1 h
    refine ih ?_ hothers
    by_cases habove : front <+: out.dir
    · exact laidOn_of_above habove
    · rw [laidOn_of_apart habove hout, htree]

theorem foldl_laidOn_none (h : ∀ out ∈ outs, out.fileAt? place = none ∧ ¬ place <+: out.dir)
    (hnone : tree place = none ∨ ∃ out ∈ outs, out.dir <+: place) :
    outs.foldl laidOn tree place = none := by
  induction outs generalizing tree with
  | nil => simpa using hnone
  | cons out outs ih =>
    obtain ⟨hout, hothers⟩ := forall_mem_cons.1 h
    apply ih hothers
    by_cases hbelow : out.dir <+: place
    · exact .inl (laidOn_of_below hout.1 hout.2 hbelow)
    · rw [laidOn_of_apart hout.2 hbelow]
      simpa [hbelow] using hnone

theorem apart_of_foldl_laidOn (hfile : ∀ out ∈ outs, out.fileAt? place = none)
    (h : outs.foldl laidOn tree place = some (.file content)) :
    tree place = some (.file content) ∧
      ∀ out ∈ outs, ¬ place <+: out.dir ∧ ¬ out.dir <+: place := by
  induction outs generalizing tree with
  | nil => exact ⟨h, forall_mem_nil _⟩
  | cons out outs ih =>
    obtain ⟨hout, hothers⟩ := forall_mem_cons.1 hfile
    obtain ⟨htree, hapart⟩ := ih hothers h
    obtain ⟨htree, hout⟩ := apart_of_laidOn hout htree
    exact ⟨htree, forall_mem_cons.2 ⟨hout, hapart⟩⟩

/-- Outputs that leave each other alone all stand at the end. -/
theorem settled_of_pairwise (h : outs.Pairwise fun earlier later => later.Spares earlier) :
    Settled start outs (outs.foldl laidOn start) where
  files := by
    intro out hout place content hfile
    obtain ⟨before, after, rfl⟩ := append_of_mem hout
    have hspares := (pairwise_cons.1 (pairwise_append.1 h).2.1).1
    rw [foldl_append, foldl_cons, foldl_laidOn_of_apart, laidOn_of_fileAt? hfile]
    intro later hlater
    obtain ⟨name, rfl⟩ := exists_of_fileAt? hfile
    refine ⟨(hspares later hlater).clear _ content hfile, fun hbelow => ?_⟩
    rcases prefix_concat_iff.1 hbelow with heq | hinside
    · exact (hspares later hlater).clear _ content hfile (heq ▸ prefix_refl _)
    · exact (hspares later hlater).outside hinside
  directories := by
    intro out hout front hfront
    obtain ⟨before, after, rfl⟩ := append_of_mem hout
    have hspares := (pairwise_cons.1 (pairwise_append.1 h).2.1).1
    rw [foldl_append, foldl_cons]
    refine foldl_laidOn_directory (laidOn_of_above hfront) fun later hlater hbelow => ?_
    exact (hspares later hlater).outside (hbelow.trans hfront)
  nothingElse := fun out hout _ hbelow hnone => foldl_laidOn_none hnone (.inr ⟨out, hout, hbelow⟩)
  elsewhere := fun _ => foldl_laidOn_of_apart

/-- If all files stand at the end, no output has cleared away an earlier one. -/
theorem pairwise_of_files (hdirs : (outs.map Output.dir).Nodup)
    (hfiles : ∀ out ∈ outs, ∃ place content, out.fileAt? place = some content)
    (h : ∀ out ∈ outs, ∀ place content, out.fileAt? place = some content →
      outs.foldl laidOn tree place = some (.file content)) :
    outs.Pairwise fun earlier later => later.Spares earlier := by
  induction outs generalizing tree with
  | nil => exact .nil
  | cons out outs ih =>
    rw [map_cons, nodup_cons] at hdirs
    obtain ⟨hout, hothers⟩ := forall_mem_cons.1 hfiles
    have hapart : ∀ later ∈ outs, ∀ place content, out.fileAt? place = some content →
        ¬ place <+: later.dir ∧ ¬ later.dir <+: place := by
      intro later hlater place content hfile
      have hlast : outs.foldl laidOn (laidOn tree out) place = some (.file content) :=
        h out mem_cons_self place content hfile
      refine (apart_of_foldl_laidOn (fun other hother => ?_) hlast).2 later hlater
      cases hother' : other.fileAt? place with
      | none => rfl
      | some written =>
        have hsame := dir_eq_of_fileAt? hfile hother'
        exact absurd (mem_map.2 ⟨other, hother, hsame.symm⟩) hdirs.1
    refine pairwise_cons.2 ⟨fun later hlater => ⟨fun hinside => ?_, ?_⟩, ?_⟩
    · obtain ⟨place, content, hfile⟩ := hout
      exact (hapart later hlater place content hfile).2
        (hinside.trans (below_of_fileAt? hfile))
    · exact fun place content hfile => (hapart later hlater place content hfile).1
    · exact ih hdirs.2 hothers fun other hother => h other (mem_cons_of_mem out hother)

/-- Two trees in which the same outputs stand are the same. -/
theorem Settled.unique {final' : Tree} (h : Settled start outs final)
    (h' : Settled start outs final') : final = final' := by
  funext place
  by_cases hfile : ∃ out ∈ outs, ∃ content, out.fileAt? place = some content
  · obtain ⟨out, hout, content, hfile⟩ := hfile
    rw [h.files out hout place content hfile, h'.files out hout place content hfile]
  by_cases habove : ∃ out ∈ outs, place <+: out.dir
  · obtain ⟨out, hout, habove⟩ := habove
    rw [h.directories out hout place habove, h'.directories out hout place habove]
  have hother : ∀ other ∈ outs, other.fileAt? place = none ∧ ¬ place <+: other.dir := by
    intro other hother
    refine ⟨Option.eq_none_iff_forall_ne_some.2 fun content hcontent => ?_, fun hway => ?_⟩
    · exact hfile ⟨other, hother, content, hcontent⟩
    · exact habove ⟨other, hother, hway⟩
  by_cases hbelow : ∃ out ∈ outs, out.dir <+: place
  · obtain ⟨out, hout, hbelow⟩ := hbelow
    rw [h.nothingElse out hout place hbelow hother, h'.nothingElse out hout place hbelow hother]
  · have hapart : ∀ out ∈ outs, ¬ place <+: out.dir ∧ ¬ out.dir <+: place := fun out hout =>
      ⟨(hother out hout).2, fun hinside => hbelow ⟨out, hout, hinside⟩⟩
    rw [h.elsewhere place hapart, h'.elsewhere place hapart]

/-- It does not matter how the outputs are listed. -/
theorem Settled.of_mem_iff {outs' : List Output} (h : Settled start outs final)
    (hmem : ∀ out, out ∈ outs' ↔ out ∈ outs) : Settled start outs' final where
  files := fun out hout => h.files out ((hmem out).1 hout)
  directories := fun out hout => h.directories out ((hmem out).1 hout)
  nothingElse := fun out hout place hbelow hnone =>
    h.nothingElse out ((hmem out).1 hout) place hbelow fun other hother =>
      hnone other ((hmem other).2 hother)
  elsewhere := fun place hapart => h.elsewhere place fun out hout => hapart out ((hmem out).2 hout)

/-- Outputs whose directories are not inside one another leave each other alone. -/
theorem spares_of_not_inside (h : ¬ later.dir <+: earlier.dir) (h' : ¬ earlier.dir <+: later.dir) :
    later.Spares earlier where
  outside := h
  clear := fun _ _ hfile habove => h' ((below_of_fileAt? hfile).trans habove)

def AreApart (outs : List Output) : Prop :=
  ∀ a ∈ outs, ∀ b ∈ outs, a.dir <+: b.dir → a = b

/-- The outputs that may be written in any order. -/
theorem areApart_iff (hdirs : (outs.map Output.dir).Nodup) : AreApart outs ↔
    ∀ order : List Output, order.Perm outs →
      order.Pairwise fun earlier later => later.Spares earlier := by
  constructor
  · intro h order horder
    have hnodup : order.Nodup := horder.nodup_iff.2 hdirs.of_map
    refine List.Pairwise.imp_of_mem (fun {earlier later} hearlier hlater hne => ?_) hnodup
    have hmem := horder.subset hearlier
    have hmem' := horder.subset hlater
    exact spares_of_not_inside (fun hinside => hne (h later hmem' earlier hmem hinside).symm)
      (fun hinside => hne (h earlier hmem later hmem' hinside))
  · intro h a ha b hb hinside
    by_contra hne
    -- The inner one first, then the outer one.
    have hb' : b ∈ outs.erase a := (mem_erase_of_ne (Ne.symm hne)).2 hb
    have horder : (b :: a :: (outs.erase a).erase b).Perm outs :=
      (List.Perm.swap a b _).trans
        (((perm_cons_erase hb').symm.cons a).trans (perm_cons_erase ha).symm)
    have hspares := (pairwise_cons.1 (h _ horder)).1 a mem_cons_self
    exact hspares.outside hinside

end Output

end MovieDiff
