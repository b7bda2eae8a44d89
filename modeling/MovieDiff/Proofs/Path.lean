import Mathlib.Data.List.Induction
import Mathlib.Data.List.TakeDrop
import MovieDiff.Path
import MovieDiff.Proofs.Text.Characters

/-!
Paths below a directory. No `..` is left in a resolved path, a name added to a path is added to what
the path resolves to, a name with an ending is cut where the ending starts, and a path is read back
from its text.
-/
namespace MovieDiff

open List

/-- Pieces without the separator are found again between the separators. -/
theorem Text.splitAtChar_intercalate {sep : Char} {pieces : List (List Char)} (h : pieces ≠ [])
    (hsep : ∀ piece ∈ pieces, sep ∉ piece) :
    splitAtChar sep ([sep].intercalate pieces) = pieces := by
  have hpiece : ∀ (piece rest : List Char) (first : List Char) (others : List (List Char)),
      sep ∉ piece → splitAtChar sep rest = first :: others →
      splitAtChar sep (piece ++ rest) = (piece ++ first) :: others := by
    intro piece rest first others hclear hrest
    induction piece with
    | nil => exact hrest
    | cons c piece ih =>
      rw [mem_cons, not_or] at hclear
      rw [cons_append, splitAtChar, ih hclear.2]
      exact if_neg (Ne.symm hclear.1)
  induction pieces with
  | nil => exact absurd rfl h
  | cons piece pieces ih =>
    obtain ⟨hfirst, hothers⟩ := forall_mem_cons.1 hsep
    cases pieces with
    | nil =>
      have hsplit := hpiece piece [] [] [] hfirst rfl
      simpa using hsplit
    | cons next pieces =>
      have hrest : splitAtChar sep (sep :: [sep].intercalate (next :: pieces)) =
          [] :: next :: pieces := by
        rw [splitAtChar, ih (by simp) hothers]
        exact if_pos rfl
      have hsplit := hpiece piece _ [] _ hfirst hrest
      rw [append_nil] at hsplit
      rwa [intercalate_cons_cons, append_assoc]

namespace Path

theorem dots_not_mem_cancelDots (names : List String) : ".." ∉ cancelDots names := by
  have hfold : ∀ kept : List String, ".." ∉ kept →
      ".." ∉ names.foldl (fun kept name => if name = ".." then kept.dropLast else kept ++ [name])
        kept := by
    induction names with
    | nil => exact fun kept hkept => hkept
    | cons name names ih =>
      intro kept hkept
      rw [foldl_cons]
      split
      · exact ih _ fun hmem => hkept (dropLast_subset kept hmem)
      next hname =>
        refine ih _ fun hmem => ?_
        rcases mem_append.1 hmem with hmem | hmem
        · exact hkept hmem
        · exact hname (mem_singleton.1 hmem).symm
  exact hfold [] not_mem_nil

variable {name : String}

theorem cancelDots_append_singleton (names : List String) (h : name ≠ "..") :
    cancelDots (names ++ [name]) = cancelDots names ++ [name] := by
  simp [cancelDots, foldl_append, h]

variable {names : List String}

theorem cancelDots_of_not_mem (h : ".." ∉ names) : cancelDots names = names := by
  induction names using List.reverseRecOn with
  | nil => rfl
  | append_singleton names name ih =>
    rw [mem_append, not_or, mem_singleton] at h
    rw [cancelDots_append_singleton names (Ne.symm h.2), ih h.1]

/-- Resolving leaves the last name as it is. -/
theorem resolve_append_child (p q : Path) (h : name ≠ "..") :
    (p ++ q.child name).resolve = (p ++ q).resolve.child name := by
  obtain ⟨root, names⟩ := q
  cases root with
  | none =>
    change (⟨.slash, cancelDots (p.names ++ (names ++ [name]))⟩ : Path) =
      ⟨.slash, cancelDots (p.names ++ names) ++ [name]⟩
    rw [← append_assoc, cancelDots_append_singleton _ h]
  | slash =>
    change (⟨.slash, cancelDots (names ++ [name])⟩ : Path) = ⟨.slash, cancelDots names ++ [name]⟩
    rw [cancelDots_append_singleton _ h]
  | doubleSlash =>
    change (⟨.slash, cancelDots (names ++ [name])⟩ : Path) = ⟨.slash, cancelDots names ++ [name]⟩
    rw [cancelDots_append_singleton _ h]

theorem name_child (p : Path) (name : String) : (p.child name).name = name := by
  simp [child, Path.name]

theorem parent_child (p : Path) (name : String) : (p.child name).parent = p := by
  simp [child, parent]

/-- A name before an ending that starts with its only dot. -/
theorem splitName_append {ending : String} {rest : List Char} (hname : name ≠ "")
    (hending : ending.toList = '.' :: rest) (hrest : rest ≠ []) (hdots : '.' ∉ rest) :
    splitName (name ++ ending) = (name, ending) := by
  have hreverse : (name ++ ending).toList.reverse = rest.reverse ++ '.' :: name.toList.reverse := by
    rw [String.toList_append, hending]
    simp
  have hclear : ∀ c ∈ rest.reverse, decide (c ≠ '.') = true := fun c hc => by
    simpa using fun heq : c = '.' => hdots (heq ▸ mem_reverse.1 hc)
  have hstop : ∀ c ∈ ('.' :: name.toList.reverse).head?, decide (c ≠ '.') = false := by
    rintro c ⟨⟩
    rfl
  unfold splitName
  rw [hreverse, span_eq_takeWhile_dropWhile, Text.takeWhile_append_of_head hclear hstop,
    Text.dropWhile_append_of_head hclear hstop]
  simp [hrest, hname, ← hending]

theorem append_ne_dots {suffix : String} {c : Char} (h : suffix.toList.getLast? = some c)
    (hc : c ≠ '.') (front : String) : front ++ suffix ≠ ".." := by
  intro heq
  have hlast := congrArg (fun name : String => name.toList.getLast?) heq
  rw [String.toList_append, getLast?_append, h] at hlast
  exact hc (Option.some.inj hlast)

structure IsName (name : String) : Prop where
  ne_empty : name ≠ ""
  ne_dot : name ≠ "."
  ne_dots : name ≠ ".."
  slash : '/' ∉ name.toList
  null : '\x00' ∉ name.toList

instance (name : String) : Decidable (IsName name) :=
  decidable_of_iff (name ≠ "" ∧ name ≠ "." ∧ name ≠ ".." ∧ '/' ∉ name.toList ∧
      '\x00' ∉ name.toList)
    ⟨fun ⟨h₁, h₂, h₃, h₄, h₅⟩ => ⟨h₁, h₂, h₃, h₄, h₅⟩,
      fun ⟨h₁, h₂, h₃, h₄, h₅⟩ => ⟨h₁, h₂, h₃, h₄, h₅⟩⟩

/-- Whether a name has an ending: a last dot with something before and after it. -/
def HasEnding (name : String) : Prop :=
  ∃ stem ending : List Char, stem ≠ [] ∧ ending ≠ [] ∧ '.' ∉ ending ∧
    name.toList = stem ++ '.' :: ending

theorem splitName_of_not_hasEnding (h : ¬ HasEnding name) : splitName name = (name, "") := by
  unfold splitName
  rw [span_eq_takeWhile_dropWhile]
  dsimp only
  split
  next c stem hdrop =>
    split
    · rfl
    next hboth =>
      rw [not_or] at hboth
      refine absurd ⟨stem.reverse, (name.toList.reverse.takeWhile (· ≠ '.')).reverse, ?_⟩ h
      have hdot : c = '.' := by
        have hhead := head?_dropWhile_not (p := (· ≠ '.')) (l := name.toList.reverse)
        rw [hdrop] at hhead
        simpa using hhead
      have hparts := takeWhile_append_dropWhile (p := (· ≠ '.')) (l := name.toList.reverse)
      rw [hdrop, hdot] at hparts
      refine ⟨by simpa using hboth.2, by simpa using hboth.1, ?_, ?_⟩
      · intro hmem
        simpa using mem_takeWhile_imp (mem_reverse.1 hmem)
      · rw [← reverse_inj, reverse_append, reverse_cons, reverse_reverse,
          reverse_reverse, append_assoc, singleton_append, hparts]
  · rfl

/-- The names that are not cut. -/
theorem fst_splitName_eq_iff : (splitName name).1 = name ↔ ¬ HasEnding name := by
  constructor
  · rintro hsame ⟨stem, ending, hstem, hending, hdots, hname⟩
    have hparts : name = String.ofList stem ++ String.ofList ('.' :: ending) := by
      apply String.toList_inj.1
      simp [hname]
    have hfront : String.ofList stem ≠ "" := by simpa using hstem
    have hsplit := splitName_append hfront (String.toList_ofList (l := '.' :: ending)) hending hdots
    rw [← hparts] at hsplit
    rw [hsplit] at hsame
    have hlength := congrArg (fun other : String => other.toList.length) hsame
    simp [hname] at hlength
  · intro h
    rw [splitName_of_not_hasEnding h]

/-- A path is read back from its text, but for single dots. -/
theorem ofString_text (h : names ≠ []) (hslash : ∀ name ∈ names, name ≠ "" ∧ '/' ∉ name.toList) :
    ofString (text ⟨.none, names⟩) = ⟨.none, names.filter (· ≠ ".")⟩ := by
  have htext : (text ⟨.none, names⟩).toList = ['/'].intercalate (names.map String.toList) := by
    have hne : (⟨.none, names⟩ : Path) ≠ empty := fun heq => h (congrArg Path.names heq)
    rw [text, if_neg hne, String.toList_append, String.toList_intercalate]
    rfl
  have hsplit : (Text.splitAtChar '/' (text ⟨.none, names⟩).toList).map String.ofList = names := by
    rw [htext, Text.splitAtChar_intercalate (by simpa using h)]
    · simp [map_map, Function.comp_def]
    · intro piece hpiece
      obtain ⟨name, hname, rfl⟩ := mem_map.1 hpiece
      exact (hslash name hname).2
  have hroot : PathRoot.ofText (text ⟨.none, names⟩).toList = .none := by
    obtain ⟨name, others, rfl⟩ := exists_cons_of_ne_nil h
    obtain ⟨hne, hclear⟩ := hslash name mem_cons_self
    obtain ⟨c, cs, hcs⟩ := exists_cons_of_ne_nil (by simpa using hne : name.toList ≠ [])
    have hc : c ≠ '/' := fun heq => hclear (by simp [hcs, heq])
    have hhead : ∃ rest, (text ⟨.none, name :: others⟩).toList = c :: rest := by
      rw [htext, map_cons, hcs]
      cases others with
      | nil => exact ⟨cs, by simp⟩
      | cons next others => exact ⟨_, by rw [map_cons, intercalate_cons_cons]; rfl⟩
    obtain ⟨rest, hrest⟩ := hhead
    rw [hrest]
    unfold PathRoot.ofText
    split <;> simp_all
  rw [ofString, hsplit, hroot]
  refine congrArg (Path.mk .none) (filter_congr fun name hname => ?_)
  simp [(hslash name hname).1]

end Path

end MovieDiff
