import MovieDiff.Files.FileSystem
import MovieDiff.TextDiff

/-!
Comparing two trees of files. Files of one path are compared first. A file without a partner is
then a rename of an equal file without one, or the new place of one that is alike enough. Files
and contents that have no order of their own may be gone through in any.
-/
namespace MovieDiff

/-- The files below a directory with their contents; each path occurs once. -/
abbrev FileTree := List (Path × Bytes)

/-- A file of one tree and the file of the other one that it is paired with. -/
abbrev FilePair := (Path × Bytes) × (Path × Bytes)

/-- A file whose lines differ, or one that has moved. -/
structure FileChange where
  path : Path
  newPath : Option Path
  changed : Nat
  spans : List SpanPair
  deriving DecidableEq, Repr

structure TreeDiff where
  changes : List FileChange
  onlyLeft : List Path
  onlyRight : List Path
  equal : List Path
  deriving DecidableEq, Repr

namespace FileTree

def paths (tree : FileTree) : List Path :=
  tree.map (·.1)

/-- The files at or below one of some paths; no paths stand for all. -/
def restrict (tree : FileTree) (scope : List Path) : FileTree :=
  if scope.isEmpty then tree
  else tree.filter fun file => scope.any fun path => file.1.isWithin path

/-- The files whose paths the other tree lacks. -/
def without (tree other : FileTree) : FileTree :=
  tree.filter fun file => !other.paths.contains file.1

def sort (tree : FileTree) : FileTree :=
  tree.mergeSort fun x y => x.1.le y.1

/-- The files of both trees, with both contents, in the order of their paths. -/
def common (left right : FileTree) : List (Path × Bytes × Bytes) :=
  (sort left).filterMap fun (path, content) =>
    (right.lookup path).map fun other => (path, content, other)

def erasePath (tree : FileTree) (path : Path) : FileTree :=
  tree.filter fun file => file.1 ≠ path

end FileTree

def FileSystem.tree (fs : FileSystem) (dir : Path) (glob : Glob) : FileTree :=
  (fs.listFiles dir glob).filterMap fun p =>
    match fs.read (dir ++ p) with
    | .ok content => some (p, content)
    | .error _ => none

/-- The paths of both trees with other contents, those only in the first and those only in the
second. -/
def compareTrees (left right : FileTree) : List Path × List Path × List Path :=
  (((FileTree.common left right).filter fun (_, x, y) => x ≠ y).map (·.1),
   Path.sort (left.without right).paths, Path.sort (right.without left).paths)

namespace TreeDiff

def commonDiff (x y : Bytes) : TextDiff :=
  if x = y then ⟨[], 0⟩ else TextDiff.of x.lines y.lines

def commonChanges (left right : FileTree) : List FileChange :=
  (FileTree.common left right).filterMap fun (path, x, y) =>
    let diff := commonDiff x y
    if diff.changed = 0 then none else some ⟨path, none, diff.changed, diff.spans⟩

def equalPaths (left right : FileTree) : List Path :=
  (FileTree.common left right).filterMap fun (path, x, y) =>
    if (commonDiff x y).changed = 0 then some path else none

/-- The orders in which to go through files without a partner and through their contents. -/
structure SearchOrder where
  left : FileTree → FileTree
  right : FileTree → FileTree
  contents : List Bytes → List Bytes
  candidates : Path → FileTree → FileTree
  left_perm : ∀ files, (left files).Perm files
  right_perm : ∀ files, (right files).Perm files
  contents_perm : ∀ found, (contents found).Perm found
  candidates_perm : ∀ path files, (candidates path files).Perm files

/-- Everything in the order in which it is listed. -/
def SearchOrder.listed : SearchOrder where
  left files := files
  right files := files
  contents contents := contents
  candidates _ files := files
  left_perm := .refl
  right_perm := .refl
  contents_perm := .refl
  candidates_perm _ := .refl

/-- The contents that both sides have, each once. -/
def sharedContents (left right : FileTree) : List Bytes :=
  (left.map (·.2)).eraseDups.filter fun content => right.any fun file => file.2 == content

/-- Pairs files of one content, as many as both sides have. -/
def renames (order : SearchOrder) (left right : FileTree) : List FilePair :=
  (order.contents (sharedContents left right)).flatMap fun content =>
    ((order.left left).filter (·.2 == content)).zip ((order.right right).filter (·.2 == content))

/-- Files still without a partner on both sides, and the moves found so far. -/
structure Search where
  left : FileTree
  right : FileTree
  moves : List FileChange
  deriving DecidableEq, Repr

namespace Search

def move (s : Search) (path newPath : Path) (diff : TextDiff) : Search :=
  ⟨s.left.erasePath path, s.right.erasePath newPath,
   s.moves ++ [⟨path, some newPath, diff.changed, diff.spans⟩]⟩

/-- Notes that a file is an equal one of the other side. -/
def rename (s : Search) (pair : FilePair) : Search :=
  s.move pair.1.1 pair.2.1 ⟨[], 0⟩

/-- How many candidates are compared by content. -/
def candidateLimit : Nat := 20

/-- The least similarity of a moved file, in tenths. -/
def moveThreshold : Nat := 9

/-- The files whose paths are most alike, by name among equals. -/
def candidates (path : Path) (files : FileTree) : FileTree :=
  let byName := files.mergeSort fun x y => x.1.name ≤ y.1.name
  let scored := byName.map fun file =>
    (Similarity.of path.text.toList file.1.text.toList, file)
  ((scored.mergeSort fun x y => !x.1.lt y.1).take candidateLimit).map (·.2)

/-- The first best of some scored elements. -/
def bestOf {α : Type} : List (Similarity × α) → Option (Similarity × α)
  | [] => none
  | first :: rest => some (rest.foldl (fun best x => if best.1.lt x.1 then x else best) first)

/-- Pairs a file with the candidate whose lines are most alike, if they are alike enough. -/
def matchAlike (order : SearchOrder) (s : Search) (file : Path × Bytes) : Search :=
  let lines := file.2.lines
  let scored := (candidates file.1 (order.candidates file.1 s.right)).map fun other =>
    (Similarity.of lines other.2.lines, other)
  match bestOf scored with
  | some (score, other) =>
    if score.reaches moveThreshold then
      s.move file.1 other.1 (TextDiff.of lines other.2.lines)
    else s
  | none => s

end Search

/-- The moves, and what is left on each side. -/
def search (order : SearchOrder) (left right : FileTree) : Search :=
  let start : Search := ⟨left.without right, right.without left, []⟩
  let renamed := (renames order start.left start.right).foldl Search.rename start
  renamed.left.sort.foldl (Search.matchAlike order) renamed

def inOrder (order : SearchOrder) (left right : FileTree) : TreeDiff :=
  let found := search order left right
  ⟨commonChanges left right ++ found.moves, Path.sort found.left.paths,
   Path.sort found.right.paths, equalPaths left right⟩

def of (left right : FileTree) : TreeDiff :=
  inOrder .listed left right

end TreeDiff

end MovieDiff
