import Linglong.Framework.PathText
import Linglong.Framework.ReverseErase
import Linglong.Generators.Container
import Mathlib.Data.Char
import Mathlib.Data.List.Lex

/-! # Fixing the Mount Points

    `fixMount` (`runtime/container_builder.cpp`) replaces the root of a
    container by an empty directory and mounts each entry of the old root
    there. Where a destination of the configuration is missing in the old
    root, its deepest existing ancestor becomes a `tmpfs` with the entries of
    the ancestor, so that the destination can be made. At the end it removes
    mounts whose destination comes again.

    1. The files of the host.
    2. The paths that become a `tmpfs`.
    3. The mounts that are inserted.
    4. The mounts that are removed (`removeExtra_spec`).
-/

namespace Linglong.FixMount

open Framework
open Generators (OciMount maxSymlinks)

/-! ## Section 1: The files of the host -/

abbrev Name := List Char

/-- A place: the names from the root down. -/
abbrev Path := List Name

/-- The files of the host, and the names in each of its directories. -/
structure Host where
  files : Path → Option (Node Name)
  names : Path → List Name
  mem_names : ∀ {p : Path} {n : Name}, n ∈ names p ↔ (files (p ++ [n])).isSome = true
  isName : ∀ {p : Path} {n : Name}, n ∈ names p → IsName n
  parent : ∀ {p : Path} {n : Name}, (files (p ++ [n])).isSome = true →
    p = [] ∨ files p = some .dir

namespace Host

def tree (host : Host) : FileTree Path Name := ⟨id, host.files⟩

/-- Where a path leads. -/
def place (host : Host) (p : Path) : Option Path :=
  (host.tree.walk true maxSymlinks [] (p.map .down)).toOption

/-- `QFile::exists`. -/
def exists' (host : Host) (p : Path) : Bool := (host.place p).isSome

/-- What is used of `QFileInfo`. -/
structure Info where
  fileName : Name
  isSymLink : Bool

def isLink : Option (Node Name) → Bool
  | some (.link _ _) => true
  | _ => false

/-- `QDir::entryInfoList(QDir::Dirs | QDir::Files | QDir::System |
    QDir::NoDotAndDotDot)`: without `QDir::Hidden`, no name that begins with
    a dot. -/
def entryInfoList (host : Host) (dir : Path) : List Info :=
  match host.place dir with
  | none => []
  | some q => ((host.names q).filter fun n => n.head? ≠ some '.').map fun n =>
      ⟨n, isLink (host.files (q ++ [n]))⟩

end Host

/-! ## Section 2: The paths that become a `tmpfs` -/

/-- `QDir::cleanPath`, from a directory on. -/
def cleanPath (here : Path) : List Name → Path
  | [] => here
  | n :: rest =>
      if n = [] ∨ n = ['.'] then cleanPath here rest
      else if n = ['.', '.'] then cleanPath here.dropLast rest
      else cleanPath (here ++ [n]) rest

/-- The place of an absolute path. -/
def pathOf (text : List Char) : Path := cleanPath [] (text.splitOn '/')

/-- `QDir::cleanPath(originalRoot.filePath(destination.substr(1)))`. What is
    absolute without its first slash is not taken relative to the root. -/
def hostSource (originalRoot : Path) (destination : List Char) : Path :=
  let file := destination.drop 1
  cleanPath (if file.head? = some '/' then [] else originalRoot) (file.splitOn '/')

/-- Remove the last component until the path exists. The argument is the path
    from its end. -/
def existsPath (host : Host) : List Name → Option Path
  | [] => none
  | n :: elem =>
      if host.exists' (n :: elem).reverse then some (n :: elem).reverse else existsPath host elem

/-- The deepest existing ancestor of the destination of a mount, if the code
    goes on with it. -/
def tmpfsFor (host : Host) (originalRoot : Path) (mount : OciMount) : Option Path :=
  let destination := mount.destination.toList
  if destination.head? ≠ some '/' then none
  else if host.exists' (hostSource originalRoot destination) then none
  else
    (existsPath host (hostSource originalRoot destination).reverse).filter fun p =>
      ¬ slashed p ≤ slashed originalRoot

/-- Chop characters off the end until the text is as wanted. The argument is
    the text from its end. -/
def chopUntil (wanted : List Char → Bool) : List Char → List Char
  | [] => []
  | c :: cs => if wanted (c :: cs).reverse then (c :: cs).reverse else chopUntil wanted cs

/-- `commonParent`. -/
def commonParent (path1 path2 : List Char) : List Char :=
  let ret := chopUntil (fun ret => ret.isPrefixOf path1) path2.reverse
  if ret = [] then ret
  else slashed (pathOf (chopUntil (fun ret => ret.getLast? = some '/') ret.reverse))

/-- The loop over `tmpfsPath`: the paths afterwards, and `newTmp`. -/
def mergeTmpfs (originalRoot existsPath : List Char) : List (List Char) → List (List Char) × Bool
  | [] => ([], true)
  | t :: tmpfsPath =>
      if existsPath = t then (t :: (mergeTmpfs originalRoot existsPath tmpfsPath).1, false)
      else if originalRoot < commonParent existsPath t then
        (commonParent existsPath t :: tmpfsPath, false)
      else
        (t :: (mergeTmpfs originalRoot existsPath tmpfsPath).1,
          (mergeTmpfs originalRoot existsPath tmpfsPath).2)

/-- One path for a mount: it is merged, or added at the end. -/
def addTmpfs (originalRoot : List Char) (tmpfsPath : List (List Char)) (existsPath : List Char) :
    List (List Char) :=
  let merged := mergeTmpfs originalRoot existsPath tmpfsPath
  if merged.2 then merged.1 ++ [existsPath] else merged.1

/-- The paths that become a `tmpfs`, `tmpfsPath`. -/
def tmpfsPaths (host : Host) (originalRoot : Path) (mounts : List OciMount) : List (List Char) :=
  ((mounts.filterMap (tmpfsFor host originalRoot)).map slashed).foldl
    (addTmpfs (slashed originalRoot)) []

/-! ## Section 3: The mounts that are inserted -/

/-- The bind mount of an entry of the old root, with the text of its path. -/
def bindMount (originalRoot path : List Char) (isSymLink : Bool) : OciMount where
  destination := .ofList (path.drop originalRoot.length)
  options := ["rbind", "ro"] ++ if isSymLink then ["copy-symlink"] else []
  source := .ofList path
  type := "bind"

/-- The bind mounts of the entries of a directory. -/
def entryBinds (host : Host) (originalRoot : Path) (dir : List Char) : List OciMount :=
  (host.entryInfoList (pathOf dir)).map fun info =>
    bindMount (slashed originalRoot) (dir ++ '/' :: info.fileName) info.isSymLink

def tmpfsMount (originalRoot tmpfs : List Char) : OciMount where
  destination := .ofList (tmpfs.drop originalRoot.length)
  options := ["nodev", "nosuid", "mode=755"]
  source := "tmpfs"
  type := "tmpfs"

/-- The mounts that are inserted at the beginning. -/
def inserted (host : Host) (originalRoot : Path) (mounts : List OciMount) : List OciMount :=
  entryBinds host originalRoot (slashed originalRoot) ++
    (tmpfsPaths host originalRoot mounts).flatMap fun tmpfs =>
      tmpfsMount (slashed originalRoot) tmpfs :: entryBinds host originalRoot tmpfs

/-! ## Section 4: The mounts that are removed -/

/-- The last loop of `fixMount`, with the mounts that it visits. -/
def removeExtra (mounts : List OciMount) : Option (Traversal OciMount (List String)) :=
  eraseLoop (fun dups m => dups.contains m.destination) (fun dups m => m.destination :: dups)
    mounts.length mounts [] []

/-- What is used of the configuration: the path of its root, and its
    mounts. -/
structure Config where
  root : Option String
  mounts : Option (List OciMount)

/-- `fixMount`; nothing where an iterator would leave the vector. -/
def fixMount (host : Host) (config : Config) : Option Config :=
  match config.mounts, config.root with
  | some mounts, some root =>
      let originalRoot := pathOf root.toList
      (removeExtra (inserted host originalRoot mounts ++ mounts)).map fun left =>
        { root := some "rootfs", mounts := some left.items }
  | _, _ => some config

theorem removeExtra_eq (mounts : List OciMount) :
    ∃ dups, removeExtra mounts = some ⟨lastOf OciMount.destination mounts, dups, mounts.reverse⟩ := by
  have hrun := eraseLoop_eq (fun (dups : List String) (m : OciMount) => dups.contains m.destination)
    (fun dups m => m.destination :: dups) mounts.reverse [] [] []
  rw [List.reverse_reverse, List.append_nil, List.append_nil, List.length_reverse,
    keepFrom_eq_lastOf, List.nil_append] at hrun
  exact ⟨_, hrun⟩

/-- **The last loop** visits each mount once, from the last to the first, and
    leaves the last mount with each destination, in order. -/
theorem removeExtra_spec (mounts : List OciMount) :
    ∃ left dups, removeExtra mounts = some ⟨left, dups, mounts.reverse⟩ ∧
      (left.map OciMount.destination).Nodup ∧
      (∀ d, left.filter (fun m => m.destination = d) =
        (mounts.filter fun m => m.destination = d).getLast?.toList) ∧
      left.Sublist mounts := by
  obtain ⟨dups, hrun⟩ := removeExtra_eq mounts
  exact ⟨lastOf OciMount.destination mounts, dups, hrun, nodup_lastOf _ _, filter_lastOf mounts,
    lastOf_sublist _ _⟩

end Linglong.FixMount
