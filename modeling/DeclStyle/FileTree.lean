/-!
# File trees

Directories and files below a root, as far as looking files up goes.  A path is followed part by
part from the root; every part but the last has to name a directory, and a path never leaves the
root.

Paths keep the form they are written in.  Empty parts and single dots lead nowhere, and two dots
lead back to the directory before.
-/

namespace DeclStyle

/-- The parts of a path from the root, as they are written. -/
abbrev Path := List String

/-- Directories and files.  The directories on the way to a file or a directory exist with it. -/
structure FileTree where
  directories : List Path
  files : List (Path × ByteArray)

/-- What a path may lead to. -/
inductive FileEntry where
  | directory
  | file (contents : ByteArray)

namespace Path

/-- The path of a given written form. -/
def ofString (s : String) : Path := (s.toList.splitOn '/').map String.ofList

/-- Whether a part of a path leads nowhere. -/
def isIdle (part : String) : Bool := part == "" || part == "."

/-- The written form of a path, from the first part that leads somewhere. -/
def render (p : Path) : String := "/".intercalate (p.dropWhile isIdle)

/-- The path of a name in the directory of a path.  Where the path ends with a separator, the name
follows that one. -/
def child (p : Path) (name : String) : Path :=
  if p.getLast? = some "" then p.dropLast ++ [name] else p ++ [name]

/-- The path up to the last part that leads somewhere. -/
def trimEnd (p : Path) : Path := (p.reverse.dropWhile isIdle).reverse

/-- The proper beginnings of a path, the longest first. -/
def beginnings (p : Path) : List Path := (List.range p.length).reverse.map p.take

/-- A path and the directories written in front of it, the closest first.  Those have no parts that
lead nowhere at their end. -/
def upward (p : Path) : List Path :=
  p :: (beginnings p.trimEnd).filter fun q => !q.getLast?.any isIdle

/-- Where a path leads if every directory on its way exists. -/
def place (p : Path) : Path :=
  p.foldl
    (fun place part =>
      if isIdle part then place else if part = ".." then place.dropLast else place ++ [part])
    []

/-- Whether a new file can be given a name: up to 255 bytes long and without the zero character. -/
def isName (s : String) : Bool :=
  !isIdle s && s != ".." && s.utf8ByteSize ≤ 255 && !s.toList.contains '\x00'

example : upward ["a", ".", "b", ""] = [["a", ".", "b", ""], ["a"], []] := by decide

end Path

namespace FileTree

/-- The tree that arises when directories are made, with every directory on the way to them, and
files are then written, likewise. -/
def ofPaths (directories : List Path) (files : List (Path × ByteArray)) : FileTree where
  directories :=
    (directories ++ files.map (·.1.dropLast)).flatMap fun p => (p :: p.beginnings).map Path.place
  files := files.reverse.map fun (p, contents) => (p.place, contents)

/-- What there is at a place. -/
def entryAt? (t : FileTree) (place : Path) : Option FileEntry :=
  match t.files.find? (·.1 == place) with
  | some (_, contents) => some (.file contents)
  | none =>
    if place.isEmpty || t.directories.any place.isPrefixOf
        || t.files.any (place.isPrefixOf ·.1) then
      some .directory
    else none

/-- Follows one part of a path from a place, which has to be a directory. -/
def step? (t : FileTree) (place : Path) (part : String) : Option Path :=
  match t.entryAt? place with
  | some .directory =>
    if Path.isIdle part then some place
    else if part = ".." then if place.isEmpty then none else some place.dropLast
    else (t.entryAt? (place ++ [part])).map fun _ => place ++ [part]
  | _ => none

/-- What a path leads to. -/
def lookup? (t : FileTree) (p : Path) : Option FileEntry :=
  (p.foldlM t.step? []).bind t.entryAt?

/-- The text of the file that a path leads to. -/
def readText? (t : FileTree) (p : Path) : Option String :=
  match t.lookup? p with
  | some (.file contents) => String.fromUTF8? contents
  | _ => none

/-- Whether a file can be opened for writing at a path: there is one, or its directory exists. -/
def isWritable (t : FileTree) (p : Path) : Bool :=
  match t.lookup? p with
  | some (.file _) => true
  | some .directory => false
  | none =>
    match p.getLast? with
    | some name =>
      Path.isName name &&
        match t.lookup? p.dropLast with
        | some .directory => true
        | _ => false
    | none => false

end FileTree

end DeclStyle
