import Asm6502.Table
import Asm6502.Text.Units

/-!
# File trees

The files and directories that a command line works on. A path is a list of names from the root; a path
written as text is followed name by name, from the working directory unless it starts with a slash.

* `FileTree.read`: the content of a file, or why there is none.
* `FileTree.save`: writes a file, in a directory that exists.
* `FileTree.makeParents`: makes the directories in front of a file.
-/

namespace Asm6502

/-- Files with their contents, and the directories made besides the working directory. -/
structure FileTree where
  files : Table (List String) (List UInt8)
  directories : List (List String)
  workingDirectory : List String
  deriving DecidableEq

/-- Why a file cannot be read. -/
inductive ReadFailure where
  /-- There is none. -/
  | missing
  /-- It is a directory, its path goes through a file, or its path can name nothing. -/
  | unreadable
  deriving DecidableEq

namespace FileTree

/-- A tree with nothing in its working directory. -/
def empty (workingDirectory : List String) : FileTree := ⟨.empty, [], workingDirectory⟩

/-- Whether a name is short enough for a directory: at most 255 bytes. -/
def isShortName (name : String) : Bool := name.utf8ByteSize ≤ 255

/-- Whether a path can name anything: at most 4095 bytes, and no null character. -/
def isUsablePath (path : String) : Bool :=
  path.utf8ByteSize ≤ 4095 && path.toList.all (fun c => c.toNat != 0)

/-- The names between the slashes of a path. -/
def names (path : String) : List String :=
  let (first, others) := path.toList.foldr (fun c (name, later) =>
    if c = '/' then ([], name :: later) else (c :: name, later)) (([], []) : List Char × List (List Char))
  (first :: others).map String.ofList

/-- Where a path starts. -/
def origin (t : FileTree) (path : String) : List String :=
  match path.toList with
  | '/' :: _ => []
  | _ => t.workingDirectory

/-- Whether there is a directory at a path. -/
def isDirectory (t : FileTree) (path : List String) : Bool :=
  path.isPrefixOf t.workingDirectory || t.directories.contains path

/-- Where a name leads from a directory. -/
def step (here : List String) (name : String) : List String :=
  if name = "" ∨ name = "." then here
  else if name = ".." then here.dropLast
  else here ++ [name]

/-- Follows names, each from a directory. -/
def follow (t : FileTree) (here : List String) : List String → Except ReadFailure (List String)
  | [] => .ok here
  | name :: rest =>
    if t.isDirectory here then
      if isShortName name then t.follow (step here name) rest else .error .unreadable
    else if t.files.contains here then .error .unreadable
    else .error .missing

/-- The content of a file. -/
def read (t : FileTree) (path : String) : Except ReadFailure (List UInt8) := do
  if !isUsablePath path then throw .unreadable
  let place ← t.follow (t.origin path) (names path)
  if t.isDirectory place then throw .unreadable
  match t.files.find? place with
  | some content => return content
  | none => throw .missing

/-- Makes the directories that names lead through, unless a file is in the way or a name is too long. -/
def makeDirectories (t : FileTree) (here : List String) : List String → Option FileTree
  | [] => some t
  | name :: rest =>
    let place := step here name
    if t.isDirectory place then t.makeDirectories place rest
    else if t.files.contains place || !isShortName name then none
    else { t with directories := t.directories ++ [place] }.makeDirectories place rest

/-- The names of a path without its last one. -/
def parentNames (path : String) : List String :=
  ((names path).reverse.dropWhile (· = "")).tail.reverse

/-- Makes the directories in front of a file. -/
def makeParents (t : FileTree) (path : String) : Option FileTree :=
  t.makeDirectories (t.origin path) (parentNames path)

/-- Writes a file, unless its directory is missing, a directory is in its place, or its path can name
    nothing. -/
def save (t : FileTree) (path : String) (content : List UInt8) : Option FileTree :=
  let name := (names path).getLast?.getD ""
  match t.follow (t.origin path) (names path).dropLast with
  | .error _ => none
  | .ok here =>
    let place := step here name
    -- a name that stays in the tree of directories names no file
    if !isUsablePath path || !isShortName name || !t.isDirectory here || place != here ++ [name] ||
        t.isDirectory place then none
    else some { t with files := t.files.insert place content }

/-- The files below the working directory, with paths from there, in the order of UTF-16 units. -/
def listing (t : FileTree) : List (String × List UInt8) :=
  Text.sortBy Prod.fst (t.files.toList.filterMap (fun (path, content) =>
    if t.workingDirectory.isPrefixOf path then
      some (String.intercalate "/" (path.drop t.workingDirectory.length), content)
    else none))

end FileTree

end Asm6502
