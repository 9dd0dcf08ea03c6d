/-!
# Files

A tree of files and directories, and what a path in it leads to. A path is read from the root if it
starts with a slash and else from a working directory; dots and doubled slashes are passed over, and
two dots lead to the parent. Every part of a path that another follows must be a directory. Names
and whole paths have a greatest length.
-/

namespace EndlessRemix

/-- The names on the way from the root. -/
abbrev Place := List String

/-- What there is at a place. -/
inductive FileNode where
  | file (bytes : Array UInt8)
  | directory

/-- Why a file cannot be read or written. -/
inductive FileFault where
  | missing
  | isDirectory
  | notDirectory
  | nameTooLong
  | invalidPath
  | denied
  deriving Repr, DecidableEq

/-- The code of a fault in reports. -/
def FileFault.code : FileFault → String
  | missing => "ENOENT"
  | isDirectory => "EISDIR"
  | notDirectory => "ENOTDIR"
  | nameTooLong => "ENAMETOOLONG"
  | invalidPath => "ERR_INVALID_ARG_VALUE"
  | denied => "EACCES"

/-- Files and directories with their places. The directories on the way to a place need not be
listed. -/
structure FileTree where
  entries : List (Place × FileNode)

namespace FileTree

/-- What there is at a place, if anything. -/
def node? (t : FileTree) (place : Place) : Option FileNode :=
  match t.entries.lookup place with
  | some node => some node
  | none =>
    if place.isEmpty || t.entries.any fun entry => place.isPrefixOf entry.1 then some .directory
    else none

/-- The tree with a file at a place. -/
def write (t : FileTree) (place : Place) (bytes : Array UInt8) : FileTree :=
  ⟨(place, .file bytes) :: t.entries.filter (·.1 ≠ place)⟩

/-- The bytes of the longest name. -/
def longestName : Nat := 255

/-- The bytes of the longest path. -/
def longestPath : Nat := 4095

/-- What a directory has under a name. A name that is too long is not even looked for. -/
def find (t : FileTree) (directory : Place) (name : String) :
    Except FileFault (Option FileNode) :=
  if longestName < name.utf8ByteSize then .error .nameTooLong
  else .ok (t.node? (directory ++ [name]))

/-- The directory that steps from a directory lead to. -/
def enter (t : FileTree) : Place → List String → Except FileFault Place
  | here, [] => .ok here
  | here, step :: steps =>
    if step = "" ∨ step = "." then t.enter here steps
    else if step = ".." then t.enter here.dropLast steps
    else do
      match ← t.find here step with
      | some .directory => t.enter (here ++ [step]) steps
      | some (.file _) => .error .notDirectory
      | none => .error .missing

/-- A step that stands for a directory whatever the tree. -/
def isDirectoryStep (step : String) : Bool := step = "" ∨ step = "." ∨ step = ".."

/-- The steps of a path before the last one, and the last one. -/
def splitPath (path : String) : List String × String :=
  let steps := path.splitOn "/"
  (steps.dropLast, steps.getLastD "")

/-- Where a path is read from. -/
def origin (working : Place) (path : String) : Place :=
  if path.startsWith "/" then [] else working

/-- What is wrong with a path whatever the tree. The character with code 0 ends a path, so none may
hold it. -/
def checkPath (path : String) : Except FileFault Unit :=
  if path.contains (Char.ofNat 0) then .error .invalidPath
  else if path = "" then .error .missing
  else if longestPath < path.utf8ByteSize then .error .nameTooLong
  else .ok ()

/-- The bytes of the file at a path. -/
def read (t : FileTree) (working : Place) (path : String) : Except FileFault (Array UInt8) := do
  checkPath path
  let (steps, last) := splitPath path
  -- such a path leads to a directory, if it leads anywhere
  if isDirectoryStep last then
    let _ ← t.enter (origin working path) (steps ++ [last])
    throw .isDirectory
  let parent ← t.enter (origin working path) steps
  match ← t.find parent last with
  | none => throw .missing
  | some .directory => throw .isDirectory
  | some (.file bytes) => return bytes

/-- The place at which a path lets a file be written. A path with a slash at its end names no file,
whether its last name exists or not. -/
def placeToWrite (t : FileTree) (working : Place) (path : String) : Except FileFault Place := do
  checkPath path
  let trimmed := String.ofList (path.toList.reverse.dropWhile (· = '/')).reverse
  let (steps, last) := splitPath trimmed
  let parent ← t.enter (origin working path) steps
  if trimmed ≠ path ∨ isDirectoryStep last then throw .isDirectory
  match ← t.find parent last with
  | some .directory => throw .isDirectory
  -- a file that is there is written anew
  | _ => return parent ++ [last]

end FileTree

end EndlessRemix
