import Workflow.CommandLine.FileFault

/-!
# Trees of files

A path is followed name by name from the root or from the working folder. Every name
but the last must lead to a folder, so a step up out of a file or out of nothing
fails, although it would cancel out in the text of the path. A path to write to names
a file in a folder that exists; it must not end like the path of a folder.

Folders are there because the system has them or because a file lies below them. A
few files are devices, which keep no content.
-/

namespace Workflow.CommandLine

/-- A place in a tree: the names on the way from the root. -/
abbrev Place := List String

/-- A file that keeps no content. -/
inductive Device where
  /-- Takes everything and is always empty. -/
  | null
  /-- Has no room for anything. -/
  | full
  /-- The input of the program. -/
  | input
  /-- The first output of the program. -/
  | output
  /-- The second output of the program. -/
  | errors
  deriving DecidableEq, Repr

/-- The devices by their places. -/
def Device.table : List (Place × Device) := [
  (["dev", "null"], .null), (["dev", "full"], .full), (["dev", "stdin"], .input),
  (["dev", "stdout"], .output), (["dev", "stderr"], .errors)]

/-- The files of a tree. -/
structure FileTree where
  /-- The contents of files by their places. -/
  files : List (Place × String)
  deriving DecidableEq, Repr

namespace FileTree

/-- The folder that relative paths start from. -/
def workingFolder : Place := ["tmp", "work"]

/-- The folders that are there without any files. -/
def standardFolders : List Place :=
  workingFolder :: (["bin", "dev", "etc", "home", "lib", "media", "mnt", "opt", "proc", "root",
    "run", "sbin", "srv", "sys", "usr", "var"].map fun name => [name])

/-- The greatest number of bytes in a name. -/
def nameLimit : Nat := 255

/-- A path has fewer bytes than this. -/
def pathLimit : Nat := 4096

/-- The names of a path. An empty name stands for the folder that has been reached. -/
def names (path : String) : List String := (path.toList.splitOn '/').map String.ofList

/-- Where a path starts. -/
def start (path : String) : Place :=
  match path.toList with
  | '/' :: _ => []
  | _ => workingFolder

/-- Whether a path ends like the path of a folder. -/
def endsInSlash (path : String) : Bool := path.toList.getLast? == some '/'

variable (t : FileTree)

/-- The content of the file at a place. -/
def content? (p : Place) : Option String := t.files.lookup p

/-- Whether there is a folder at a place. -/
def isFolder (p : Place) : Bool :=
  standardFolders.any p.isPrefixOf || t.files.any fun f => p.isPrefixOf f.1 && p != f.1

/-- Whether there is anything at a place. -/
def has (p : Place) : Bool :=
  t.isFolder p || (t.content? p).isSome || (Device.table.lookup p).isSome

/-- The place that a name leads to. -/
def enter (here : Place) (name : String) : Except FileFault Place :=
  if !t.isFolder here then .error .notFolder
  else if name == "" || name == "." then .ok here
  else if name == ".." then .ok here.dropLast
  else if nameLimit < name.utf8ByteSize then .error .nameTooLong
  else if t.has (here ++ [name]) then .ok (here ++ [name])
  else .error .missing

/-- The place that names lead to, one after the other. -/
def follow (here : Place) : List String → Except FileFault Place
  | [] => .ok here
  | name :: rest => do follow (← t.enter here name) rest

/-- A path that is neither empty nor too long. -/
def checkPath (path : String) : Except FileFault Unit :=
  if path.isEmpty then .error .missing
  else if pathLimit ≤ path.utf8ByteSize then .error .nameTooLong
  else .ok ()

/-- The place that a path leads to. -/
def locate (path : String) : Except FileFault Place := do
  checkPath path
  t.follow (start path) (names path)

/-- The content that is read from a path. -/
def read (path : String) : Except FileFault String := do
  let p ← t.locate path
  if t.isFolder p then throw .folder
  else return (t.content? p).getD ""

/-- The place that is written to under a path. -/
def target (path : String) : Except FileFault Place := do
  checkPath path
  match (names path).reverse.dropWhile (· == "") with
  | [] => throw .folder
  | last :: parents =>
    let parent ← t.follow (start path) parents.reverse
    if !t.isFolder parent then throw .notFolder
    else if last == "." || last == ".." || endsInSlash path then throw .folder
    else if nameLimit < last.utf8ByteSize then throw .nameTooLong
    else if t.isFolder (parent ++ [last]) then throw .folder
    else return parent ++ [last]

/-- The tree with a content in the file at a place. -/
def put (p : Place) (content : String) : FileTree :=
  ⟨(p, content) :: t.files.filter (·.1 != p)⟩

/-- The tree with nothing but the given files in the working folder, which are put there
one after the other. -/
def ofFiles (files : List (String × String)) : FileTree :=
  files.foldl (fun t f =>
    t.put (workingFolder ++ (names f.1).filter fun name => name != "" && name != ".") f.2) ⟨[]⟩

end FileTree

end Workflow.CommandLine
