import Lowering.Command.Files
import Lowering.NameMap

/-!
# Workspaces

A `Workspace` is a file store that is plain data: a tree of directories and files, the
directory in which paths start, and the text printed so far. A lock is the file that it is
named for, which is made if it does not exist, and stays.
-/

namespace Lowering

/-- A file with its contents, or a directory with what is in it. -/
inductive FileTree where
  | file (bytes : List UInt8)
  | directory (entries : List (String × FileTree))
  deriving Repr

namespace FileTree

/-- What is found by following names from the top. -/
def find? : FileTree → List String → Option FileTree
  | t, [] => some t
  | .file _, _ :: _ => none
  | .directory entries, name :: names =>
    match entries.lookup name with
    | some t => t.find? names
    | none => none

def isDirectory (t : FileTree) (place : List String) : Bool :=
  match t.find? place with
  | some (.directory _) => true
  | _ => false

/-- Give the file at a place new contents. What is missing on the way is made. -/
def put (bytes : List UInt8) : List String → FileTree → FileTree
  | [], _ => .file bytes
  | _ :: _, .file old => .file old
  | name :: names, .directory entries =>
    .directory (Entries.put name (put bytes names ((entries.lookup name).getD (.directory [])))
      entries)

/-- The most bytes that a name may have. -/
def maxName : Nat := 255

/-- Where a component of a path leads from a directory. A dot, or nothing between two slashes,
stays where it is. -/
def follow (place : List String) (component : String) : Except FileFault (List String) :=
  if component = "" ∨ component = "." then .ok place
  else if component = ".." then .ok place.dropLast
  else if component.utf8ByteSize > maxName then .error .nameTooLong
  else .ok (place ++ [component])

/-- Go on to a component of a path, which only a directory has. -/
def enter (t : FileTree) (place : List String) (component : String) :
    Except FileFault (List String) :=
  match t.find? place with
  | none => .error .noEntry
  | some (.file _) => .error .notDirectory
  | some (.directory _) => follow place component

/-- The components of a path, which its slashes separate. `start` is what was read of the first
one already, last character first. -/
def components (start : List Char) : List Char → List String
  | [] => [String.ofList start.reverse]
  | c :: rest =>
    if c = '/' then String.ofList start.reverse :: components [] rest
    else components (c :: start) rest

/-- The most bytes that a path may have. -/
def maxPath : Nat := 4095

/-- The place to which a path leads, whether or not something is there. The path starts at the
top if it starts with a slash. -/
def locate (t : FileTree) (start : List String) (path : String) :
    Except FileFault (List String) :=
  if path = "" then .error .noEntry
  else if path.utf8ByteSize > maxPath then .error .nameTooLong
  else (components [] path.toList).foldlM t.enter
    (if path.toList.head? = some '/' then [] else start)

end FileTree

structure Workspace where
  tree : FileTree
  /-- The directory in which a path starts. -/
  start : List String
  output : String := ""
  deriving Repr

namespace Workspace

def readFile (w : Workspace) (path : String) : Except FileError (List UInt8) :=
  match w.tree.locate w.start path with
  | .error fault => .error (.onPath "open" path fault)
  | .ok place =>
    match w.tree.find? place with
    | none => .error (.onPath "open" path .noEntry)
    | some (.directory _) => .error (.onPath "read" path .isDirectory)
    | some (.file bytes) => .ok bytes

/-- Change the contents of a file, which are absent if there is none. -/
def alter (w : Workspace) (path : String) (change : Option (List UInt8) → List UInt8) :
    Except FileError Workspace :=
  match w.tree.locate w.start path with
  | .error fault => .error (.onPath "open" path fault)
  | .ok place =>
    match w.tree.find? place with
    | none => .ok { w with tree := w.tree.put (change none) place }
    | some (.directory _) => .error (.onPath "open" path .isDirectory)
    | some (.file bytes) => .ok { w with tree := w.tree.put (change (some bytes)) place }

def writeFile (w : Workspace) (path : String) (bytes : List UInt8) :
    Except FileError Workspace :=
  w.alter path fun _ => bytes

/-- Make a file if it does not exist. -/
def touch (w : Workspace) (path : String) : Except FileError Workspace :=
  w.alter path (·.getD [])

/-- Take the outcome of a change, or stay as it was. -/
def commit (change : Workspace → Except FileError Workspace) :
    StateM Workspace (Except FileError Unit) := fun w =>
  match change w with
  | .ok w' => (.ok (), w')
  | .error e => (.error e, w)

instance : FileStore (StateM Workspace) where
  read path := fun w => (w.readFile path, w)
  write path bytes := commit (·.writeFile path bytes)
  Lock := Unit
  lock path := commit (·.touch path)
  unlock _ := fun w => (.ok (), w)
  print text := fun w => (.ok (), { w with output := w.output ++ text })

end Workspace
end Lowering
