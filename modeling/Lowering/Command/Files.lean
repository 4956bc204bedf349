/-!
# Files

Commands read, write and lock files and print through a `FileStore`. What is assumed of one
is `FileStore.Lawful`.
-/

namespace Lowering

inductive FileFault where
  | noEntry
  | isDirectory
  | notDirectory
  | nameTooLong
  | other (text : String)
  deriving DecidableEq, Repr

def FileFault.message : FileFault → String
  | .noEntry => "no such file or directory"
  | .isDirectory => "is a directory"
  | .notDirectory => "not a directory"
  | .nameTooLong => "file name too long"
  | .other text => text

/-- An operation that failed. -/
inductive FileError where
  | onPath (operation path : String) (fault : FileFault)
  /-- The operation was on a file that is open already. -/
  | onOpen (fault : FileFault)
  deriving DecidableEq, Repr

def FileError.message : FileError → String
  | .onPath operation path fault => operation ++ " " ++ path ++ ": " ++ fault.message
  | .onOpen fault => fault.message

/-- What commands need of the world. -/
class FileStore (m : Type → Type) where
  read : String → m (Except FileError (List UInt8))
  /-- Replace the contents of a file, which is made if it does not exist. -/
  write : String → List UInt8 → m (Except FileError Unit)
  /-- A lock that is held. -/
  Lock : Type
  /-- Take the lock of the file with the given name. -/
  lock : String → m (Except FileError Lock)
  unlock : Lock → m (Except FileError Unit)
  print : String → m (Except FileError Unit)

/-- What paths can be read to. -/
abbrev Contents := String → Except FileError (List UInt8)

/-- What is assumed of a world `σ` with files: `contents` is what is in them, and `printed` is
what was printed so far. -/
structure FileStore.Lawful {σ : Type} [FileStore (StateM σ)]
    (contents : σ → Contents) (printed : σ → String) : Prop where
  /-- Reading leaves the world as it is. -/
  read_eq (path : String) (s : σ) : (read path : StateM σ _) s = (contents s path, s)
  contents_write {path : String} {bytes : List UInt8} {s t : σ}
    (h : (write path bytes : StateM σ _) s = (.ok (), t)) : contents t path = .ok bytes
  printed_write (path : String) (bytes : List UInt8) (s : σ) :
    printed ((write path bytes : StateM σ _) s).2 = printed s
  printed_lock (path : String) (s : σ) : printed ((lock path : StateM σ _) s).2 = printed s
  /-- A lock is no part of what files hold. -/
  contents_unlock (held : Lock (StateM σ)) (s : σ) :
    contents ((unlock held : StateM σ _) s).2 = contents s
  printed_unlock (held : Lock (StateM σ)) (s : σ) :
    printed ((unlock held : StateM σ _) s).2 = printed s
  printed_print {text : String} {s t : σ} (h : (print text : StateM σ _) s = (.ok (), t)) :
    printed t = printed s ++ text
  contents_print (text : String) (s : σ) :
    contents ((print text : StateM σ _) s).2 = contents s

end Lowering
