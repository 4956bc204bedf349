import Lowering.Command.Run

/-!
# The command line
-/

namespace Lowering

/-- Whether an error has the given code, which may come with either sign. -/
def hasCode (expected code : UInt32) : Bool := code = expected || code = 0 - expected

/-- What an error of the operating system says about a file. -/
def FileFault.ofError (error : IO.Error) : FileFault :=
  match error with
  | .noFileOrDirectory .. => .noEntry
  | .inappropriateType _ code _ => if hasCode 20 code then .notDirectory else .isDirectory
  | .invalidArgument _ code _ =>
    if hasCode 36 code then .nameTooLong else .other (toString error)
  | _ => .other (toString error)

/-- Run an action on files, with its error as an outcome. -/
def attempt {α : Type} (wrap : FileFault → FileError) (action : IO α) :
    IO (Except FileError α) := do
  try
    return .ok (← action)
  catch error =>
    return .error (wrap (.ofError error))

/-- A file that cannot be read could not be opened, unless it is a directory. -/
def readError (path : String) (fault : FileFault) : FileError :=
  .onPath (if fault = .isDirectory then "read" else "open") path fault

instance : FileStore IO where
  read path := do
    return (← attempt (readError path) (IO.FS.readBinFile path)).map (·.toList)
  write path bytes :=
    attempt (.onPath "open" path) (IO.FS.writeBinFile path ⟨bytes.toArray⟩)
  Lock := IO.FS.Handle
  lock path := do
    match ← attempt (.onPath "open" path) (IO.FS.Handle.mk path .append) with
    | .error error => return .error error
    | .ok handle => return (← attempt .onOpen handle.lock).map fun _ => handle
  unlock handle := attempt .onOpen handle.unlock
  print text := attempt (.onPath "write" "/dev/stdout") do (← IO.getStdout).putStr text

end Lowering

def main (args : List String) : IO UInt32 := do
  let ending ← (Lowering.Command.run .standard args : IO Lowering.Ending)
  if let some report := ending.report then
    IO.eprintln ("error: " ++ report)
  return ending.code
