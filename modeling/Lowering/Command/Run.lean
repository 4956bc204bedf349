import Lowering.Command.Arguments
import Lowering.Command.Files
import Lowering.Compile
import Lowering.Expr.Record

/-!
# Commands

`check` reads programs and shows them. `compile` compiles programs, each on its own, and
puts out their listings one after the other. It writes nothing unless all of them compile.
-/

namespace Lowering

/-- Why a command fails. -/
inductive CommandError where
  | checkRead (file : String) (error : FileError)
  | checkDecode (file : String) (failure : DecodeFailure)
  | dispatch (error : Dispatch.Unknown)
  | compileRead (file : String) (error : FileError)
  | compileFile (file : String) (failure : CompileFailure)
  | print (error : FileError)
  | lock (error : FileError)
  | write (error : FileError)
  | unlock (error : FileError)
  deriving DecidableEq, Repr

def CommandError.message : CommandError → String
  | .checkRead file error => "read " ++ file ++ ": " ++ error.message
  | .checkDecode file failure => "decode " ++ file ++ ": " ++ failure.message
  | .dispatch error => "dispatch flag: " ++ error.message
  | .compileRead file error => "compile " ++ file ++ ": read file: " ++ error.message
  | .compileFile file failure => "compile " ++ file ++ ": " ++ failure.message
  | .print error => error.message
  | .lock error => "lock: " ++ error.message
  | .write error => "write: " ++ error.message
  | .unlock error => "unlock: " ++ error.message

/-- How a program ends: its exit code and the error that it reports, if any. -/
structure Ending where
  code : UInt32
  report : Option String
  deriving DecidableEq, Repr

namespace Command

variable {m : Type → Type} [Monad m] [FileStore m]

def dispatchFlag : Flag := ⟨["dispatch"], "position"⟩

def outputFlag : Flag := ⟨["output", "o"], ""⟩

/-- An outcome that needs nothing of the world. -/
def ofExcept {α : Type} (x : Except CommandError α) : ExceptT CommandError m α :=
  ExceptT.mk (pure x)

/-- The outcome of an operation on files, with its error as one of the command. -/
def onFile {α : Type} (wrap : FileError → CommandError) (x : m (Except FileError α)) :
    ExceptT CommandError m α :=
  ExceptT.mk do return (← x).mapError wrap

/-- Show the programs in the files, up to the first file that holds none. Whether they could be
printed is not looked at. -/
def check : List String → ExceptT CommandError m Unit
  | [] => return ()
  | file :: rest => do
    let bytes ← onFile (.checkRead file) (FileStore.read file)
    let p ← ofExcept ((Program.ofBytes bytes).mapError (.checkDecode file))
    let _ ← ExceptT.lift (FileStore.print ("ast: " ++ p.recordForm ++ "\n"))
    check rest

/-- The listings of the programs in the files, one after the other. -/
def listings (mode : Dispatch) : List String → ExceptT CommandError m String
  | [] => return ""
  | file :: rest => do
    let bytes ← onFile (.compileRead file) (FileStore.read file)
    let text ← ofExcept ((Lowering.compile mode bytes).mapError (.compileFile file))
    let others ← listings mode rest
    return text ++ others

/-- The outcome of writing under a lock: an error of unlocking counts if there is no other. -/
def underLock (written unlocked : Except FileError Unit) : Except CommandError Unit :=
  match written, unlocked with
  | .error error, _ => .error (.write error)
  | .ok (), .error error => .error (.unlock error)
  | .ok (), .ok () => .ok ()

/-- Write a file while holding the lock that is named for it. -/
def writeLocked (file : String) (bytes : List UInt8) : ExceptT CommandError m Unit := do
  let held ← onFile .lock (FileStore.lock (file ++ ".lock"))
  let written ← ExceptT.lift (FileStore.write file bytes)
  let unlocked ← ExceptT.lift (FileStore.unlock held)
  ofExcept (underLock written unlocked)

/-- Print a text, or write it to the file `output` if that has a name. -/
def putOut (output text : String) : ExceptT CommandError m Unit :=
  if output = "" then onFile .print (FileStore.print text)
  else writeLocked output (Utf8.encode text.toList)

/-- Compile the programs in the files and put out their listings. -/
def compile (args : Arguments) : ExceptT CommandError m Unit := do
  let mode ← ofExcept ((Dispatch.parse (args.value dispatchFlag)).mapError .dispatch)
  let text ← listings mode args.operands
  putOut (args.value outputFlag) text

def checkSpec : CommandSpec (Arguments → ExceptT CommandError m Unit) :=
  ⟨"check", [], fun args => check args.operands⟩

def compileSpec : CommandSpec (Arguments → ExceptT CommandError m Unit) :=
  ⟨"compile", [dispatchFlag, outputFlag], compile⟩

/-- How a program ends with the given report of an error, if any. -/
def ending (lib : CommandLine) (report : Option String) : Ending :=
  ⟨lib.exitCode report.isSome, report⟩

/-- Run the command that the words call. -/
def run (lib : CommandLine) (words : List String) : m Ending :=
  match lib.call [checkSpec, compileSpec] words with
  | .error report => return ending lib (some report)
  | .ok none => return ending lib none
  | .ok (some (command, args)) => do
    match ← (command.action args).run with
    | .ok () => return ending lib none
    | .error error => return ending lib (some (lib.report command.name error.message))

end Command
end Lowering
