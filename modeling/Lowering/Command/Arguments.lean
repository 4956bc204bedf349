/-!
# Command lines

A program says which commands it has, with their flags and actions, and a `CommandLine`
does the rest: it finds the command that the words of a command line call and its
arguments, reports the errors of actions, and knows the exit codes. What is assumed of it
is `CommandLine.Lawful`.

In the standard one flags may stand anywhere among the arguments of a command. A flag's
name follows one or two dashes. It takes a value, which stands in the same argument after
an equals sign or a blank, or else is the next argument. If a flag is given more than
once, the last value counts. Two dashes on their own end the flags.
-/

namespace Lowering

/-- A flag with its names and the value it has when it is not given. -/
structure Flag where
  names : List String
  default : String
  deriving DecidableEq, Repr

/-- The arguments of a command: the values given to flags, in order, and the rest. -/
structure Arguments where
  values : List (Flag × String) := []
  operands : List String := []
  deriving DecidableEq, Repr

/-- The value of a flag. -/
def Arguments.value (a : Arguments) (flag : Flag) : String :=
  (a.values.reverse.lookup flag).getD flag.default

/-- A command of a program. -/
structure CommandSpec (α : Type) where
  name : String
  flags : List Flag
  action : α

/-- What is used of a library for command lines. -/
structure CommandLine where
  /-- The command that words call, with its arguments, or what is wrong with the words. Without
  words there may be none. -/
  call : {α : Type} → List (CommandSpec α) → List String →
    Except String (Option (CommandSpec α × Arguments))
  /-- The text that reports an error of the named command. -/
  report : String → String → String
  exitCode : (failed : Bool) → UInt32

/-- A program that ends with an error exits with one, and with zero otherwise. -/
structure CommandLine.Lawful (lib : CommandLine) : Prop where
  exitCode_ok : lib.exitCode false = 0
  exitCode_failed : lib.exitCode true = 1

/-- What is wrong with a flag, and the whole argument that names it. -/
inductive FlagError where
  | noSuchFlag (arg : String)
  | valueRequired (arg : String)
  deriving DecidableEq, Repr

def FlagError.message : FlagError → String
  | .noSuchFlag arg => "parse flag: " ++ arg ++ ": no such flag"
  | .valueRequired arg => "parse flag: " ++ arg ++ ": flag value is required"

namespace Arguments

/-- Whether an argument names a flag. Dashes on their own, one or two, name none. -/
def isFlag (arg : String) : Bool :=
  arg.toList.head? = some '-' && arg ≠ "-" && arg ≠ "--"

/-- The part of an argument before the first equals sign or blank, and the part after it,
if there is one. -/
def splitValue (arg : String) : String × Option String :=
  match arg.toList.span fun c => c ≠ '=' && c ≠ ' ' with
  | (name, []) => (String.ofList name, none)
  | (name, _ :: value) => (String.ofList name, some (String.ofList value))

/-- A flag's name without the dashes in front of it. -/
def undashed (arg : String) : String :=
  match arg.toList with
  | '-' :: '-' :: name => String.ofList name
  | '-' :: name => String.ofList name
  | _ => arg

/-- The flag that an argument without its value names. -/
def find? (flags : List Flag) (arg : String) : Option Flag :=
  flags.find? (·.names.contains (undashed arg))

def addValue (flag : Flag) (value : String) (a : Arguments) : Arguments :=
  { a with values := (flag, value) :: a.values }

def addOperand (operand : String) (a : Arguments) : Arguments :=
  { a with operands := operand :: a.operands }

/-- Sort arguments into flags and operands. -/
def parse (flags : List Flag) : List String → Except FlagError Arguments
  | [] => .ok {}
  | arg :: rest =>
    if arg = "--" then .ok { operands := rest }
    else if isFlag arg then
      match find? flags (splitValue arg).1, (splitValue arg).2, rest with
      | none, _, _ => .error (.noSuchFlag arg)
      | some flag, some value, rest => (parse flags rest).map (addValue flag value)
      | some _, none, [] => .error (.valueRequired arg)
      | some flag, none, value :: rest => (parse flags rest).map (addValue flag value)
    else (parse flags rest).map (addOperand arg)

end Arguments

namespace CommandLine

/-- The command that the first word names, with the other words as its arguments. -/
def find {α : Type} (commands : List (CommandSpec α)) :
    List String → Except String (Option (CommandSpec α × Arguments))
  | [] => .ok none
  | word :: rest =>
    match commands.find? (·.name = word) with
    | some command =>
      match Arguments.parse command.flags rest with
      | .ok args => .ok (some (command, args))
      | .error error => .error (word ++ ": " ++ error.message)
    | none =>
      if Arguments.isFlag word then .error (FlagError.noSuchFlag word).message
      else .error ("no args expected, got " ++ word)

def standard : CommandLine where
  call := find
  report command error := command ++ ": " ++ error
  exitCode failed := if failed then 1 else 0

theorem lawful_standard : standard.Lawful := ⟨rfl, rfl⟩

end CommandLine
end Lowering
