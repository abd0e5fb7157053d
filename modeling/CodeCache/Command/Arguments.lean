import CodeCache.Text.Split

/-!
# Arguments of the program

The program is called with the name of a command, an operand, and options. Options start with
hyphens; behind a double hyphen on its own everything is an operand. Help is shown as soon as it is
asked for, and any argument that makes no sense before that is a usage error.
-/

namespace CodeCache

inductive CommandName where
  | print
  | printOpt
  | merge
  | stats
  deriving DecidableEq, Repr

namespace CommandName

def all : List CommandName :=
  [print, printOpt, merge, stats]

def name : CommandName → String
  | print => "print"
  | printOpt => "print-opt"
  | merge => "merge"
  | stats => "stats"

def ofName? (s : String) : Option CommandName :=
  all.find? (·.name == s)

end CommandName

inductive Command where
  | print (file : String) (json : Bool)
  | printOpt (file : String)
  | merge (options : String) (identity : Option String)
  | stats (file : String)
  deriving DecidableEq, Repr

inductive Request where
  | run (command : Command)
  | help (topic : Option CommandName)
  | helpOnHelp
  | version
  deriving DecidableEq, Repr

namespace Request

/-- What a cluster of one-letter options asks for: nothing but verbosity, or help or the version.
There is no answer if a letter is unknown. -/
def ofLetters? (topic : Option CommandName) : List Char → Option (Option Request)
  | [] => some none
  | 'v' :: letters => ofLetters? topic letters
  | 'h' :: _ => some (some (help topic))
  | 'V' :: _ => if topic.isNone then some (some version) else none
  | _ :: _ => none

structure Given where
  operand : Option String := none
  json : Bool := false
  identity : Option String := none

def Given.command? (given : Given) : CommandName → Option Command
  | .print => given.operand.map (.print · given.json)
  | .printOpt => given.operand.map .printOpt
  | .merge => given.operand.map (.merge · given.identity)
  | .stats => given.operand.map .stats

def Given.addOperand? (given : Given) (command : CommandName) (arg : String) : Option Given :=
  if given.operand.isSome || (arg.isEmpty && command != .merge) then none
  else some { given with operand := some arg }

def Given.addIdentity? (given : Given) (command : CommandName) (value : String) : Option Given :=
  if given.identity.isSome || command != .merge then none
  else some { given with identity := some value }

def Given.addJson? (given : Given) (command : CommandName) : Option Given :=
  if given.json || command != .print then none else some { given with json := true }

/-- Whether an argument is an option. A single hyphen is an operand. -/
def isOption (arg : String) : Bool :=
  arg.startsWith "-" && arg != "-"

def readOperands (command : CommandName) : Given → List String → Option Request
  | given, [] => run <$> given.command? command
  | given, arg :: args => do readOperands command (← given.addOperand? command arg) args

def readCommand (command : CommandName) : Given → List String → Option Request
  | given, [] => run <$> given.command? command
  | given, arg :: args =>
    match arg with
    | "--" => readOperands command given args
    | "--help" => some (help (some command))
    | "--verbose" => readCommand command given args
    | "--json" => do readCommand command (← given.addJson? command) args
    | "--identity" =>
      match args with
      | [] => none
      | value :: args =>
        if isOption value then none
        else do readCommand command (← given.addIdentity? command value) args
    | arg =>
      if arg.startsWith "--" then
        match Split.cut? '=' arg with
        | some ("--identity", value) => do
          readCommand command (← given.addIdentity? command value) args
        | _ => none
      else if isOption arg then
        match ofLetters? (some command) (arg.toList.drop 1) with
        | none => none
        | some (some request) => some request
        | some none => readCommand command given args
      else do readCommand command (← given.addOperand? command arg) args

def readTopic : List String → Option Request
  | [] => some (help none)
  | ["help"] => some helpOnHelp
  | [name] => (CommandName.ofName? name).map fun command => help (some command)
  | _ => none

def ofArguments? : List String → Option Request
  | [] => none
  | arg :: args =>
    match arg with
    | "--help" => some (help none)
    | "--version" => some version
    | "--verbose" => ofArguments? args
    | "help" => readTopic args
    | arg =>
      if arg.startsWith "--" then none
      else if isOption arg then
        match ofLetters? none (arg.toList.drop 1) with
        | none => none
        | some (some request) => some request
        | some none => ofArguments? args
      else
        match CommandName.ofName? arg with
        | some command => readCommand command {} args
        | none => none

end Request

end CodeCache
