/-!
Requests: what the arguments of the program ask for. Options may stand anywhere, short ones may be
joined, and behind `--` everything is an operand.
-/

namespace LispIndex.CommandLine

inductive Command where
  | summary (files : List String) (asJson : Bool)
  | symbol (name : String) (files : List String)
  | scopes (file : String)
deriving DecidableEq

inductive Request where
  | run (config : Option String) (command : Command)
  | help
  | version
deriving DecidableEq

inductive CommandName where
  | summary
  | symbol
  | scopes
deriving DecidableEq

structure Level where
  config : Option String := none
  asJson : Bool := false
  /-- Latest first. -/
  operands : List String := []
deriving DecidableEq

inductive Progress where
  | more (level : Level)
  | needsConfig (level : Level)
  | onlyOperands (level : Level)
  | answered (request : Request)
  | wrong
deriving DecidableEq

inductive Flag where
  | json
  | help
  | version
deriving DecidableEq

/-- The flags are those of one level: there is a version before the command only, and `json` only
behind `summary`. -/
def allows (command : Option CommandName) : Flag → Bool
  | .json => command == some .summary
  | .help => true
  | .version => command.isNone

namespace Progress

/-- A path is not empty, and one configuration is given at most once a level. -/
def setConfig (level : Level) (path : String) : Progress :=
  if path = "" || level.config.isSome then .wrong else .more { level with config := some path }

def setFlag (command : Option CommandName) (level : Level) (flag : Flag) : Progress :=
  if !allows command flag then .wrong
  else
    match flag with
    | .json => if level.asJson then .wrong else .more { level with asJson := true }
    | .help => .answered .help
    | .version => .answered .version

def mayTake (command : CommandName) (count : Nat) : Bool :=
  match command with
  | .scopes => count == 0
  | _ => true

/-- Every operand is a path, but for the name of a symbol. -/
def addOperand (command : CommandName) (level : Level) (operand : String) : Option Level :=
  let isName := command == .symbol && level.operands.isEmpty
  if !mayTake command level.operands.length || (operand = "" && !isName) then none
  else some { level with operands := operand :: level.operands }

def readShort (command : Option CommandName) (level : Level) : List Char → Progress
  | [] => .more level
  | 'c' :: [] => .needsConfig level
  | 'c' :: '=' :: value => setConfig level (String.ofList value)
  | 'c' :: value => setConfig level (String.ofList value)
  | c :: rest =>
    let flag := if c = 'j' then some Flag.json else if c = 'h' then some .help
      else if c = 'V' then some .version else none
    match flag.map (setFlag command level) with
    | some (.more level) => readShort command level rest
    | some progress => progress
    | none => .wrong

def readLong (command : Option CommandName) (level : Level) (option : List Char) : Progress :=
  let name := String.ofList (option.takeWhile (· != '='))
  match option.dropWhile (· != '=') with
  | _ :: value => if name = "config" then setConfig level (String.ofList value) else .wrong
  | [] =>
    if name = "config" then .needsConfig level
    else if name = "json" then setFlag command level .json
    else if name = "help" then setFlag command level .help
    else if name = "version" then setFlag command level .version
    else .wrong

def readOption? (command : Option CommandName) (level : Level) (argument : String) :
    Option Progress :=
  match argument.toList with
  | ['-', '-'] => some (.onlyOperands level)
  | '-' :: '-' :: option => some (readLong command level option)
  | '-' :: c :: rest => some (readShort command level (c :: rest))
  | _ => none

def isOption (argument : String) : Bool :=
  match argument.toList with
  | '-' :: _ :: _ => true
  | _ => false

end Progress

def finish (outer : Level) (command : CommandName) (level : Level) : Option Request :=
  let config := level.config.or outer.config
  match command, level.operands.reverse with
  | .summary, files => some (.run config (.summary files level.asJson))
  | .symbol, name :: files => some (.run config (.symbol name files))
  | .scopes, [file] => some (.run config (.scopes file))
  | _, _ => none

def readBehind (outer : Level) (command : CommandName) : Progress → List String → Option Request
  | .answered request, _ => some request
  | .more level, [] => finish outer command level
  | .onlyOperands level, [] => finish outer command level
  | .onlyOperands level, argument :: rest =>
    match Progress.addOperand command level argument with
    | some level => readBehind outer command (.onlyOperands level) rest
    | none => none
  | .needsConfig level, argument :: rest =>
    if Progress.isOption argument then none
    else readBehind outer command (Progress.setConfig level argument) rest
  | .more level, argument :: rest =>
    match Progress.readOption? (some command) level argument with
    | some progress => readBehind outer command progress rest
    | none =>
      match Progress.addOperand command level argument with
      | some level => readBehind outer command (.more level) rest
      | none => none
  | _, _ => none

def commandName? (word : String) : Option CommandName :=
  if word = "summary" then some .summary
  else if word = "symbol" then some .symbol
  else if word = "scopes" then some .scopes
  else none

def readHelp : List String → Option Request
  | [] => some .help
  | [word] => if word = "help" || (commandName? word).isSome then some .help else none
  | _ => none

def readBefore : Progress → List String → Option Request
  | .answered request, _ => some request
  | .needsConfig level, argument :: rest =>
    if Progress.isOption argument then none
    else readBefore (Progress.setConfig level argument) rest
  | .more level, argument :: rest =>
    match Progress.readOption? none level argument with
    | some progress => readBefore progress rest
    | none =>
      if argument = "help" then readHelp rest
      else (commandName? argument).bind fun command => readBehind level command (.more {}) rest
  | _, _ => none

def Request.ofArguments? (arguments : List String) : Option Request :=
  readBefore (.more {}) arguments

end LispIndex.CommandLine
