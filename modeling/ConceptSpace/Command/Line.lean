import ConceptSpace.Text.Numeral
import ConceptSpace.Text.Whitespace

/-!
# Command lines

The arguments of a program run as an invocation: which space, where it is kept, and what to do. The
commands form levels, `data set` being on the third one. The options for the space may stand on any
level, before or after the command, and a deeper level decides over the ones above it.

Arguments are taken from left to right, and the first that does not fit ends the reading.
-/

namespace ConceptSpace.Command

/-- Why a command line is no invocation. -/
inductive Refusal where
  /-- The arguments do not fit. -/
  | usage
  /-- The user asked for help. -/
  | help
  /-- The user asked for the version. -/
  | version
  deriving DecidableEq, Repr

/-! ## One level -/

/-- What a level takes. -/
structure Level where
  /-- The options with a value that may be given once, next to those for the space. -/
  single : List String := []
  /-- The options with a value that may be given several times. -/
  repeated : List String := []
  /-- The greatest number of words; without it there is no limit. -/
  words : Option Nat := some 0
  /-- Whether a word is a command, which a deeper level follows. -/
  commands : Bool := false
  /-- Whether the version may be asked for. -/
  version : Bool := false

/-- What was found on a level. -/
structure Found where
  /-- The options with their values, in order. -/
  values : List (String × String) := []
  /-- Whether the space is to be in memory. -/
  memory : Bool := false
  /-- The words, in order. -/
  words : List String := []
  /-- The command, with the arguments behind it. -/
  command : Option (String × List String) := none

/-- The option that names the space. -/
def spaceOption : String := "space"

/-- The option that names the directory of all spaces. -/
def dataDirOption : String := "data-dir"

/-- The option without a value that keeps the space in memory. -/
def memoryOption : String := "memory"

/-- The option that names a file to read. -/
def fileOption : String := "file"

/-- The option that gives a variable a value. -/
def varOption : String := "var"

/-- The option for the key to start from. -/
def startOption : String := "start"

/-- The option for the key to stop before. -/
def stopOption : String := "end"

/-- The option for the greatest number of facts. -/
def limitOption : String := "limit"

/-- The variable and the source text in an argument of the form `name=text`. The dollar sign of the
variable may be left out. -/
def binding? (argument : String) : Option (String × String) :=
  match argument.toList.span (· ≠ '=') with
  | (name, _ :: value) =>
    match Text.trim name with
    | [] => none
    | '$' :: cs => some (String.ofList ('$' :: cs), String.ofList value)
    | cs => some (String.ofList ('$' :: cs), String.ofList value)
  | _ => none

/-- Whether a value fits its option. -/
def fits (option value : String) : Bool :=
  if option = limitOption then (Text.word? value.toList).isSome
  else if option = varOption then (binding? value).isSome
  else if option = dataDirOption ∨ option = fileOption then !value.isEmpty
  else true

/-- Whether an argument has the form of an option. -/
def isOption (argument : String) : Bool :=
  match argument.toList with
  | '-' :: _ :: _ => true
  | _ => false

/-- The name in a long option, and the value behind an equals sign. -/
def splitOption (cs : List Char) : String × Option String :=
  match cs.span (· ≠ '=') with
  | (name, _ :: value) => (String.ofList name, some (String.ofList value))
  | (name, []) => (String.ofList name, none)

namespace Level

/-- Whether the options with a value include one. -/
def takesValue (level : Level) (option : String) : Bool :=
  option == spaceOption || option == dataDirOption || level.single.contains option ||
    level.repeated.contains option

/-- Takes over a value of an option. -/
def addValue (level : Level) (found : Found) (option value : String) : Except Refusal Found :=
  let again := !level.repeated.contains option && found.values.any (·.1 == option)
  if again || !fits option value then .error .usage
  else .ok { found with values := found.values ++ [(option, value)] }

/-- Takes over a word. -/
def addWord (level : Level) (found : Found) (word : String) : Except Refusal Found :=
  match level.words with
  | some limit =>
    if found.words.length < limit then .ok { found with words := found.words ++ [word] }
    else .error .usage
  | none => .ok { found with words := found.words ++ [word] }

/-- Takes over arguments behind `--`, which are words whatever they look like. -/
def addWords (level : Level) (found : Found) (words : List String) : Except Refusal Found :=
  words.foldlM level.addWord found

/-- What an option without a value asks for. -/
def addFlag (level : Level) (found : Found) (option : String) : Except Refusal Found :=
  if option = memoryOption then
    if found.memory then .error .usage else .ok { found with memory := true }
  else if option = "help" then .error .help
  else if option = "version" ∧ level.version then .error .version
  else .error .usage

/-- What an option of one dash asks for. -/
def shortOption (level : Level) : List Char → Refusal
  | 'h' :: _ => .help
  | 'V' :: _ => if level.version then .version else .usage
  | _ => .usage

/-- Reads the arguments of a level, up to its command if it has commands. -/
def read (level : Level) (found : Found) : List String → Except Refusal Found
  | [] => .ok found
  | argument :: more =>
    match argument.toList with
    | ['-', '-'] => level.addWords found more
    | '-' :: '-' :: cs =>
      let (option, attached) := splitOption cs
      if level.takesValue option then
        match attached with
        | some value => do level.read (← level.addValue found option value) more
        | none =>
          match more with
          | [] => .error .usage
          | value :: rest =>
            if isOption value then .error .usage
            else do level.read (← level.addValue found option value) rest
      else if attached.isSome then .error .usage
      else do level.read (← level.addFlag found option) more
    | '-' :: c :: cs => .error (level.shortOption (c :: cs))
    | _ =>
      if level.commands then .ok { found with command := some (argument, more) }
      else do level.read (← level.addWord found argument) more

end Level

/-! ## Invocations -/

/-- What to do with the text attached to a fact. -/
inductive DataAction where
  /-- Attaches a text. -/
  | set (key text : String)
  /-- Shows the text. -/
  | get (key : String)
  /-- Deletes the text. -/
  | remove (key : String)
  deriving DecidableEq, Repr

/-- What to do. -/
inductive Action where
  /-- Adds what source texts and files state, with values put in for variables. -/
  | add (sources files : List String) (vars : List (String × String))
  /-- Removes concepts. -/
  | remove (sources : List String)
  /-- Shows one fact. -/
  | get (key : String)
  /-- Lists facts. -/
  | list (start stop : Option String) (limit : Option Nat)
  /-- Lists the facts around a concept. -/
  | contexts (source : String)
  /-- Answers rules, with values put in for variables. -/
  | answer (rules : List String) (vars : List (String × String))
  /-- Works on the text attached to a fact. -/
  | data (action : DataAction)
  /-- Lists the triggers. -/
  | triggers
  /-- Summarizes the space. -/
  | info
  /-- Deletes everything. -/
  | reset
  /-- Lists the spaces. -/
  | spaces
  deriving DecidableEq, Repr

/-- What to do, and with which space. -/
structure Invocation where
  /-- The name of the space. -/
  space : String := "default"
  /-- The directory of all spaces, if it is not the usual one. -/
  dataDir : Option String := none
  /-- Whether the space is in memory only. -/
  memory : Bool := false
  /-- What to do. -/
  action : Action
  deriving DecidableEq, Repr

/-- The last value of an option, the deepest level first. -/
def lastValue? (levels : List Found) (option : String) : Option String :=
  levels.findSome? fun found => (found.values.find? (·.1 == option)).map (·.2)

/-- All values of an option. -/
def allValues (found : Found) (option : String) : List String :=
  (found.values.filter (·.1 == option)).map (·.2)

/-- The variables that are given values. -/
def allBindings (found : Found) : List (String × String) :=
  (allValues found varOption).filterMap binding?

/-- What a command takes, and the action that it stands for once its arguments are read. -/
structure Form where
  /-- What its level takes. -/
  level : Level := {}
  /-- The action; there is none if words are missing. -/
  action? : Found → Option Action

/-- The form of a command on the second level. -/
def form? (command : String) : Option Form :=
  if command = "add" then
    some {
      level := { repeated := [fileOption, varOption], words := none }
      action? := fun found => some (.add found.words (allValues found fileOption)
        (allBindings found)) }
  else if command = "remove" then
    some { level := { words := none }, action? := fun found => some (.remove found.words) }
  else if command = "get" then
    some { level := { words := some 1 }, action? := fun found => found.words.head?.map .get }
  else if command = "list" then
    some {
      level := { single := [startOption, stopOption, limitOption] }
      action? := fun found => some (.list (lastValue? [found] startOption)
        (lastValue? [found] stopOption)
        ((lastValue? [found] limitOption).bind fun limit => Text.word? limit.toList)) }
  else if command = "contexts" then
    some { level := { words := some 1 }, action? := fun found => found.words.head?.map .contexts }
  else if command = "match" then
    some {
      level := { repeated := [varOption], words := none }
      action? := fun found => some (.answer found.words (allBindings found)) }
  else if command = "triggers" then some { action? := fun _ => some .triggers }
  else if command = "info" then some { action? := fun _ => some .info }
  else if command = "reset" then some { action? := fun _ => some .reset }
  else if command = "spaces" then some { action? := fun _ => some .spaces }
  else none

/-- The form of a command behind `data`. -/
def dataForm? (command : String) : Option Form :=
  if command = "set" then
    some {
      level := { words := some 2 }
      action? := fun found =>
        match found.words with
        | [key, text] => some (.data (.set key text))
        | _ => none }
  else if command = "get" then
    some {
      level := { words := some 1 }
      action? := fun found => found.words.head?.map fun key => .data (.get key) }
  else if command = "remove" then
    some {
      level := { words := some 1 }
      action? := fun found => found.words.head?.map fun key => .data (.remove key) }
  else none

/-- Whether names lead to a command behind `data`. `help` counts as a command on each level. -/
def isDataTopic : List String → Bool
  | [] => true
  | [name] => name == "help" || (dataForm? name).isSome
  | _ => false

/-- Whether names lead to something that there is help on: the program, or a command. -/
def isTopic : List String → Bool
  | [] => true
  | "data" :: names => isDataTopic names
  | [name] => name == "help" || (form? name).isSome
  | _ => false

/-- Why a level whose command is `help` gives no invocation. All arguments behind it are names, also
those in the form of an option. -/
def helpRefusal (topicFound : Bool) : Refusal :=
  if topicFound then .help else .usage

/-- The invocation of a command, whose level lies below others. -/
def finish (form : Option Form) (above : List Found) (arguments : List String) :
    Except Refusal Invocation :=
  match form with
  | none => .error .usage
  | some form => do
    let found ← form.level.read {} arguments
    let levels := found :: above
    match form.action? found with
    | none => .error .usage
    | some action =>
      return {
        space := (lastValue? levels spaceOption).getD "default"
        dataDir := lastValue? levels dataDirOption
        memory := levels.any (·.memory)
        action }

/-- The invocation that the arguments of a program run state. -/
def invocation (arguments : List String) : Except Refusal Invocation := do
  let top ← Level.read { commands := true, version := true } {} arguments
  match top.command with
  | none => .error .usage
  | some ("help", names) => .error (helpRefusal (isTopic names))
  | some ("data", more) =>
    let data ← Level.read { commands := true } {} more
    match data.command with
    | none => .error .usage
    | some ("help", names) => .error (helpRefusal (isDataTopic names))
    | some (command, more) => finish (dataForm? command) [data, top] more
  | some (command, more) => finish (form? command) [top] more

end ConceptSpace.Command
