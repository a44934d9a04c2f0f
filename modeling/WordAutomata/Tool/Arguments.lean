import WordAutomata.Log
import WordAutomata.Text.Lines
import WordAutomata.Text.Natural

/-!
# Arguments

The arguments of the command line, read from left to right. First come
options for the tool, then the name of a command, then the arguments and
options of the command. The options of the tool may also stand after the
command's name, and then count there once more. Two dashes alone end the
options.

Options have a long name, some a short one as well. Short names may be run
together. Those that take a value have it attached, with or without an equals
sign, or in the next argument, which must not look like an option. A list is a
value with commas, and an option with a list may be repeated. No other option
may, on the same side of the command's name.

Asking for help ends the reading, so nothing wrong after it is found. Help can
be asked for by an option or as if it were a command, and then the name of one
command may follow.

## Main definitions

* `Tool.Flag`, `Tool.Setting`: Options without and with a value.
* `Tool.Command`: The commands.
* `Tool.Arguments`: All that was given.
* `Tool.Arguments.read`: Reading the arguments.
-/

namespace WordAutomata

namespace Tool

/-- An option without a value. -/
inductive Flag where
  | version
  | quiet
  | verbose
  | debug
  | trace
  | timings
  /-- To determinize before words are read. -/
  | determinize
  | help
deriving DecidableEq

/-- An option with a value. -/
inductive Setting where
  /-- The labels that are silent. -/
  | epsilon
  /-- The accept states. -/
  | accept
deriving DecidableEq

/-- A command of the tool. -/
inductive Command where
  | info
  | accepts
  | determinize
deriving DecidableEq

/-- An option of either kind. -/
inductive NamedOption where
  | flag (f : Flag)
  | setting (s : Setting)

/-- Why arguments cannot be used. -/
inductive UsageError where
  | unknown (argument : String)
  | repeated (flag : Flag)
  | missingValue (setting : Setting)
  | unexpectedValue (argument : String)
  | invalidValue (value : String)
  | tooMany (argument : String)
  | missingFile

/-- Why the reading of arguments ends early. -/
inductive Stop where
  /-- Help is asked for. -/
  | help
  /-- Help is asked for as if it were a command, and what follows says on what. -/
  | helpOn
  | usage (e : UsageError)

/-- What was read so far. -/
structure Arguments where
  command : Option Command
  /-- The flags on the near side of the command's name. -/
  outer : List Flag
  /-- The flags on the side that is being read. -/
  flags : List Flag
  /-- The silent labels, if the option was given. -/
  silent : Option (List String)
  accepting : List Nat
  /-- The arguments that are no options, the last one first. -/
  operands : List String
  /-- The setting whose value comes next. -/
  pending : Option Setting
  /-- Whether the options have ended. -/
  ended : Bool

namespace Arguments

/-- Nothing read. -/
def empty : Arguments := ⟨none, [], [], none, [], [], none, false⟩

/-- Whether a flag was given on either side. -/
def has (a : Arguments) (f : Flag) : Bool := f ∈ a.outer || f ∈ a.flags

/-- The option with a long name, given the command whose name was read. -/
def long? : Option Command → String → Option NamedOption
  | _, "version" => some (.flag .version)
  | _, "quiet" => some (.flag .quiet)
  | _, "verbose" => some (.flag .verbose)
  | _, "debug" => some (.flag .debug)
  | _, "trace" => some (.flag .trace)
  | _, "timings" => some (.flag .timings)
  | _, "help" => some (.flag .help)
  | some _, "epsilon" => some (.setting .epsilon)
  | some .accepts, "accept" => some (.setting .accept)
  | some .determinize, "accept" => some (.setting .accept)
  | some .accepts, "determinize" => some (.flag .determinize)
  | _, _ => none

/-- The long name of an option that has a short one. -/
def longName : Char → String
  | 'q' => "quiet"
  | 'v' => "verbose"
  | 'd' => "debug"
  | 't' => "trace"
  | 'h' => "help"
  | 'e' => "epsilon"
  | 'a' => "accept"
  | _ => ""

/-- The command with a name. -/
def command? : String → Option Command
  | "info" => some .info
  | "accepts" => some .accepts
  | "determinize" => some .determinize
  | _ => none

/-- How many operands a command takes at most. -/
def capacity : Command → Option Nat
  | .info => some 1
  | .accepts => none
  | .determinize => some 2

/-- Adds a flag. Asking for help ends the reading. -/
def addFlag (a : Arguments) (f : Flag) : Except Stop Arguments :=
  if f = .help then .error .help
  else if f ∈ a.flags then .error (.usage (.repeated f))
  else .ok { a with flags := f :: a.flags }

/-- The pieces of a value between its commas. -/
def pieces (value : String) : List String :=
  (Text.cut ',' value.toList).map String.ofList

/-- Adds the value of a setting. -/
def addValue (a : Arguments) (s : Setting) (value : String) : Except Stop Arguments :=
  let a := { a with pending := none }
  match s with
  | .epsilon => .ok { a with silent := some (a.silent.getD [] ++ pieces value) }
  | .accept => do
    let states ← (pieces value).mapM fun piece =>
      (Text.readNatural piece.toList).mapError fun _ => Stop.usage (.invalidValue piece)
    return { a with accepting := a.accepting ++ states }

/-- Adds an argument that is no option. The first one names the command. -/
def addOperand (a : Arguments) (operand : String) : Except Stop Arguments :=
  match a.command with
  | none =>
    if a.ended then .error (.usage (.tooMany operand))
    else if operand = "help" then .error .helpOn
    else
      match command? operand with
      | none => .error (.usage (.unknown operand))
      | some command => .ok { a with command := some command, outer := a.flags, flags := [] }
  | some command =>
    if (capacity command).any fun n => n ≤ a.operands.length then
      .error (.usage (.tooMany operand))
    else .ok { a with operands := operand :: a.operands }

/-- Adds an option with a long name, and the value attached to it. -/
def addLong (a : Arguments) (name : String) (value? : Option String) : Except Stop Arguments :=
  match long? a.command name, value? with
  | none, _ => .error (.usage (.unknown name))
  | some (.flag f), none => a.addFlag f
  | some (.flag _), some _ => .error (.usage (.unexpectedValue name))
  | some (.setting s), none => .ok { a with pending := some s }
  | some (.setting s), some value => a.addValue s value

/-- A value attached to a short name, without the equals sign in front. -/
def attached : List Char → List Char
  | '=' :: value => value
  | value => value

/-- Adds options with short names that are run together. -/
def addShort (a : Arguments) : List Char → Except Stop Arguments
  | [] => .ok a
  | c :: rest =>
    match long? a.command (longName c), rest with
    | none, _ => .error (.usage (.unknown c.toString))
    | some (.flag f), _ =>
      match a.addFlag f with
      | .error e => .error e
      | .ok a => a.addShort rest
    | some (.setting s), [] => .ok { a with pending := some s }
    | some (.setting s), _ => a.addValue s (String.ofList (attached rest))

/-- Whether an argument looks like an option. A dash alone does not. -/
def looksLikeOption : List Char → Bool
  | ['-'] => false
  | '-' :: _ => true
  | _ => false

/-- Adds an argument that starts with two dashes, which come without them. -/
def addDashed (a : Arguments) (s : List Char) : Except Stop Arguments :=
  let name := String.ofList (s.takeWhile (· ≠ '='))
  match s.dropWhile (· ≠ '=') with
  | [] => a.addLong name none
  | _ :: value => a.addLong name (some (String.ofList value))

/-- Adds the next argument. -/
def add (a : Arguments) (argument : String) : Except Stop Arguments :=
  let s := argument.toList
  match a.pending with
  | some setting =>
    if looksLikeOption s then .error (.usage (.missingValue setting))
    else a.addValue setting argument
  | none =>
    if a.ended || !looksLikeOption s then a.addOperand argument
    else
      match s with
      | ['-', '-'] => .ok { a with ended := true }
      | '-' :: '-' :: s => a.addDashed s
      | _ => a.addShort s.tail

/-- The arguments after the last one was read. A setting must have got its value,
    and a command its file. -/
def finish (a : Arguments) : Except Stop Arguments :=
  match a.pending with
  | some s => .error (.usage (.missingValue s))
  | none =>
    if a.command.isSome && a.operands.isEmpty then .error (.usage .missingFile) else .ok a

/-- What comes of asking for help on a command. -/
def helpOn : List String → Stop
  | [] => .help
  | [name] =>
    if name = "help" || (command? name).isSome then .help else .usage (.unknown name)
  | _ :: name :: _ => .usage (.unknown name)

/-- Reads the arguments after those that were read before. -/
def readFrom (a : Arguments) : List String → Except Stop Arguments
  | [] => a.finish
  | argument :: rest =>
    match a.add argument with
    | .ok a => a.readFrom rest
    | .error .helpOn => .error (helpOn rest)
    | .error stop => .error stop

/-- Reads the arguments. -/
def read (arguments : List String) : Except Stop Arguments := empty.readFrom arguments

/-- The most detailed level that is logged. Quiet wins over all else, and a more
    detailed level over a less detailed one. -/
def limit (a : Arguments) : Option Level :=
  if a.has .quiet then none
  else if a.has .trace then some .trace
  else if a.has .debug then some .debug
  else if a.has .verbose then some .info
  else some .warn

end Arguments

end Tool

end WordAutomata
