/-! # Arguments of the command line

`jaqal [options] command [options]`: each level has its own options, and `-v` and `--config` belong to both. An
option has a long name and may have a one-letter name; letters may be run together, and a value may follow its
option in the same argument or in the next one.
-/
namespace IonSchedule

inductive Switch where
  | verbose
  | config
  | version
  | input
  | output
  | format
  | noVerify
  | nativeGates
deriving DecidableEq

namespace Switch

def long : Switch → String
  | .verbose => "verbose"
  | .config => "config"
  | .version => "version"
  | .input => "input"
  | .output => "output"
  | .format => "format"
  | .noVerify => "no-verify"
  | .nativeGates => "native-gates"

def short? : Switch → Option Char
  | .verbose => some 'v'
  | .version => some 'V'
  | .input => some 'i'
  | .output => some 'o'
  | .format => some 'f'
  | _ => none

def takesValue : Switch → Bool
  | .verbose | .version | .noVerify => false
  | _ => true

def atTop : List Switch := [.verbose, .config, .version]

def everywhere : List Switch := [.verbose, .config]

end Switch

inductive Command where
  | schedule (input : String) (output format : Option String) (verify : Bool) (nativeGates : Option String)
  | emit (input : String) (output : Option String)
  | gates (nativeGates : Option String)
  | version

inductive Request where
  | showVersion
  | execute (config : Option String) (command : Command)

inductive Stop where
  | refused
  | showVersion

abbrev Given := List (Switch × String)

namespace Given

def value? (given : Given) (s : Switch) : Option String := (given.find? (·.1 = s)).map Prod.snd

/-- Takes note of an option. Only `-v` may be repeated, the empty path names no configuration, and whoever asks
for the version gets it at once. -/
def note (given : Given) (s : Switch) (value : String) : Except Stop Given :=
  if s = .version then .error .showVersion
  else if s = .config && value = "" then .error .refused
  else if s != .verbose && given.any (·.1 = s) then .error .refused
  else .ok ((s, value) :: given)

/-- Reads one-letter options that are run together. The first one that takes a value takes the rest of them; if
nothing is left, it is still waiting for its value. -/
def readLetters (known : List Switch) (given : Given) : List Char → Except Stop (Given × Option Switch)
  | [] => .ok (given, none)
  | letter :: rest =>
    match known.find? (·.short? = some letter) with
    | none => .error .refused
    | some s =>
      if s.takesValue then
        match rest with
        | [] => .ok (given, some s)
        | '=' :: value => (given.note s (String.ofList value)).map (·, none)
        | value => (given.note s (String.ofList value)).map (·, none)
      else do readLetters known (← given.note s "") rest

/-- Reads an option by its long name, which an equals sign and a value may follow. -/
def readLong (known : List Switch) (given : Given) (cs : List Char) : Except Stop (Given × Option Switch) :=
  let name := cs.takeWhile (· != '=')
  match known.find? (·.long = String.ofList name), cs.drop name.length with
  | none, _ => .error .refused
  | some s, [] => if s.takesValue then .ok (given, some s) else (given.note s "").map (·, none)
  | some s, _ :: value =>
    if s.takesValue then (given.note s (String.ofList value)).map (·, none) else .error .refused

/-- Whether an argument can be the value of the option before it. -/
def isValue (argument : String) : Bool := argument = "-" || argument.toList.head? != some '-'

/-- Reads the options of a level, up to the first argument that is none; `waiting` is an option whose value
comes next. After `--` nothing may follow. -/
def read (known : List Switch) (given : Given) (waiting : Option Switch) :
    List String → Except Stop (Given × List String)
  | [] => if waiting.isSome then .error .refused else .ok (given, [])
  | argument :: rest =>
    match waiting with
    | some s => do
      if !isValue argument then throw .refused
      read known (← given.note s argument) none rest
    | none =>
      match argument.toList with
      | ['-', '-'] => if rest.isEmpty then .ok (given, []) else .error .refused
      | '-' :: '-' :: name => do
        let (given, waiting) ← readLong known given name
        read known given waiting rest
      | '-' :: letter :: letters => do
        let (given, waiting) ← readLetters known given (letter :: letters)
        read known given waiting rest
      | _ => .ok (given, argument :: rest)

end Given

namespace Command

/-- The options that a command knows, besides those that stand everywhere. -/
def switches? (name : String) : Option (List Switch) :=
  if name = "schedule" then some [.input, .output, .format, .noVerify, .nativeGates]
  else if name = "emit" then some [.input, .output]
  else if name = "gates" then some [.nativeGates]
  else if name = "version" then some []
  else none

/-- The command of a name with its options. A circuit is required where one is worked on. -/
def ofGiven? (name : String) (given : Given) : Option Command :=
  let output := given.value? .output
  if name = "schedule" then do
    let input ← given.value? .input
    return .schedule input output (given.value? .format) (given.value? .noVerify).isNone (given.value? .nativeGates)
  else if name = "emit" then do
    let input ← given.value? .input
    return .emit input output
  else if name = "gates" then some (.gates (given.value? .nativeGates))
  else if name = "version" then some .version
  else none

end Command

namespace Request

def read (arguments : List String) : Except Stop Request := do
  match ← Given.read Switch.atTop [] none arguments with
  | (_, []) => throw .refused
  | (top, name :: rest) =>
    let some switches := Command.switches? name | throw .refused
    match ← Given.read (Switch.everywhere ++ switches) [] none rest with
    | (_, _ :: _) => throw .refused
    | (given, []) =>
      let some command := Command.ofGiven? name given | throw .refused
      return .execute ((given.value? .config).orElse fun _ => top.value? .config) command

def ofArguments? (arguments : List String) : Option Request :=
  match read arguments with
  | .ok request => some request
  | .error .showVersion => some .showVersion
  | .error .refused => none

end Request

end IonSchedule
