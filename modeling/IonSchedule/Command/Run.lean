import IonSchedule.Command.Arguments
import IonSchedule.Command.Settings
import IonSchedule.Encoding.Write
import IonSchedule.Jaqal
import IonSchedule.Pass

/-! # Commands

A command reads its files, works on a circuit, and writes a text to a file or to the console. What it says on
the way stays said when it fails later. The work between reading and writing is in `scheduleText` and needs no
files.
-/
namespace IonSchedule

inductive CommandError where
  | unknownFormat (text : String)
  | missing (path : String)
  | unreadable (path : String) (fault : FileError)
  | malformed (path : String)
  | invalid (path : String) (fault : CircuitError)
  | tableUnreadable (path : String) (fault : FileError)
  | tableMalformed (path : String)
  | tableMismatch (fault : CircuitError)
  | pass (fault : ScheduleError)
  | jaqal (fault : JaqalError)
  | emit (path : String) (fault : JaqalError)
  | unwritable (path : String) (fault : FileError)

namespace CommandError

/-- The words for a failed pass. A fault of the circuit is named once more as the cause. -/
def passMessage : ScheduleError → String
  | .circuit fault => (ScheduleError.circuit fault).message ++ ": " ++ fault.message
  | fault => fault.message

def message : CommandError → String
  | .unknownFormat text => s!"Unknown output format: '{text}'. Available: jaqal, json"
  | .missing path => s!"File not found: {path}"
  | .unreadable path fault => s!"Failed to read file: {path}: {fault.message}"
  | .malformed path => s!"Failed to parse circuit JSON: {path}"
  | .invalid path fault => s!"Invalid circuit: {path}: {fault.message}"
  | .tableUnreadable path fault => s!"Failed to read native gate table: {path}: {fault.message}"
  | .tableMalformed path => s!"Failed to parse native gate table: {path}"
  | .tableMismatch fault => s!"Circuit does not match the native gate table: {fault.message}"
  | .pass fault => passMessage fault
  | .jaqal fault => s!"Failed to emit Jaqal: {fault.message}"
  | .emit path fault => s!"Failed to emit {path}: {fault.message}"
  | .unwritable path fault => s!"Failed to write file: {path}: {fault.message}"

end CommandError

structure Console where
  exit : Nat
  stdout : String
  stderr : String
deriving DecidableEq

structure Transcript where
  stdout : String
  stderr : String

/-- A command under way: it may fail, and then what it said stays. -/
abbrev Session (m : Type → Type) := ExceptT CommandError (StateT Transcript m)

namespace Command

def render (format : OutputFormat) (c : Circuit) : Except CommandError String :=
  match format with
  | .json => .ok c.toJson.pretty
  | .jaqal => c.toJaqal.mapError .jaqal

def resultNotes (found : Findings) : List String :=
  let stats : List String :=
    match found.get? .stats with
    | some (s : Stats) =>
      [s!"  Result: {s.blocksScheduled} blocks scheduled into {s.moments} moments ({s.parallelMoments} parallel)"]
    | none => []
  let verification : List String :=
    match found.get? .verification with
    | some (r : Report) => [s!"  Verified: {r.blocks} blocks, widest parallel block {r.width}"]
    | none => []
  "✓ Scheduling complete" :: stats ++ verification

/-- Schedules a circuit that is ready for it: the remarks on the way, and the text to be written. -/
def scheduleText (verify : Bool) (format : OutputFormat) (c : Circuit) : List String × Except CommandError String :=
  let passes := Pass.pipeline verify
  let names := String.intercalate ", " (passes.map Pass.name)
  let start := [
    s!"  Loaded: {c.registers.qubitCount} qubits, {c.body.gateCount} gates, {c.macros.size} macros",
    s!"  Running passes: {names}"]
  let outcome := Pass.runAll passes c Properties.empty
  match outcome.failure with
  | some fault => (start, .error (.pass fault))
  | none => (start ++ resultNotes outcome.findings, render format outcome.circuit)

/-- The listing of a gate table. Names fill a column of twelve. -/
def gateListing (table : GateTable) : String :=
  let line (d : GateDefinition) : String :=
    let parameters := d.parameters.map fun p => s!"{p.name}: {p.kind.text}"
    let column := d.name ++ String.ofList (List.replicate (12 - d.name.length) ' ')
    s!"  {column} " ++ String.intercalate ", " parameters ++ "\n"
  s!"Native gates ({table.size} gates):\n" ++ String.join (table.items.map line)

def versionNumber : String := "0.4.0"

def versionText : String :=
  s!"jaqal v{versionNumber} - parallelizing scheduler for Jaqal circuits\n" ++
  "\n" ++
  "Components:\n" ++
  "  jaqal-ir       Circuit representation and qubit usage\n" ++
  "  jaqal-compile  Pass framework and scheduler\n" ++
  "  jaqal-emit     Jaqal source emitter\n" ++
  "  jaqal-cli      Command-line interface\n" ++
  "\n" ++
  "License:    Apache-2.0\n"

variable {m : Type → Type} [Monad m]

def say (line : String) : Session m Unit := modify fun t => { t with stderr := t.stderr ++ line ++ "\n" }

def print (text : String) : Session m Unit := modify fun t => { t with stdout := t.stdout ++ text }

def onFiles {α : Type} (action : m α) : Session m α := ExceptT.lift (StateT.lift action)

/-- Reads a circuit and checks it against its own gate table. -/
def loadCircuit (files : Files m) (path : String) : Session m Circuit := do
  if !(← onFiles (files.isPresent path)) then throw (.missing path)
  match ← onFiles (files.read path) with
  | .error fault => throw (.unreadable path fault)
  | .ok text =>
    match Circuit.parse? text with
    | none => throw (.malformed path)
    | some c =>
      match c.validate with
      | .error fault => throw (.invalid path fault)
      | .ok _ => return c

/-- Reads a gate table, as JSON if its file says so and else as YAML. -/
def loadTable (yaml : YamlReader) (files : Files m) (path : String) : Session m GateTable := do
  match ← onFiles (files.read path) with
  | .error fault => throw (.tableUnreadable path fault)
  | .ok text =>
    let isJson := (extension? path).any fun e => e.map Char.toLower = "json"
    match if isJson then GateTable.parseJson? text else yaml.gateTable? text with
    | none => throw (.tableMalformed path)
    | some table => return table

/-- The gate table that the command names, else the one that the settings name. -/
def chosenTable (yaml : YamlReader) (files : Files m) (settings : Settings) (nativeGates : Option String) :
    Session m (Option GateTable) :=
  match nativeGates.orElse fun _ => settings.nativeGates with
  | none => return none
  | some path => return some (← loadTable yaml files path)

/-- Puts a gate table in place of the circuit's own and checks the circuit against it. -/
def withTable (c : Circuit) (table : Option GateTable) : Except CommandError Circuit :=
  match table with
  | none => .ok c
  | some table =>
    let c := { c with nativeGates := table }
    match c.validate with
    | .error fault => .error (.tableMismatch fault)
    | .ok _ => .ok c

def writeOutput (files : Files m) (text : String) : Option String → Session m Unit
  | none => print text
  | some path => do
    match ← onFiles (files.write path text) with
    | .error fault => throw (.unwritable path fault)
    | .ok _ => return ()

def chosenFormat (settings : Settings) : Option String → Except CommandError OutputFormat
  | none => .ok settings.format
  | some text => ((OutputFormat.ofText? text).map Except.ok).getD (.error (.unknownFormat text))

def run (yaml : YamlReader) (files : Files m) (settings : Settings) : Command → Session m Unit
  | .schedule input output format verify nativeGates => do
    let format ← liftExcept (chosenFormat settings format)
    say s!"→ Scheduling {input}"
    let circuit ← loadCircuit files input
    let table ← chosenTable yaml files settings nativeGates
    let circuit ← liftExcept (withTable circuit table)
    let (notes, result) := scheduleText (settings.verify && verify) format circuit
    notes.forM say
    let text ← liftExcept result
    writeOutput files text output
    match output with
    | none => return ()
    | some path => say s!"  Output: {path}"
  | .emit input output => do
    let circuit ← loadCircuit files input
    match circuit.toJaqal with
    | .error fault => throw (.emit input fault)
    | .ok text => writeOutput files text output
  | .gates nativeGates => do
    let table ← chosenTable yaml files settings nativeGates
    print (gateListing (table.getD GateTable.qscout))
  | .version => print versionText

end Command

namespace Request

variable {m : Type → Type} [Monad m]

def failure (transcript : Transcript) (message : String) : Console :=
  ⟨1, transcript.stdout, transcript.stderr ++ "Error: " ++ message ++ "\n"⟩

/-- Carries a request out. The settings are read before every command. -/
def run (yaml : YamlReader) (files : Files m) (lookup? : String → Option String) (home : Option String) :
    Request → m Console
  | .showVersion => return ⟨0, s!"jaqal {Command.versionNumber}\n", ""⟩
  | .execute config command => do
    match ← Settings.load yaml files lookup? home config with
    | .error fault => return failure ⟨"", ""⟩ fault.message
    | .ok settings =>
      match ← (command.run yaml files settings).run.run ⟨"", ""⟩ with
      | (.error fault, transcript) => return failure transcript fault.message
      | (.ok _, transcript) => return ⟨0, transcript.stdout, transcript.stderr⟩

end Request

/-- The whole program over a reader of YAML: what the arguments ask for is carried out, and arguments that cannot be
understood are refused. -/
def runArgumentsWith {m : Type → Type} [Monad m] (yaml : YamlReader) (files : Files m)
    (lookup? : String → Option String) (home : Option String) (arguments : List String) : m Console :=
  match Request.ofArguments? arguments with
  | none => return ⟨2, "", "error: the arguments were not understood\n"⟩
  | some request => request.run yaml files lookup? home

def runArguments {m : Type → Type} [Monad m] (files : Files m) (lookup? : String → Option String)
    (home : Option String) (arguments : List String) : m Console :=
  runArgumentsWith .plain files lookup? home arguments

end IonSchedule
