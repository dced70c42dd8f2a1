import IonSchedule.Command.Files
import IonSchedule.Encoding.GateTable

/-! # Settings

Settings have defaults. A configuration file overrides them, and after it the environment. Each of the two says
only what it wants to change, and is checked before the next one is looked at.

Configurations are written in YAML, and gate tables may be. How such a text is read is up to a `YamlReader`; the
program has `YamlReader.plain`, and what is said of runs of commands holds with any other.
-/
namespace IonSchedule

inductive OutputFormat where
  | jaqal
  | json
deriving DecidableEq

def OutputFormat.ofText? (text : String) : Option OutputFormat :=
  if text = "jaqal" then some .jaqal else if text = "json" then some .json else none

/-- How much is logged when no `-v` is given. -/
inductive LogLevel where
  | trace
  | debug
  | info
  | warn
  | error
deriving DecidableEq

def LogLevel.ofText? (text : String) : Option LogLevel :=
  if text = "trace" then some .trace
  else if text = "debug" then some .debug
  else if text = "info" then some .info
  else if text = "warn" then some .warn
  else if text = "error" then some .error
  else none

structure Settings where
  logLevel : LogLevel
  verify : Bool
  nativeGates : Option String
  format : OutputFormat

inductive SettingsError where
  | unreadable (path : String) (fault : FileError)
  | malformed (path : String)
  | unknownLevel (text : String)
  | unknownFormat (text : String)

def SettingsError.message : SettingsError → String
  | .unreadable path fault => s!"IO error: {path}: {fault.message}"
  | .malformed path => s!"Parse error: {path}"
  | .unknownLevel text => s!"Validation error: Invalid log level: {text}"
  | .unknownFormat text => s!"Validation error: Unknown output format: {text}"

/-- Changes to settings; what is left out stays as it is. -/
structure Overrides where
  logLevel : Option String
  verify : Option Bool
  nativeGates : Option String
  format : Option String

namespace Overrides

def empty : Overrides := ⟨none, none, none, none⟩

def sectionOf? (entries : List (String × Yaml)) (name : String) (known : List String) :
    Option (List (String × Yaml)) :=
  Yaml.optional? entries name [] (Yaml.record? known)

/-- Reads a configuration. Keys that are not known are skipped. -/
def ofYaml? (y : Yaml) : Option Overrides := do
  let entries ← y.record? ["logging", "scheduler", "output"]
  let logging ← sectionOf? entries "logging" ["level"]
  let scheduler ← sectionOf? entries "scheduler" ["verify", "native_gates"]
  let output ← sectionOf? entries "output" ["format"]
  let logLevel ← Yaml.optional? logging "level" none fun y => y.text?.map some
  let verify ← Yaml.optional? scheduler "verify" none fun y => y.bool?.map some
  let nativeGates ← Yaml.optional? scheduler "native_gates" none fun y =>
    if y.isNull then some none else y.text?.map some
  let format ← Yaml.optional? output "format" none fun y => y.text?.map some
  return ⟨logLevel, verify, nativeGates, format⟩

/-- A truth value in the environment; other words say nothing. -/
def boolOfWord? (word : String) : Option Bool :=
  let word := word.map Char.toLower
  if ["1", "true", "yes", "on"].contains word then some true
  else if ["0", "false", "no", "off"].contains word then some false
  else none

def environmentNames : List String := ["JAQAL_LOG_LEVEL", "JAQAL_NATIVE_GATES", "JAQAL_VERIFY", "JAQAL_FORMAT"]

def ofEnvironment (lookup? : String → Option String) : Overrides :=
  ⟨lookup? "JAQAL_LOG_LEVEL", (lookup? "JAQAL_VERIFY").bind boolOfWord?, lookup? "JAQAL_NATIVE_GATES",
    lookup? "JAQAL_FORMAT"⟩

end Overrides

/-- How a text in YAML is read as a configuration and as a gate table. -/
structure YamlReader where
  overrides? : String → Option Overrides
  gateTable? : String → Option GateTable

/-- Reads documents of mappings, sequences and one-line scalars, without anchors, tags and directives. -/
def YamlReader.plain : YamlReader where
  overrides? text := (Yaml.parse? text).bind Overrides.ofYaml?
  gateTable? := GateTable.parseYaml?

namespace Settings

def default : Settings := ⟨.warn, true, none, .jaqal⟩

/-- Changes settings. An unknown level is found before an unknown format. -/
def override (s : Settings) (o : Overrides) : Except SettingsError Settings := do
  let logLevel ←
    match o.logLevel with
    | none => pure s.logLevel
    | some text => ((LogLevel.ofText? text).map Except.ok).getD (.error (.unknownLevel text))
  let format ←
    match o.format with
    | none => pure s.format
    | some text => ((OutputFormat.ofText? text).map Except.ok).getD (.error (.unknownFormat text))
  return ⟨logLevel, o.verify.getD s.verify, o.nativeGates.orElse fun _ => s.nativeGates, format⟩

def defaultPath (home : String) : String :=
  (if home.endsWith "/" then home else home ++ "/") ++ ".jaqal/config.yaml"

variable {m : Type → Type} [Monad m]

def readFile (yaml : YamlReader) (files : Files m) (path : String) : m (Except SettingsError Overrides) := do
  match ← files.read path with
  | .error fault => return .error (.unreadable path fault)
  | .ok text =>
    match yaml.overrides? text with
    | none => return .error (.malformed path)
    | some overrides => return .ok overrides

/-- The changes of the configuration file: the one that is named, else the one at home if there is one. -/
def configured (yaml : YamlReader) (files : Files m) (home config : Option String) :
    m (Except SettingsError Overrides) := do
  match config, home with
  | some path, _ => readFile yaml files path
  | none, some home =>
    let path := defaultPath home
    if ← files.isPresent path then readFile yaml files path else return .ok Overrides.empty
  | none, none => return .ok Overrides.empty

def load (yaml : YamlReader) (files : Files m) (lookup? : String → Option String) (home config : Option String) :
    m (Except SettingsError Settings) := do
  let overrides ← configured yaml files home config
  return do
    let settings ← default.override (← overrides)
    settings.override (Overrides.ofEnvironment lookup?)

end Settings

end IonSchedule
