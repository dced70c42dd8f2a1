import IonSchedule.Circuit
import IonSchedule.Json.Reader

/-! # Circuits from JSON values

Reads the interchange form of a circuit and of its parts. Most parts are records, written as an object or as an
array. In an object fields may come in any order, fields that are not known are skipped, and a known field must
not be repeated. An array has the values of the first fields in their order, and nothing else. In an object of
named things a repeated name keeps its first place and takes its last value.

A part whose meaning depends on a field that comes after it is held until that field is known. What is held has
to be readable throughout, also where it is skipped in the end.
-/
namespace IonSchedule

namespace Json

/-- Entries in which none of the known fields is repeated. -/
def unrepeated? (known : List String) (entries : List (String × Json)) : Option (List (String × Json)) :=
  if known.all fun key => entries.countP (·.1 = key) ≤ 1 then some entries else none

/-- The fields of a record: the entries of an object, or the items of an array under the first of the known
names. -/
def record? (known : List String) : Json → Option (List (String × Json))
  | .object entries => unrepeated? known entries
  | .array items => if items.length ≤ known.length then some (known.zip items) else none
  | _ => none

def field? (entries : List (String × Json)) (key : String) : Option Json :=
  (entries.find? (·.1 = key)).map Prod.snd

def optional? {α : Type} (entries : List (String × Json)) (key : String) (default : α) (read : Json → Option α) :
    Option α :=
  match field? entries key with
  | none => some default
  | some v => read v

def listOf? {α : Type} (read : Json → Option α) : Json → Option (List α)
  | .array items => items.mapM read
  | _ => none

def tableOf? {α : Type} (read : Json → Option α) : Json → Option (Table α)
  | .object entries => (entries.mapM fun entry => (read entry.2).map (entry.1, ·)).map Catalog.ofList
  | _ => none

/-- A word, written as a string or as the only key of an object, with `null`. -/
def word? : Json → Option String
  | .string text => some text
  | .object [(key, .null)] => some key
  | _ => none

mutual

/-- A value that is held. Its numbers must be in range, and an empty object in it says no more than `null`. -/
def held? : Json → Option Json
  | .null => some .null
  | .bool b => some (.bool b)
  | .number literal => literal.value?.map fun _ => .number literal
  | .string text => some (.string text)
  | .array items => (heldItems? items).map .array
  | .object [] => some .null
  | .object (entry :: rest) => (heldEntries? (entry :: rest)).map .object
  | .unreadable => none

def heldItems? : List Json → Option (List Json)
  | [] => some []
  | v :: rest => (held? v).bind fun v => (heldItems? rest).map (v :: ·)

def heldEntries? : List (String × Json) → Option (List (String × Json))
  | [] => some []
  | (key, v) :: rest => (held? v).bind fun v => (heldEntries? rest).map ((key, v) :: ·)

end

end Json

open Json

def Selection.readTagged? (tag : String) (v : Json) : Option Selection :=
  if tag = "whole" then
    match v with
    | .null => some .whole
    | _ => none
  else if tag = "slice" then do
    let entries ← record? ["start", "stop", "step"] v
    let start ← (field? entries "start").bind natural?
    let stop ← (field? entries "stop").bind natural?
    let step ← (field? entries "step").bind natural?
    return .slice start stop step
  else if tag = "indices" then (listOf? natural? v).map .indices
  else none

def Selection.ofJson? : Json → Option Selection
  | .string text => if text = "whole" then some .whole else none
  | .object [(tag, v)] => Selection.readTagged? tag v
  | _ => none

/-- Whether a kind is the one with the given word and number. -/
def Register.isKind (word : String) (number : Nat) (v : Json) : Bool :=
  string? v = some word || natural? v = some number

/-- A register is always an object. Everything but the name is held until the kind is known. -/
def Register.ofJson? : Json → Option Register
  | .object entries => do
    let entries ← unrepeated? ["name", "kind"] entries
    let name ← (field? entries "name").bind string?
    let details ← heldEntries? (entries.filter (·.1 ≠ "name"))
    let kind ← field? details "kind"
    if Register.isKind "fundamental" 0 kind then
      let details ← unrepeated? ["size"] details
      let size ← (field? details "size").bind natural?
      return ⟨name, .fundamental size⟩
    else if Register.isKind "mapped" 1 kind then
      let details ← unrepeated? ["source", "selection"] details
      let source ← (field? details "source").bind string?
      let selection ← (field? details "selection").bind Selection.ofJson?
      return ⟨name, .mapped source selection⟩
    else none
  | _ => none

def Registers.ofJson? (v : Json) : Option Registers := tableOf? Register.ofJson? v

def ParameterKind.ofJson? (v : Json) : Option ParameterKind := do
  let word ← word? v
  if word = "qubit" then return .qubit
  else if word = "float" then return .float
  else if word = "int" then return .int
  else none

def Parameter.ofJson? (v : Json) : Option Parameter := do
  let entries ← record? ["name", "kind"] v
  let name ← (field? entries "name").bind string?
  let kind ← (field? entries "kind").bind ParameterKind.ofJson?
  return ⟨name, kind⟩

def GateDefinition.ofJson? (v : Json) : Option GateDefinition := do
  let entries ← record? ["name", "parameters"] v
  let name ← (field? entries "name").bind string?
  let parameters ← optional? entries "parameters" [] (listOf? Parameter.ofJson?)
  return ⟨name, parameters⟩

/-- A later definition of the same name takes the place of an earlier one. -/
def GateTable.ofJson? (v : Json) : Option GateTable := (listOf? GateDefinition.ofJson? v).map Catalog.ofList

/-- Whether a gate's definition comes before its type. -/
def GateKind.definitionFirst (entries : List (String × Json)) : Bool :=
  (entries.find? fun entry => entry.1 = "type" || entry.1 = "definition").any (·.1 = "definition")

/-- The kind of the given type. A macro call has no definition; `null` may stand for it. -/
def GateKind.ofType? (type : String) (definition : Option Json) : Option GateKind :=
  if type = "native" then (definition.bind GateDefinition.ofJson?).map .native
  else if type = "macro" then
    match definition with
    | none => some .composite
    | some .null => some .composite
    | some _ => none
  else none

/-- In an object, a definition that comes before the type of a native gate is held. An array has both, with the
type as a string. -/
def GateKind.ofJson? : Json → Option GateKind
  | .object entries => do
    let entries ← unrepeated? ["type", "definition"] entries
    let type ← (field? entries "type").bind word?
    let definition := field? entries "definition"
    if type = "native" && GateKind.definitionFirst entries then GateKind.ofType? type (definition.bind held?)
    else GateKind.ofType? type definition
  | .array [.string type, definition] => GateKind.ofType? type (some definition)
  | _ => none

def Qubit.ofJson? (v : Json) : Option Qubit := do
  let entries ← record? ["register", "index"] v
  let register ← (field? entries "register").bind string?
  let index ← (field? entries "index").bind natural?
  return ⟨register, index⟩

def Argument.ofJson? : Json → Option Argument
  | .object [(tag, v)] =>
    if tag = "number" then (real? v).map .number
    else if tag = "qubit" then (Qubit.ofJson? v).map .qubit
    else if tag = "ref" then (string? v).map .ref
    else none
  | _ => none

def GateCall.ofJson? (v : Json) : Option GateCall := do
  let entries ← record? ["name", "kind", "args"] v
  let name ← (field? entries "name").bind string?
  let kind ← (field? entries "kind").bind GateKind.ofJson?
  let args ← optional? entries "args" [] (listOf? Argument.ofJson?)
  return ⟨name, kind, args⟩

def LoopCount.ofJson? : Json → Option LoopCount
  | .object [(tag, v)] =>
    if tag = "fixed" then (natural? v).map .fixed
    else if tag = "symbol" then (string? v).map .symbol
    else none
  | _ => none

def BlockKind.ofJson? (v : Json) : Option BlockKind := do
  let word ← word? v
  if word = "sequential" then return .sequential
  else if word = "parallel" then return .parallel
  else if word = "unscheduled" then return .unscheduled
  else none

mutual

def Statement.ofJson? : Json → Option Statement
  | .object [(tag, v)] =>
    if tag = "gate" then (GateCall.ofJson? v).map .gate
    else if tag = "block" then (Block.ofJson? v).map Block.toStatement
    else if tag = "loop" then Statement.loopOfJson? v
    else none
  | _ => none

def Block.ofJson? : Json → Option Block
  | .object entries => Block.ofEntries? none none entries
  | .array [kind] => (BlockKind.ofJson? kind).map (⟨·, []⟩)
  | .array [kind, statements] =>
    (BlockKind.ofJson? kind).bind fun kind => (Statement.listOfJson? statements).map (⟨kind, ·⟩)
  | _ => none

def Block.ofEntries? (kind : Option BlockKind) (statements : Option (List Statement)) :
    List (String × Json) → Option Block
  | [] => kind.map (⟨·, statements.getD []⟩)
  | (key, v) :: rest =>
    if key = "kind" then
      if kind.isSome then none
      else (BlockKind.ofJson? v).bind fun k => Block.ofEntries? (some k) statements rest
    else if key = "statements" then
      if statements.isSome then none
      else (Statement.listOfJson? v).bind fun ss => Block.ofEntries? kind (some ss) rest
    else Block.ofEntries? kind statements rest

def Statement.listOfJson? : Json → Option (List Statement)
  | .array items => Statement.ofItems? items
  | _ => none

def Statement.ofItems? : List Json → Option (List Statement)
  | [] => some []
  | v :: rest => (Statement.ofJson? v).bind fun s => (Statement.ofItems? rest).map (s :: ·)

def Statement.loopOfJson? : Json → Option Statement
  | .object entries => Statement.loopOfEntries? none none entries
  | .array [count, body] =>
    (LoopCount.ofJson? count).bind fun count =>
      (Block.ofJson? body).map fun body => .loop count body.kind body.statements
  | _ => none

def Statement.loopOfEntries? (count : Option LoopCount) (body : Option Block) :
    List (String × Json) → Option Statement
  | [] => count.bind fun count => body.map fun body => .loop count body.kind body.statements
  | (key, v) :: rest =>
    if key = "iterations" then
      if count.isSome then none
      else (LoopCount.ofJson? v).bind fun n => Statement.loopOfEntries? (some n) body rest
    else if key = "body" then
      if body.isSome then none
      else (Block.ofJson? v).bind fun b => Statement.loopOfEntries? count (some b) rest
    else Statement.loopOfEntries? count body rest

end

def Macro.ofJson? (v : Json) : Option Macro := do
  let entries ← record? ["name", "parameters", "body"] v
  let name ← (field? entries "name").bind string?
  let parameters ← optional? entries "parameters" [] (listOf? string?)
  let body ← (field? entries "body").bind Block.ofJson?
  return ⟨name, parameters, body⟩

/-- What is missing is empty, except that the gate table is then that of the QSCOUT machine. -/
def Circuit.ofJson? (v : Json) : Option Circuit := do
  let entries ← record? ["constants", "registers", "macros", "native_gates", "body"] v
  let constants ← optional? entries "constants" Catalog.empty (tableOf? real?)
  let registers ← optional? entries "registers" Catalog.empty Registers.ofJson?
  let macros ← optional? entries "macros" Catalog.empty (tableOf? Macro.ofJson?)
  let nativeGates ← optional? entries "native_gates" GateTable.qscout GateTable.ofJson?
  let body ← optional? entries "body" (.sequential []) Block.ofJson?
  return ⟨constants, registers, macros, nativeGates, body⟩

def Circuit.parse? (text : String) : Option Circuit := (Json.parse? text).bind Circuit.ofJson?

end IonSchedule
