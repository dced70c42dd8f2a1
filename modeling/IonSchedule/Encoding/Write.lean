import IonSchedule.Circuit
import IonSchedule.Json.Printer

/-! # Circuits as JSON values

The interchange form of a circuit and of its parts. Named things are entries of an object in order of declaration; a
gate table is the list of its definitions.
-/
namespace IonSchedule

namespace Selection

def toJson : Selection → Json
  | .whole => .string "whole"
  | .slice start stop step =>
    .object [("slice", .object [("start", .nat start), ("stop", .nat stop), ("step", .nat step)])]
  | .indices positions => .object [("indices", .array (positions.map .nat))]

end Selection

namespace Register

def toJson (r : Register) : Json :=
  match r.kind with
  | .fundamental size => .object [("name", .string r.name), ("kind", .string "fundamental"), ("size", .nat size)]
  | .mapped source selection =>
    .object [("name", .string r.name), ("kind", .string "mapped"), ("source", .string source),
      ("selection", selection.toJson)]

end Register

def Table.toJson {α : Type} (value : α → Json) (t : Table α) : Json :=
  .object (t.items.map fun entry => (entry.1, value entry.2))

def Registers.toJson (t : Registers) : Json := Table.toJson Register.toJson t

def Parameter.toJson (p : Parameter) : Json := .object [("name", .string p.name), ("kind", .string p.kind.text)]

def GateDefinition.toJson (d : GateDefinition) : Json :=
  .object [("name", .string d.name), ("parameters", .array (d.parameters.map Parameter.toJson))]

def GateTable.toJson (t : GateTable) : Json := .array (t.items.map GateDefinition.toJson)

def GateKind.toJson : GateKind → Json
  | .native definition => .object [("type", .string "native"), ("definition", definition.toJson)]
  | .composite => .object [("type", .string "macro")]

def Qubit.toJson (q : Qubit) : Json := .object [("register", .string q.register), ("index", .nat q.index)]

def Argument.toJson : Argument → Json
  | .number value => .object [("number", .real value)]
  | .qubit q => .object [("qubit", q.toJson)]
  | .ref name => .object [("ref", .string name)]

def GateCall.toJson (g : GateCall) : Json :=
  .object [("name", .string g.name), ("kind", g.kind.toJson), ("args", .array (g.args.map Argument.toJson))]

def LoopCount.toJson : LoopCount → Json
  | .fixed count => .object [("fixed", .nat count)]
  | .symbol name => .object [("symbol", .string name)]

def BlockKind.word : BlockKind → String
  | .sequential => "sequential"
  | .parallel => "parallel"
  | .unscheduled => "unscheduled"

def blockJson (kind : BlockKind) (statements : List Json) : Json :=
  .object [("kind", .string kind.word), ("statements", .array statements)]

mutual

def Statement.toJson : Statement → Json
  | .gate g => .object [("gate", g.toJson)]
  | .block kind statements => .object [("block", blockJson kind (Statement.listToJson statements))]
  | .loop count kind body =>
    .object [("loop", .object [("iterations", count.toJson), ("body", blockJson kind (Statement.listToJson body))])]

def Statement.listToJson : List Statement → List Json
  | [] => []
  | s :: rest => s.toJson :: Statement.listToJson rest

end

def Block.toJson (b : Block) : Json := blockJson b.kind (Statement.listToJson b.statements)

def Macro.toJson (m : Macro) : Json :=
  .object [("name", .string m.name), ("parameters", .array (m.parameters.map .string)), ("body", m.body.toJson)]

def Circuit.toJson (c : Circuit) : Json :=
  .object [("constants", Table.toJson .real c.constants), ("registers", c.registers.toJson),
    ("macros", Table.toJson Macro.toJson c.macros), ("native_gates", c.nativeGates.toJson), ("body", c.body.toJson)]

end IonSchedule
