import IonSchedule.Catalog

/-! # Native gates

A native gate is known by its name and its ordered parameters. A gate table lists the native gates of a machine.
-/
namespace IonSchedule

inductive ParameterKind where
  | qubit
  | float
  | int
deriving DecidableEq

namespace ParameterKind

def isQuantum (k : ParameterKind) : Bool := k = .qubit

def text : ParameterKind → String
  | .qubit => "qubit"
  | .float => "float"
  | .int => "int"

end ParameterKind

structure Parameter where
  name : String
  kind : ParameterKind
deriving DecidableEq

structure GateDefinition where
  name : String
  parameters : List Parameter
deriving DecidableEq

namespace GateDefinition

def quantumParameters (d : GateDefinition) : List Parameter := d.parameters.filter (·.kind.isQuantum)

def classicalParameters (d : GateDefinition) : List Parameter := d.parameters.filter (!·.kind.isQuantum)

def qubitCount (d : GateDefinition) : Nat := d.quantumParameters.length

end GateDefinition

/-- Gates that act on every qubit of the machine at once. -/
def isBarrierName (name : String) : Bool := name = "prepare_all" || name = "measure_all"

abbrev GateTable := Catalog GateDefinition.name

namespace GateTable

def qscout : GateTable :=
  let qubit (name : String) : Parameter := ⟨name, .qubit⟩
  let float (name : String) : Parameter := ⟨name, .float⟩
  let axes := [float "axis_angle", float "rotation_angle"]
  Catalog.ofList <|
    [⟨"prepare_all", []⟩, ⟨"measure_all", []⟩, ⟨"R", qubit "q" :: axes⟩] ++
    ["Rx", "Ry", "Rz"].map (⟨·, [qubit "q", float "angle"]⟩) ++
    ["Px", "Py", "Pz", "Sx", "Sy", "Sz", "Sxd", "Syd", "Szd"].map (⟨·, [qubit "q"]⟩) ++
    [⟨"MS", qubit "q0" :: qubit "q1" :: axes⟩, ⟨"Sxx", [qubit "q0", qubit "q1"]⟩]

end GateTable

/-- What a call is bound to: a native gate with its definition, or a macro of the circuit. -/
inductive GateKind where
  | native (definition : GateDefinition)
  | composite
deriving DecidableEq

end IonSchedule
