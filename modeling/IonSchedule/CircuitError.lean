/-! # Faults of a circuit

The reasons for which a declaration, a gate call or a reference is refused, and their wording.
-/
namespace IonSchedule

inductive ArgumentSort where
  | qubit
  | number
deriving DecidableEq

def ArgumentSort.text : ArgumentSort → String
  | .qubit => "a qubit"
  | .number => "a number"

inductive CircuitError where
  /-- The gate is that of the call in which the register is named, if it is named in one. -/
  | registerNotFound (name : String) (gate : Option String)
  | qubitOutOfRange (register : String) (index size : Nat)
  | cyclicMapping (register : String)
  | duplicateName (name : String)
  | unknownGate (name : String)
  | argumentCount (gate : String) (expected got : Nat)
  | argumentSort (gate : String) (position : Nat) (expected : ArgumentSort)
  | unresolvedReference (name : String)
deriving DecidableEq

namespace CircuitError

/-- Names the gate call in which a missing register was met. -/
def inCall (gate : String) : CircuitError → CircuitError
  | .registerNotFound name _ => .registerNotFound name (some gate)
  | e => e

def message : CircuitError → String
  | .registerNotFound name none => s!"Register '{name}' not found in circuit"
  | .registerNotFound name (some gate) => s!"Register '{name}' not found in circuit (gate: {gate})"
  | .qubitOutOfRange register index size =>
    s!"Qubit index {index} out of range for register '{register}' of size {size}"
  | .cyclicMapping register => s!"Mapped register '{register}' does not resolve to a fundamental register"
  | .duplicateName name => s!"Name '{name}' is already declared"
  | .unknownGate name => s!"Gate '{name}' is neither a native gate nor a macro"
  | .argumentCount gate expected got => s!"Gate '{gate}' takes {expected} arguments, got {got}"
  | .argumentSort gate position expected => s!"Argument {position} of gate '{gate}' must be {expected.text}"
  | .unresolvedReference name => s!"Unresolved reference '{name}'"

end CircuitError

end IonSchedule
