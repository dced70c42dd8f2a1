import IonSchedule.Usage

/-! # Circuits

A circuit holds constants, registers and macros in order of declaration, the native gates of its machine, and a
body. Each declaration is checked when it is made: its name must be new, a mapped register must show slots of a
declared one, and the body of a macro may call only what is declared before it. `validate` makes the checks
again on a circuit that was read.
-/
namespace IonSchedule

/-- A named sequence of statements; its parameters are bound by position. -/
structure Macro where
  name : String
  parameters : List String
  body : Block

structure Circuit where
  constants : Table Binary64
  registers : Registers
  macros : Table Macro
  nativeGates : GateTable
  body : Block

namespace Circuit

def empty (nativeGates : GateTable) : Circuit :=
  ⟨Catalog.empty, Catalog.empty, Catalog.empty, nativeGates, .sequential []⟩

instance : Inhabited Circuit := ⟨empty GateTable.qscout⟩

def declares (c : Circuit) (name : String) : Bool :=
  c.registers.contains name || c.constants.contains name || c.macros.contains name || c.nativeGates.contains name

def checkFresh (c : Circuit) (name : String) : Except CircuitError Unit :=
  if c.declares name then .error (.duplicateName name) else .ok ()

/-- A reference to a number: a constant, or a parameter in scope. -/
def checkReference (c : Circuit) (scope : List String) (name : String) : Except CircuitError Unit :=
  if c.constants.contains name || scope.contains name then .ok () else .error (.unresolvedReference name)

def checkQubit (c : Circuit) (gate : String) (q : Qubit) : Except CircuitError Unit :=
  match c.registers.qubit q.register q.index with
  | .ok _ => .ok ()
  | .error e => .error (e.inCall gate)

/-- An argument of a native gate against the kind of its parameter. -/
def checkNativeArgument (c : Circuit) (scope : List String) (gate : String) (position : Nat) :
    ParameterKind → Argument → Except CircuitError Unit
  | .qubit, .qubit q => c.checkQubit gate q
  | .qubit, .ref name => if scope.contains name then .ok () else .error (.unresolvedReference name)
  | .qubit, .number _ => .error (.argumentSort gate position .qubit)
  | _, .number _ => .ok ()
  | _, .ref name => c.checkReference scope name
  | _, .qubit _ => .error (.argumentSort gate position .number)

def checkNativeArguments (c : Circuit) (scope : List String) (gate : String) :
    Nat → List Parameter → List Argument → Except CircuitError Unit
  | position, p :: ps, a :: as => do
    c.checkNativeArgument scope gate position p.kind a
    c.checkNativeArguments scope gate (position + 1) ps as
  | _, _, _ => .ok ()

/-- An argument of a macro call, whose parameters have no kind. -/
def checkMacroArgument (c : Circuit) (scope : List String) (gate : String) : Argument → Except CircuitError Unit
  | .qubit q => c.checkQubit gate q
  | .ref name => c.checkReference scope name
  | .number _ => .ok ()

def checkMacroArguments (c : Circuit) (scope : List String) (gate : String) :
    List Argument → Except CircuitError Unit
  | [] => .ok ()
  | a :: rest => do
    c.checkMacroArgument scope gate a
    c.checkMacroArguments scope gate rest

/-- What a call is bound to, if it may stand in the given scope. Native gates come before macros. -/
def checkCall (c : Circuit) (scope : List String) (name : String) (args : List Argument) :
    Except CircuitError GateKind :=
  match c.nativeGates.find? name with
  | some definition =>
    if definition.parameters.length = args.length then do
      c.checkNativeArguments scope name 0 definition.parameters args
      return .native definition
    else .error (.argumentCount name definition.parameters.length args.length)
  | none =>
    match c.macros.get? name with
    | none => .error (.unknownGate name)
    | some m =>
      if m.parameters.length = args.length then do
        c.checkMacroArguments scope name args
        return .composite
      else .error (.argumentCount name m.parameters.length args.length)

def checkCount (c : Circuit) (scope : List String) : LoopCount → Except CircuitError Unit
  | .fixed _ => .ok ()
  | .symbol name => c.checkReference scope name

mutual

/-- A statement in the given scope: every call is bound to what the circuit declares under its name. -/
def checkStatement (c : Circuit) (scope : List String) : Statement → Except CircuitError Unit
  | .gate g =>
    match c.checkCall scope g.name g.args with
    | .error e => .error e
    | .ok kind => if kind = g.kind then .ok () else .error (.unknownGate g.name)
  | .block _ statements => c.checkStatements scope statements
  | .loop count _ body => do
    c.checkCount scope count
    c.checkStatements scope body

def checkStatements (c : Circuit) (scope : List String) : List Statement → Except CircuitError Unit
  | [] => .ok ()
  | s :: rest => do
    c.checkStatement scope s
    c.checkStatements scope rest

end

def checkMacros (c : Circuit) : List Macro → Except CircuitError Unit
  | [] => .ok ()
  | m :: rest => do
    c.checkStatements m.parameters m.body.statements
    c.checkMacros rest

def validate (c : Circuit) : Except CircuitError Unit := do
  c.checkMacros c.macros.values
  c.checkStatements [] c.body.statements

def declareRegister (c : Circuit) (name : String) (size : Nat) : Except CircuitError Circuit := do
  c.checkFresh name
  return { c with registers := ← c.registers.declareFundamental name size }

def declareMap (c : Circuit) (name source : String) (selection : Selection) : Except CircuitError Circuit := do
  c.checkFresh name
  return { c with registers := ← c.registers.declareMapped name source selection }

def declareConstant (c : Circuit) (name : String) (value : Binary64) : Except CircuitError Circuit := do
  c.checkFresh name
  return { c with constants := c.constants.insert name value }

/-- The first entry that an earlier one equals; `seen` are the entries before. -/
def firstRepeated? (seen : List String) : List String → Option String
  | [] => none
  | name :: rest => if seen.contains name then some name else firstRepeated? (name :: seen) rest

def declareMacro (c : Circuit) (name : String) (parameters : List String) (body : Block) :
    Except CircuitError Circuit := do
  c.checkFresh name
  match firstRepeated? [] parameters with
  | some p => .error (.duplicateName p)
  | none =>
    c.checkStatements parameters body.statements
    return { c with macros := c.macros.insert name ⟨name, parameters, body⟩ }

def gate (c : Circuit) (scope : List String) (name : String) (args : List Argument) :
    Except CircuitError GateCall := do
  match ← c.checkCall scope name args with
  | .native definition => return .native definition args
  | .composite => return .composite name args

def slots (c : Circuit) : Universe := .ofRegisters c.registers

/-- The slots inside a macro: those of the registers and one for each parameter. -/
def macroSlots (c : Circuit) (m : Macro) : Universe := c.slots.withParameters m.parameters

/-- Equality of circuits, numbers compared as numbers. -/
def agrees (a b : Circuit) : Bool :=
  a.registers.items = b.registers.items && a.nativeGates.items = b.nativeGates.items &&
    a.constants.names = b.constants.names &&
      (a.constants.values.zip b.constants.values).all (fun (x, y) => x.agrees y) &&
    a.macros.names = b.macros.names && (a.macros.values.zip b.macros.values).all (fun (m, n) =>
      m.name = n.name && m.parameters = n.parameters && m.body.agrees n.body) &&
    a.body.agrees b.body

end Circuit

end IonSchedule
