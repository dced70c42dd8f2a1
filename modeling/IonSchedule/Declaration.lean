import IonSchedule.Circuit

/-! # Declarations as calls

A circuit is declared by calls that change it in place. Each call makes its checks one after another and files
what it declares last. A call that fails is not undone: the circuit is left as it is at that point, and more
calls may follow.
-/
namespace IonSchedule

namespace Circuit

inductive Declaration where
  | register (name : String) (size : Nat)
  | map (name source : String) (selection : Selection)
  | constant (name : String) (value : Binary64)
  | composite (name : String) (parameters : List String) (body : Block)

/-- A change to a circuit that may fail. What was changed before it fails stays changed. -/
abbrev Change := EStateM CircuitError Circuit

/-- A check of the circuit as it stands. -/
def require {α : Type} (check : Circuit → Except CircuitError α) : Change α := do
  MonadExcept.ofExcept (check (← get))

def fileRegister (r : Register) : Change Unit := do
  require fun c => if c.registers.contains r.name then .error (.duplicateName r.name) else .ok ()
  modify fun c => { c with registers := c.registers.insert r.name r }

namespace Declaration

def name : Declaration → String
  | .register name _ => name
  | .map name _ _ => name
  | .constant name _ => name
  | .composite name _ _ => name

/-- Checks and files what is declared under a name that is free. -/
def file : Declaration → Change Unit
  | .register name size => fileRegister ⟨name, .fundamental size⟩
  | .map name source selection => do
    let size ← require (·.registers.sizeOf source)
    match selection.outOfRange? size with
    | some index => throw (.qubitOutOfRange source index size)
    | none => fileRegister ⟨name, .mapped source selection⟩
  | .constant name value => modify fun c => { c with constants := c.constants.insert name value }
  | .composite name parameters body =>
    match firstRepeated? [] parameters with
    | some p => throw (.duplicateName p)
    | none => do
      require (·.checkStatements parameters body.statements)
      modify fun c => { c with macros := c.macros.insert name ⟨name, parameters, body⟩ }

def perform (d : Declaration) : Change Unit := do
  require (·.checkFresh d.name)
  d.file

end Declaration

/-- The circuit after a call, and how the call ended. -/
def declare (c : Circuit) (d : Declaration) : Circuit × Except CircuitError Unit :=
  match d.perform.run c with
  | .ok _ after => (after, .ok ())
  | .error e after => (after, .error e)

/-- Makes one call after another, those that fail included. -/
def declareAll (c : Circuit) (ds : List Declaration) : Circuit := ds.foldl (fun c d => (c.declare d).1) c

end Circuit

end IonSchedule
