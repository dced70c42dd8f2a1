import IonSchedule.Catalog
import IonSchedule.CircuitError
import IonSchedule.Selection

/-! # Registers

A fundamental register owns qubits; a mapped register shows some of the slots of another one. A table of
registers that was declared step by step maps only to registers declared before, but a table that was read may
hold missing sources and cycles. Sources are therefore followed at most once through the whole table: a longer
chain must pass a register twice.
-/
namespace IonSchedule

inductive RegisterKind where
  | fundamental (size : Nat)
  | mapped (source : String) (selection : Selection)
deriving DecidableEq

structure Register where
  name : String
  kind : RegisterKind
deriving DecidableEq

def Register.isFundamental (r : Register) : Bool :=
  match r.kind with
  | .fundamental _ => true
  | .mapped _ _ => false

/-- A slot of a register as a gate call names it. -/
structure Qubit where
  register : String
  index : Nat
deriving DecidableEq

def Qubit.text (q : Qubit) : String := s!"{q.register}[{q.index}]"

/-- A qubit of the machine: a fundamental register and a place in it. -/
structure PhysicalQubit where
  register : String
  index : Nat
deriving DecidableEq

/-- Registers in order of declaration. They are looked up by the name under which they are filed. -/
abbrev Registers := Table Register

namespace Registers

def declare (t : Registers) (r : Register) : Except CircuitError Registers :=
  if t.contains r.name then .error (.duplicateName r.name) else .ok (t.insert r.name r)

def declareFundamental (t : Registers) (name : String) (size : Nat) : Except CircuitError Registers :=
  t.declare ⟨name, .fundamental size⟩

/-- The size of a register, following at most `steps` registers. -/
def sizeWithin (t : Registers) : (steps : Nat) → String → Except CircuitError Nat
  | 0, name => .error (.cyclicMapping name)
  | steps + 1, name =>
    match t.get? name with
    | none => .error (.registerNotFound name none)
    | some ⟨_, .fundamental size⟩ => .ok size
    | some ⟨_, .mapped source selection⟩ => (t.sizeWithin steps source).map selection.size

def sizeOf (t : Registers) (name : String) : Except CircuitError Nat := t.sizeWithin (t.size + 1) name

def declareMapped (t : Registers) (name source : String) (selection : Selection) :
    Except CircuitError Registers := do
  let size ← t.sizeOf source
  match selection.outOfRange? size with
  | some index => .error (.qubitOutOfRange source index size)
  | none => t.declare ⟨name, .mapped source selection⟩

/-- The qubit `name[index]`, if the register has that slot. -/
def qubit (t : Registers) (name : String) (index : Nat) : Except CircuitError Qubit := do
  let size ← t.sizeOf name
  if index < size then .ok ⟨name, index⟩ else .error (.qubitOutOfRange name index size)

/-- Follows a slot to a fundamental register through at most `steps` registers; `origin` is where it started. -/
def resolveWithin (t : Registers) (origin : String) :
    (steps : Nat) → String → Nat → Except CircuitError PhysicalQubit
  | 0, _, _ => .error (.cyclicMapping origin)
  | steps + 1, name, index =>
    match t.get? name with
    | none => .error (.registerNotFound name none)
    | some ⟨_, .fundamental size⟩ =>
      if index < size then .ok ⟨name, index⟩ else .error (.qubitOutOfRange name index size)
    | some ⟨_, .mapped source selection⟩ =>
      match t.sizeOf source with
      | .error e => .error e
      | .ok size =>
        if h : index < selection.size size
        then t.resolveWithin origin steps source (selection.sourceIndex ⟨index, h⟩)
        else .error (.qubitOutOfRange name index (selection.size size))

def resolve (t : Registers) (q : Qubit) : Except CircuitError PhysicalQubit :=
  t.resolveWithin q.register (t.size + 1) q.register q.index

/-- The fundamental registers with their sizes, by the names they carry. -/
def fundamental (t : Registers) : List (String × Nat) :=
  t.values.filterMap fun r =>
    match r.kind with
    | .fundamental size => some (r.name, size)
    | .mapped _ _ => none

def qubitCount (t : Registers) : Nat := t.fundamental.foldr (fun entry count => entry.2 + count) 0

end Registers

end IonSchedule
